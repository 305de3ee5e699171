set_option autoImplicit false

/-!
# Ordered trees

A node holds a value and an ordered list of children. Functions on trees come in pairs, one for a
tree and one for the list of its siblings, so that they recurse on the data. Traversals are in
pre-order: a node before its children, the children from left to right.
-/

namespace TreeRules

inductive Tree (α : Type) where
  | node (value : α) (children : List (Tree α))

namespace Tree

variable {α β : Type}

def leaf (value : α) : Tree α := node value []

instance [Inhabited α] : Inhabited (Tree α) := ⟨leaf default⟩

def value : Tree α → α
  | node v _ => v

def children : Tree α → List (Tree α)
  | node _ ts => ts

@[simp] theorem value_node (v : α) (ts : List (Tree α)) : (node v ts).value = v := rfl
@[simp] theorem children_node (v : α) (ts : List (Tree α)) : (node v ts).children = ts := rfl
@[simp] theorem node_eta (t : Tree α) : node t.value t.children = t := by cases t; rfl

def isLeaf (t : Tree α) : Bool := t.children.isEmpty

def child? (t : Tree α) (i : Nat) : Option (Tree α) := t.children[i]?

def push (t c : Tree α) : Tree α := node t.value (t.children ++ [c])

def withValue (t : Tree α) (v : α) : Tree α := node v t.children

@[elab_as_elim]
theorem induction {motive : Tree α → Prop}
    (node : ∀ v ts, (∀ t ∈ ts, motive t) → motive (.node v ts)) (t : Tree α) : motive t :=
  Tree.rec (motive_1 := motive) (motive_2 := fun ts => ∀ t ∈ ts, motive t)
    (fun v ts ih => node v ts ih) (fun _ h => nomatch h)
    (fun t ts ih ihs u hu => by
      rcases List.mem_cons.1 hu with rfl | hu
      · exact ih
      · exact ihs u hu) t

mutual
def size : Tree α → Nat
  | node _ ts => 1 + sizeAll ts
def sizeAll : List (Tree α) → Nat
  | [] => 0
  | t :: ts => size t + sizeAll ts
end

@[simp] theorem size_node (v : α) (ts : List (Tree α)) : size (node v ts) = 1 + sizeAll ts := rfl
@[simp] theorem sizeAll_nil : sizeAll ([] : List (Tree α)) = 0 := rfl
@[simp] theorem sizeAll_cons (t : Tree α) (ts : List (Tree α)) :
    sizeAll (t :: ts) = size t + sizeAll ts := rfl

theorem size_pos (t : Tree α) : 0 < t.size := by
  cases t; simp only [size_node]; omega

mutual
/-- Number of nodes on the longest way from the root to a leaf. -/
def depth : Tree α → Nat
  | node _ ts => 1 + depthAll ts
def depthAll : List (Tree α) → Nat
  | [] => 0
  | t :: ts => max (depth t) (depthAll ts)
end

mutual
/-- Folds the values from the right, the last one in pre-order first. -/
def foldr (f : α → β → β) : Tree α → β → β
  | node v ts, b => f v (foldrAll f ts b)
def foldrAll (f : α → β → β) : List (Tree α) → β → β
  | [], b => b
  | t :: ts, b => foldr f t (foldrAll f ts b)
end

def values (t : Tree α) : List α := t.foldr List.cons []

mutual
theorem foldr_cons (t : Tree α) (vs : List α) : t.foldr List.cons vs = t.values ++ vs := by
  cases t with
  | node v ts =>
    simp only [values, foldr, List.cons_append]
    rw [foldrAll_cons ts vs, foldrAll_cons ts []]
    simp
theorem foldrAll_cons (ts : List (Tree α)) (vs : List α) :
    foldrAll List.cons ts vs = ts.flatMap values ++ vs := by
  cases ts with
  | nil => rfl
  | cons t ts =>
    simp only [foldrAll, List.flatMap_cons]
    rw [foldr_cons t, foldrAll_cons ts vs, List.append_assoc]
end

theorem values_node (v : α) (ts : List (Tree α)) :
    (node v ts).values = v :: ts.flatMap values := by
  simp only [values, foldr]
  rw [foldrAll_cons ts []]
  simp

theorem length_values (t : Tree α) : t.values.length = t.size := by
  induction t using induction with
  | node v ts ih =>
    rw [values_node, size_node, List.length_cons, Nat.add_comm]
    congr 1
    induction ts with
    | nil => rfl
    | cons t ts ihs =>
      rw [List.flatMap_cons, List.length_append, sizeAll_cons, ih t (by simp),
        ihs fun u hu => ih u (by simp [hu])]

mutual
def map (f : α → β) : Tree α → Tree β
  | node v ts => node (f v) (mapAll f ts)
def mapAll (f : α → β) : List (Tree α) → List (Tree β)
  | [] => []
  | t :: ts => map f t :: mapAll f ts
end

theorem mapAll_eq_map (f : α → β) (ts : List (Tree α)) : mapAll f ts = ts.map (map f) := by
  induction ts with
  | nil => rfl
  | cons t ts ih => rw [mapAll, ih, List.map_cons]

@[simp] theorem map_node (f : α → β) (v : α) (ts : List (Tree α)) :
    map f (node v ts) = node (f v) (ts.map (map f)) := by rw [map, mapAll_eq_map]

theorem map_id (t : Tree α) : t.map id = t := by
  induction t using induction with
  | node v ts ih => rw [map_node, id, List.map_congr_left (g := id) ih, List.map_id]

theorem map_map {γ : Type} (g : β → γ) (f : α → β) (t : Tree α) :
    (t.map f).map g = t.map (g ∘ f) := by
  induction t using induction with
  | node v ts ih =>
    rw [map_node, map_node, map_node, List.map_map]
    exact congrArg _ (List.map_congr_left ih)

theorem values_map (f : α → β) (t : Tree α) : (t.map f).values = t.values.map f := by
  induction t using induction with
  | node v ts ih =>
    rw [map_node, values_node, values_node, List.map_cons, List.flatMap_map, List.map_flatMap,
      List.flatMap_def, List.flatMap_def, List.map_congr_left ih]

theorem map_congr {f g : α → β} {t : Tree α} (h : ∀ v ∈ t.values, f v = g v) :
    t.map f = t.map g := by
  induction t using induction with
  | node v ts ih =>
    rw [values_node, List.forall_mem_cons] at h
    have below : ∀ t ∈ ts, t.map f = t.map g := fun t ht =>
      ih t ht fun w hw => h.2 w (List.mem_flatMap.2 ⟨t, ht, hw⟩)
    rw [map_node, map_node, h.1, List.map_congr_left below]

section
variable {m : Type → Type} [Monad m]

mutual
/-- As `map`, with `f` run on the values in pre-order. -/
@[specialize]
def mapM (f : α → m β) : Tree α → m (Tree β)
  | node v ts => do
    let w ← f v
    let us ← mapAllM f ts
    pure (node w us)
@[specialize]
def mapAllM (f : α → m β) : List (Tree α) → m (List (Tree β))
  | [] => pure []
  | t :: ts => do
    let u ← mapM f t
    let us ← mapAllM f ts
    pure (u :: us)
end

variable [LawfulMonad m]

mutual
theorem mapM_pure (f : α → β) (t : Tree α) :
    t.mapM (fun v => (pure (f v) : m β)) = pure (t.map f) := by
  cases t with
  | node v ts =>
    rw [mapM, pure_bind, mapAllM_pure f ts, pure_bind]
    rfl
theorem mapAllM_pure (f : α → β) (ts : List (Tree α)) :
    mapAllM (fun v => (pure (f v) : m β)) ts = pure (mapAll f ts) := by
  cases ts with
  | nil => rfl
  | cons t ts =>
    rw [mapAllM, mapM_pure f t, pure_bind, mapAllM_pure f ts, pure_bind]
    rfl
end

end

def copy (clone : α → α) (t : Tree α) : Tree α := Id.run (t.mapM fun v => pure (clone v))

theorem copy_eq_map (clone : α → α) (t : Tree α) : t.copy clone = t.map clone := by
  rw [copy, mapM_pure, Id.run_pure]

section
variable [BEq α]

mutual
/-- Same shape, and equal values at corresponding nodes. The value equality is any test: it is asked
with the value of the left tree first, and nothing is assumed of it. -/
def agrees : Tree α → Tree α → Bool
  | node v ts, node w us => v == w && ts.length == us.length && agreesAll ts us
/-- Compares as many trees as the shorter list has. -/
def agreesAll : List (Tree α) → List (Tree α) → Bool
  | t :: ts, u :: us => agrees t u && agreesAll ts us
  | _, _ => true
end

mutual
def beq : Tree α → Tree α → Bool
  | node v ts, node w us => v == w && beqAll ts us
def beqAll : List (Tree α) → List (Tree α) → Bool
  | [], [] => true
  | t :: ts, u :: us => beq t u && beqAll ts us
  | _, _ => false
end

instance : BEq (Tree α) := ⟨beq⟩

end

mutual
theorem eq_of_beq [BEq α] [LawfulBEq α] {t u : Tree α} (h : beq t u = true) : t = u := by
  cases t with
  | node v ts =>
    cases u with
    | node w us =>
      simp only [beq, Bool.and_eq_true, beq_iff_eq] at h
      rw [h.1, eq_of_beqAll h.2]
theorem eq_of_beqAll [BEq α] [LawfulBEq α] {ts us : List (Tree α)} (h : beqAll ts us = true) :
    ts = us := by
  cases ts with
  | nil => cases us with
    | nil => rfl
    | cons u us => simp [beqAll] at h
  | cons t ts => cases us with
    | nil => simp [beqAll] at h
    | cons u us =>
      simp only [beqAll, Bool.and_eq_true] at h
      rw [eq_of_beq h.1, eq_of_beqAll h.2]
end

mutual
theorem beq_self [BEq α] [LawfulBEq α] (t : Tree α) : beq t t = true := by
  cases t with
  | node v ts => simp only [beq, beq_self_eq_true, Bool.true_and]; exact beqAll_self ts
theorem beqAll_self [BEq α] [LawfulBEq α] (ts : List (Tree α)) : beqAll ts ts = true := by
  cases ts with
  | nil => rfl
  | cons t ts => simp only [beqAll, Bool.and_eq_true]; exact ⟨beq_self t, beqAll_self ts⟩
end

instance [BEq α] [LawfulBEq α] : LawfulBEq (Tree α) where
  eq_of_beq := eq_of_beq
  rfl := beq_self _

instance [DecidableEq α] : DecidableEq (Tree α) := fun t u => decidable_of_iff (t == u) beq_iff_eq

end Tree

end TreeRules
