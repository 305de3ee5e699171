import Mathlib.Data.List.Forall2
import TreeRules.Proofs.Positions
set_option autoImplicit false

namespace TreeRules.Tree

variable {α β γ : Type}

/-- The trees have the same positions. -/
def SameShape (t : Tree α) (u : Tree β) : Prop :=
  ∀ p, (t.subtree? p).isSome = (u.subtree? p).isSome

/-- The trees have the same shape, and `R` holds between their values at each position. -/
structure Pointwise (R : α → β → Prop) (t : Tree α) (u : Tree β) : Prop where
  shape : SameShape t u
  values : ∀ p x y, t.subtree? p = some x → u.subtree? p = some y → R x.value y.value

section

variable {R : α → β → Prop} {v : α} {w : β} {ts : List (Tree α)} {us : List (Tree β)}

theorem SameShape.length_children (h : SameShape (node v ts) (node w us)) :
    ts.length = us.length := by
  have inside (i : Nat) : i < ts.length ↔ i < us.length := by
    have child : ts[i]?.isSome = us[i]?.isSome := by simpa using h [i]
    grind
  have upper := inside us.length
  have lower := inside ts.length
  omega

theorem subtree?_child {i : Nat} (h : i < ts.length) (p : Path) :
    (node v ts).subtree? (i :: p) = ts[i].subtree? p := by
  rw [subtree?_cons, List.getElem?_eq_getElem h, Option.bind_some]

theorem subtree?_beyond {i : Nat} (h : ts.length ≤ i) (p : Path) :
    (node v ts).subtree? (i :: p) = none := by
  rw [subtree?_cons, List.getElem?_eq_none h, Option.bind_none]

theorem pointwise_node :
    Pointwise R (node v ts) (node w us) ↔ R v w ∧ List.Forall₂ (Pointwise R) ts us := by
  rw [List.forall₂_iff_get]
  constructor
  · rintro ⟨shape, values⟩
    refine ⟨values [] _ _ (subtree?_nil _) (subtree?_nil _), shape.length_children, ?_⟩
    intro i hi hi'
    refine ⟨fun p => ?_, fun p x y hx hy => ?_⟩
    · have below := shape (i :: p)
      rwa [subtree?_child hi, subtree?_child hi'] at below
    · exact values (i :: p) x y ((subtree?_child hi p).trans hx) ((subtree?_child hi' p).trans hy)
  · rintro ⟨root, length, below⟩
    refine ⟨fun p => ?_, fun p x y hx hy => ?_⟩
    · cases p with
      | nil => simp
      | cons i p =>
        -- behind the last child neither tree has a node
        by_cases hi : i < ts.length
        · have hi' : i < us.length := length ▸ hi
          rw [subtree?_child hi, subtree?_child hi']
          exact (below i hi hi').shape p
        · have hi' : us.length ≤ i := length ▸ Nat.le_of_not_lt hi
          rw [subtree?_beyond (Nat.le_of_not_lt hi), subtree?_beyond hi']
          rfl
    · cases p with
      | nil =>
        rw [subtree?_nil, Option.some.injEq] at hx hy
        subst hx hy
        exact root
      | cons i p =>
        by_cases hi : i < ts.length
        · have hi' : i < us.length := length ▸ hi
          rw [subtree?_child hi] at hx
          rw [subtree?_child hi'] at hy
          exact (below i hi hi').values p x y hx hy
        · rw [subtree?_beyond (Nat.le_of_not_lt hi)] at hx
          simp at hx

theorem pointwise_of_sameShape {t : Tree α} {u : Tree β} (h : SameShape t u) :
    Pointwise (fun _ _ => True) t u :=
  ⟨h, fun _ _ _ _ _ => trivial⟩

theorem sameShape_node :
    SameShape (node v ts) (node w us) ↔ List.Forall₂ SameShape ts us := by
  constructor
  · intro h
    obtain ⟨_, below⟩ := pointwise_node.1 (pointwise_of_sameShape h)
    exact below.imp fun _ _ => Pointwise.shape
  · intro h
    have below := h.imp fun _ _ => pointwise_of_sameShape
    exact (pointwise_node.2 ⟨trivial, below⟩).shape

end

theorem Pointwise.flip {R : α → β → Prop} {S : β → α → Prop} {t : Tree α} {u : Tree β}
    (h : Pointwise R t u) (hRS : ∀ v w, R v w → S w v) : Pointwise S u t :=
  ⟨fun p => (h.shape p).symm, fun p y x hy hx => hRS _ _ (h.values p x y hx hy)⟩

theorem Pointwise.comp {R : α → β → Prop} {S : β → γ → Prop} {Q : α → γ → Prop} {t : Tree α}
    {u : Tree β} {x : Tree γ} (h : Pointwise R t u) (h' : Pointwise S u x)
    (hQ : ∀ a b c, R a b → S b c → Q a c) : Pointwise Q t x := by
  refine ⟨fun p => (h.shape p).trans (h'.shape p), fun p y z hy hz => ?_⟩
  have inside : (u.subtree? p).isSome = true := by
    rw [← h.shape p, hy]
    rfl
  obtain ⟨m, hm⟩ := Option.isSome_iff_exists.1 inside
  exact hQ _ _ _ (h.values p y m hy hm) (h'.values p m z hm hz)

theorem SameShape.induction {motive : Tree α → Tree β → Prop}
    (node : ∀ v w ts us, List.Forall₂ (fun t u => SameShape t u ∧ motive t u) ts us →
      motive (.node v ts) (.node w us)) {t : Tree α} {u : Tree β} (h : SameShape t u) :
    motive t u := by
  induction t using Tree.induction generalizing u with
  | node v ts ih =>
    obtain ⟨w, us⟩ := u
    refine node v w ts us ?_
    have below := sameShape_node.1 h
    clear h
    induction below with
    | nil => exact .nil
    | @cons t u ts us first _ ihs =>
      refine .cons ⟨first, ih t List.mem_cons_self first⟩ (ihs fun x hx => ?_)
      exact ih x (List.mem_cons_of_mem t hx)

theorem SameShape.size_eq {t : Tree α} {u : Tree β} (h : SameShape t u) : t.size = u.size := by
  refine h.induction (motive := fun t u => t.size = u.size) fun v w ts us below => ?_
  rw [size_node, size_node]
  congr 1
  induction below with
  | nil => rfl
  | cons first _ ih => rw [sizeAll_cons, sizeAll_cons, first.2, ih]

theorem SameShape.depth_eq {t : Tree α} {u : Tree β} (h : SameShape t u) : t.depth = u.depth := by
  refine h.induction (motive := fun t u => t.depth = u.depth) fun v w ts us below => ?_
  rw [depth, depth]
  congr 1
  induction below with
  | nil => rfl
  | cons first _ ih => rw [depthAll, depthAll, first.2, ih]

/-- The values in pre-order fill a shape in one way only. -/
theorem SameShape.eq_of_values {t u : Tree α} (h : SameShape t u) (values : t.values = u.values) :
    t = u := by
  refine h.induction (motive := fun t u => t.values = u.values → t = u)
    (fun v w ts us below values => ?_) values
  rw [values_node, values_node, List.cons.injEq] at values
  obtain ⟨rfl, values⟩ := values
  congr 1
  induction below with
  | nil => rfl
  | @cons t u ts us first _ ih =>
    rw [List.flatMap_cons, List.flatMap_cons] at values
    have width : t.values.length = u.values.length := by
      rw [length_values, length_values, first.1.size_eq]
    obtain ⟨here, later⟩ := List.append_inj values width
    rw [first.2 here, ih later]

end TreeRules.Tree
