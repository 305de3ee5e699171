import TreeRules.Instantiation
import TreeRules.Proofs.Occurrences
set_option autoImplicit false

namespace TreeRules

def Bindings.sizeAt {α : Type} (b : Bindings (Tree α)) (name : String) : Nat :=
  ((b.find? name).map Tree.size).getD 0

theorem Bindings.sizeAt_of_find? {α : Type} {b : Bindings (Tree α)} {name : String} {t : Tree α}
    (h : b.find? name = some t) : b.sizeAt name = t.size := by
  rw [sizeAt, h]
  rfl

namespace Pattern

variable {α : Type}

section
variable (mapper : String → α) (b : Bindings (Tree α))

def instantiateAll (ps : List Pattern) : Except Unbound (List (Tree α)) :=
  Id.run (instantiateAllM (fun text => pure (mapper text)) b ps)

theorem instantiate_var (name : String) : (var name).instantiate mapper b =
    match b.find? name with
    | some t => .ok t
    | none => .error ⟨name⟩ := rfl

theorem instantiate_node (text : String) (ps : List Pattern) :
    (node text ps).instantiate mapper b =
      match instantiateAll mapper b ps with
      | .ok ts => .ok (.node (mapper text) ts)
      | .error e => .error e := rfl

theorem instantiateAll_nil : instantiateAll mapper b [] = .ok [] := rfl

theorem instantiateAll_cons (p : Pattern) (ps : List Pattern) :
    instantiateAll mapper b (p :: ps) =
      match p.instantiate mapper b with
      | .error e => .error e
      | .ok t => match instantiateAll mapper b ps with
        | .ok ts => .ok (t :: ts)
        | .error e => .error e := rfl

theorem instantiate_var_ok {name : String} {u : Tree α} :
    (var name).instantiate mapper b = .ok u ↔ b.find? name = some u := by
  rw [instantiate_var]
  cases b.find? name <;> simp

theorem instantiate_node_ok {text : String} {ps : List Pattern} {u : Tree α} :
    (node text ps).instantiate mapper b = .ok u ↔
      ∃ us, instantiateAll mapper b ps = .ok us ∧ .node (mapper text) us = u := by
  rw [instantiate_node]
  cases instantiateAll mapper b ps <;> simp

theorem instantiateAll_cons_ok {p : Pattern} {ps : List Pattern} {us : List (Tree α)} :
    instantiateAll mapper b (p :: ps) = .ok us ↔
      ∃ u rest, p.instantiate mapper b = .ok u ∧ instantiateAll mapper b ps = .ok rest ∧
        u :: rest = us := by
  rw [instantiateAll_cons]
  cases p.instantiate mapper b with
  | error e => simp
  | ok t => cases instantiateAll mapper b ps <;> simp

end

section
variable {m : Type → Type} [Monad m] (mapper : String → m α) {b c : Bindings (Tree α)}

mutual
theorem instantiateM_congr {p : Pattern} (h : ∀ name ∈ p.names, b.find? name = c.find? name) :
    p.instantiateM mapper b = p.instantiateM mapper c := by
  cases p with
  | var name => rw [instantiateM, instantiateM, h name List.mem_cons_self]
  | node text ps =>
    have below := instantiateAllM_congr h
    simp only [instantiateM, below]
theorem instantiateAllM_congr {ps : List Pattern}
    (h : ∀ name ∈ namesAll ps, b.find? name = c.find? name) :
    instantiateAllM mapper b ps = instantiateAllM mapper c ps := by
  cases ps with
  | nil => rfl
  | cons p ps =>
    have head := instantiateM_congr fun name hn => h name (List.mem_append_left _ hn)
    have tail := instantiateAllM_congr fun name hn => h name (List.mem_append_right _ hn)
    simp only [instantiateAllM, head, tail]
end

end

theorem instantiate_congr (mapper : String → α) {b c : Bindings (Tree α)} {p : Pattern}
    (h : ∀ name ∈ p.names, b.find? name = c.find? name) :
    p.instantiate mapper b = p.instantiate mapper c :=
  congrArg Id.run (instantiateM_congr _ h)

def Bound (b : Bindings (Tree α)) (p : Pattern) : Prop :=
  ∀ name ∈ p.names, (b.find? name).isSome = true

def BoundAll (b : Bindings (Tree α)) (ps : List Pattern) : Prop :=
  ∀ name ∈ namesAll ps, (b.find? name).isSome = true

theorem bound_var {b : Bindings (Tree α)} {name : String} (h : Bound b (var name)) :
    ∃ t, b.find? name = some t :=
  Option.isSome_iff_exists.1 (h name List.mem_cons_self)

theorem boundAll_cons {b : Bindings (Tree α)} {p : Pattern} {ps : List Pattern}
    (h : BoundAll b (p :: ps)) : Bound b p ∧ BoundAll b ps :=
  ⟨fun name hn => h name (List.mem_append_left _ hn),
    fun name hn => h name (List.mem_append_right _ hn)⟩

mutual
/-- The number of nodes that an instance has: one for each literal, and those of the bound tree for
each occurrence of a variable. -/
def instanceSize (b : Bindings (Tree α)) : Pattern → Nat
  | var name => b.sizeAt name
  | node _ ps => 1 + instanceSizeAll b ps
def instanceSizeAll (b : Bindings (Tree α)) : List Pattern → Nat
  | [] => 0
  | p :: ps => instanceSize b p + instanceSizeAll b ps
end

section
variable {m : Type → Type} [Monad m] [LawfulMonad m] (mapper : String → m α)

mutual
/-- Instantiation under bindings for every variable is an action that makes a tree of the expected
size, whatever values the mapper gives. -/
theorem instantiateM_sized {b : Bindings (Tree α)} {p : Pattern} (h : Bound b p) :
    ∃ make : m {t : Tree α // t.size = p.instanceSize b},
      p.instantiateM mapper b = (do let t ← make; pure (.ok t.1)) := by
  cases p with
  | var name =>
    obtain ⟨t, ht⟩ := bound_var h
    refine ⟨pure ⟨t, ?_⟩, ?_⟩
    · rw [instanceSize, Bindings.sizeAt_of_find? ht]
    · simp [instantiateM, ht]
  | node text ps =>
    obtain ⟨make, hmake⟩ := instantiateAllM_sized h
    refine ⟨do let v ← mapper text; let ts ← make; pure ⟨.node v ts.1, ?_⟩, ?_⟩
    · rw [Tree.size_node, ts.2, instanceSize]
    · simp only [instantiateM, hmake, bind_assoc, pure_bind]
theorem instantiateAllM_sized {b : Bindings (Tree α)} {ps : List Pattern} (h : BoundAll b ps) :
    ∃ make : m {ts : List (Tree α) // Tree.sizeAll ts = instanceSizeAll b ps},
      instantiateAllM mapper b ps = (do let ts ← make; pure (.ok ts.1)) := by
  cases ps with
  | nil => exact ⟨pure ⟨[], rfl⟩, by simp [instantiateAllM]⟩
  | cons p ps =>
    obtain ⟨hp, hps⟩ := boundAll_cons h
    obtain ⟨make, hmake⟩ := instantiateM_sized hp
    obtain ⟨makeAll, hmakeAll⟩ := instantiateAllM_sized hps
    refine ⟨do let t ← make; let ts ← makeAll; pure ⟨t.1 :: ts.1, ?_⟩, ?_⟩
    · rw [Tree.sizeAll_cons, t.2, ts.2, instanceSizeAll]
    · simp only [instantiateAllM, hmake, hmakeAll, bind_assoc, pure_bind]
end

theorem instantiateM_bound {b : Bindings (Tree α)} {p : Pattern} (h : Bound b p) :
    ∃ make : m (Tree α), p.instantiateM mapper b = (do let t ← make; pure (.ok t)) := by
  obtain ⟨make, hmake⟩ := instantiateM_sized mapper h
  refine ⟨do let t ← make; pure t.1, ?_⟩
  simp only [hmake, bind_assoc, pure_bind]

end

theorem size_of_instantiateM {σ : Type} (mapper : String → StateM σ α) {b : Bindings (Tree α)}
    {p : Pattern} (h : Bound b p) {s s' : σ} {u : Tree α}
    (run : (p.instantiateM mapper b).run s = (.ok u, s')) : u.size = p.instanceSize b := by
  obtain ⟨make, hmake⟩ := instantiateM_sized mapper h
  rw [hmake] at run
  cases run
  exact (make.run s).1.2

theorem instantiate_bound (mapper : String → α) {b : Bindings (Tree α)} {p : Pattern}
    (h : Bound b p) : ∃ t, p.instantiate mapper b = .ok t := by
  obtain ⟨make, hmake⟩ := instantiateM_bound (m := Id) (fun text => pure (mapper text)) h
  exact ⟨make.run, congrArg Id.run hmake⟩

end Pattern
end TreeRules
