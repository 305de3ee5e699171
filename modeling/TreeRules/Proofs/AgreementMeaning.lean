import TreeRules.Proofs.Agreement
import TreeRules.Proofs.Shape
set_option autoImplicit false

namespace TreeRules.Tree

variable {α : Type} [BEq α]

theorem agreesAll_iff {ts us : List (Tree α)} :
    ts.length = us.length ∧ agreesAll ts us = true ↔
      List.Forall₂ (fun t u => t.agrees u = true) ts us := by
  induction ts generalizing us with
  | nil => cases us <;> simp [agreesAll]
  | cons t ts ih =>
    cases us with
    | nil => simp
    | cons u us =>
      rw [List.forall₂_cons, ← ih, List.length_cons, List.length_cons, Nat.succ_inj, agreesAll,
        Bool.and_eq_true, and_left_comm]

theorem agrees_node_iff {v w : α} {ts us : List (Tree α)} :
    (node v ts).agrees (node w us) = true ↔
      (v == w) = true ∧ List.Forall₂ (fun t u => t.agrees u = true) ts us := by
  rw [agrees_node, ← agreesAll_iff]
  simp [and_assoc]

theorem agrees_leaf (v w : α) : (leaf v).agrees (leaf w) = (v == w) := by
  rw [leaf, leaf, agrees_node]
  simp [agreesAll]

theorem agrees_iff_pointwise {t u : Tree α} :
    t.agrees u = true ↔ Pointwise (fun v w => (v == w) = true) t u := by
  induction t using induction generalizing u with
  | node v ts ih =>
    obtain ⟨w, us⟩ := u
    rw [agrees_node_iff, pointwise_node]
    refine and_congr_right fun _ => ?_
    induction ts generalizing us with
    | nil => cases us <;> simp
    | cons t ts ihs =>
      cases us with
      | nil => simp
      | cons u us =>
        rw [List.forall₂_cons, List.forall₂_cons, ih t List.mem_cons_self,
          ihs fun x hx => ih x (List.mem_cons_of_mem t hx)]

theorem copy_agrees_iff (clone : α → α) (t : Tree α) :
    (t.copy clone).agrees t = true ↔ ∀ v ∈ t.values, (clone v == v) = true := by
  rw [copy_eq_map, agrees_iff_pointwise]
  have value_map (x : Tree α) : (x.map clone).value = clone x.value := by cases x; simp
  constructor
  · intro h v hv
    obtain ⟨p, x, hx, rfl⟩ := mem_values.1 hv
    have copied : (t.map clone).subtree? p = some (x.map clone) := by rw [subtree?_map, hx]; rfl
    have equal := h.values p _ x copied hx
    rwa [value_map] at equal
  · intro h
    refine ⟨fun p => by rw [subtree?_map, Option.isSome_map], fun p x y hx hy => ?_⟩
    rw [subtree?_map, hy, Option.map_some, Option.some.injEq] at hx
    rw [← hx, value_map]
    exact h y.value (mem_values.2 ⟨p, y, hy, rfl⟩)

/-- Agreement compares the shapes, and the values position by position. It is the equality of trees
that goes with the test, it is symmetric or transitive if and only if the test is, and a tree agrees
with a faithful copy if and only if the test accepts each value of the tree with itself. -/
theorem agreement_is_pointwise :
    (∀ t u : Tree α, (t.agrees u = true ↔ SameShape t u ∧ ∀ p x y, t.subtree? p = some x →
        u.subtree? p = some y → (x.value == y.value) = true) ∧ t.agrees u = (t == u)) ∧
    ((∀ v w : α, (v == w) = true → (w == v) = true) ↔
      ∀ t u : Tree α, t.agrees u = true → u.agrees t = true) ∧
    ((∀ v w x : α, (v == w) = true → (w == x) = true → (v == x) = true) ↔
      ∀ t u x : Tree α, t.agrees u = true → u.agrees x = true → t.agrees x = true) ∧
    (∀ (clone : α → α) (t : Tree α), (t.copy clone).agrees t = true ↔
      ∀ v ∈ t.values, (clone v == v) = true) ∧
    ∀ t : Tree α, (t.copy id).agrees t = true ↔ ∀ v ∈ t.values, (v == v) = true := by
  refine ⟨fun t u => ⟨?_, agrees_eq_beq t u⟩, ⟨?_, ?_⟩, ⟨?_, ?_⟩, copy_agrees_iff,
    copy_agrees_iff id⟩
  · rw [agrees_iff_pointwise]
    exact ⟨fun h => ⟨h.shape, h.values⟩, fun h => ⟨h.1, h.2⟩⟩
  · intro symmetric t u h
    exact agrees_iff_pointwise.2 ((agrees_iff_pointwise.1 h).flip symmetric)
  · intro symmetric v w h
    rw [← agrees_leaf] at h ⊢
    exact symmetric _ _ h
  · intro transitive t u x h h'
    exact agrees_iff_pointwise.2
      ((agrees_iff_pointwise.1 h).comp (agrees_iff_pointwise.1 h') transitive)
  · intro transitive v w x h h'
    rw [← agrees_leaf] at h h' ⊢
    exact transitive _ _ _ h h'

end TreeRules.Tree
