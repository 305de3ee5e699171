import TreeRules.Tree.Basic
set_option autoImplicit false

namespace TreeRules.Tree

variable {α : Type} [BEq α]

theorem agrees_node (v w : α) (ts us : List (Tree α)) :
    (node v ts).agrees (node w us) = (v == w && ts.length == us.length && agreesAll ts us) := rfl

mutual
theorem agrees_eq_beq (t u : Tree α) : t.agrees u = beq t u := by
  cases t with
  | node v ts =>
    cases u with
    | node w us => rw [agrees_node, beq, Bool.and_assoc, beqAll_eq ts us]
theorem beqAll_eq (ts us : List (Tree α)) :
    (ts.length == us.length && agreesAll ts us) = beqAll ts us := by
  cases ts with
  | nil => cases us <;> rfl
  | cons t ts =>
    cases us with
    | nil => rfl
    | cons u us =>
      rw [beqAll, ← agrees_eq_beq t u, ← beqAll_eq ts us, agreesAll, List.length_cons,
        List.length_cons]
      cases t.agrees u <;> simp
end

theorem agrees_iff_eq [LawfulBEq α] {t u : Tree α} : t.agrees u = true ↔ t = u := by
  rw [agrees_eq_beq]
  exact ⟨eq_of_beq, fun h => h ▸ beq_self t⟩

theorem agrees_self_iff (t : Tree α) : t.agrees t = true ↔ ∀ v ∈ t.values, (v == v) = true := by
  have siblings (ts : List (Tree α))
      (h : ∀ t ∈ ts, t.agrees t = true ↔ ∀ v ∈ t.values, (v == v) = true) :
      agreesAll ts ts = true ↔ ∀ t ∈ ts, ∀ v ∈ t.values, (v == v) = true := by
    induction ts with
    | nil => simp [agreesAll]
    | cons t ts ih =>
      rw [agreesAll, Bool.and_eq_true, h t List.mem_cons_self,
        ih fun u hu => h u (List.mem_cons_of_mem t hu), List.forall_mem_cons]
  induction t using induction with
  | node v ts ih =>
    rw [agrees_node, Bool.and_eq_true, Bool.and_eq_true, siblings ts ih, values_node,
      List.forall_mem_cons]
    simp only [beq_self_eq_true, and_true, List.mem_flatMap]
    constructor
    · rintro ⟨hv, hts⟩
      refine ⟨hv, ?_⟩
      rintro w ⟨t, ht, hw⟩
      exact hts t ht w hw
    · rintro ⟨hv, hw⟩
      exact ⟨hv, fun t ht w h => hw w ⟨t, ht, h⟩⟩

end TreeRules.Tree
