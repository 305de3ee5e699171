import TreeRules.Literal
import TreeRules.Proofs.InstantiationOrder
import TreeRules.Proofs.MatchingInverse
set_option autoImplicit false

namespace TreeRules

open Text

theorem LiteralTest.holds_self {test : LiteralTest} (possible : test ≠ .never)
    (tolerant : test ≠ .different) (text : String) : test.holds text text = true := by
  cases test with
  | displayed | caseless | sameLength | always => simp [holds, sameUpToCase]
  | beginning => simp [holds, List.isPrefixOf_iff_prefix]
  | never => exact absurd rfl possible
  | different => exact absurd rfl tolerant
  | integer => cases h : word? text <;> simp [holds, h]

/-- A template matches its instances, whichever of these tests is made of the literals. -/
theorem Pattern.matchesWith_instance {test : LiteralTest} (possible : test ≠ .never)
    (tolerant : test ≠ .different) {p : Pattern} {b : Bindings (Tree String)} {t : Tree String}
    (made : p.instantiate id b = .ok t) : p.matchesWith test.holds t = true := by
  obtain ⟨c, found, -⟩ := extend?_of_instantiate test.holds id
    (fun text _ => LiteralTest.holds_self possible tolerant text) made
    fun _ _ hx => absurd hx (by simp : (Bindings.empty.find? _ : Option (Tree String)) ≠ some _)
  exact Option.isSome_iff_exists.2 ⟨c, found⟩

namespace LiteralMapper

variable {α : Type} [Label α]

def values (mapper : LiteralMapper) (seen : List String) : List String → List α
  | [] => []
  | text :: texts =>
    Label.ofText (mapper.text (text :: seen) text) :: mapper.values (text :: seen) texts

theorem run_mapM (mapper : LiteralMapper) (texts seen : List String) :
    (texts.mapM (mapper.mapM (α := α))).run seen =
      (mapper.values seen texts, texts.reverse ++ seen) := by
  induction texts generalizing seen with
  | nil => rfl
  | cons text texts ih =>
    rw [List.mapM_cons, StateT.run_bind]
    change (texts.mapM mapper.mapM >>= _ : StateM (List String) _).run (text :: seen) = _
    rw [StateT.run_bind, ih, values, List.reverse_cons, List.append_assoc]
    rfl

/-- A bound template has its literals mapped in pre-order, each of them once. -/
theorem run_instantiateM (mapper : LiteralMapper) {b : Bindings (Tree α)} {p : Pattern}
    (h : p.Bound b) : ∃ u, (p.instantiateM mapper.mapM b).run [] = (.ok u, p.literals.reverse) ∧
      p.Instance b (mapper.values [] p.literals) u := by
  obtain ⟨vs, s, u, values, made, inst⟩ := Pattern.run_instantiateM_bound mapper.mapM h []
  rw [run_mapM, List.append_nil, Prod.mk.injEq] at values
  obtain ⟨rfl, rfl⟩ := values
  exact ⟨u, made, inst⟩

end LiteralMapper
end TreeRules
