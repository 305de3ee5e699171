import Mathlib.Logic.Equiv.Defs
import Mathlib.Tactic.Choose
import TreeRules.Proofs.MatchingInverse
import TreeRules.Proofs.Validation
set_option autoImplicit false

namespace TreeRules

namespace Rule

open Pattern (displays Matched)

theorem apply_iff_instances {r : Rule} {t u : Tree String} :
    r.apply t = some u ↔
      ∃ b, r.pattern.instantiate id b = .ok t ∧ r.template.instantiate id b = .ok u := by
  obtain ⟨exists_iff, unique⟩ := r.pattern.inverts_texts t
  rw [apply, applyWith_eq_some]
  constructor
  · rintro ⟨b, hb, made⟩
    exact ⟨b, (unique b hb).1, made⟩
  · rintro ⟨c, hc, made⟩
    obtain ⟨b, hb⟩ := Option.isSome_iff_exists.1 (exists_iff.2 ⟨c, hc⟩)
    refine ⟨b, hb, ?_⟩
    -- the match may bind more or other names than `c`, but not those of the template
    rw [← made]
    refine Pattern.instantiate_congr id fun name hn => ?_
    exact (unique b hb).2 c hc name (r.bound name (Pattern.mem_vars.2 hn))

theorem apply_isSome {r : Rule} {t : Tree String} :
    (r.apply t).isSome = true ↔ r.pattern.matchesWith displays t = true := by
  constructor
  · intro h
    obtain ⟨u, hu⟩ := Option.isSome_iff_exists.1 h
    obtain ⟨b, hb, _⟩ := apply_iff_instances.1 hu
    exact Pattern.matches_iff_instance.2 ⟨b, hb⟩
  · intro h
    obtain ⟨b, hb⟩ := Option.isSome_iff_exists.1 h
    obtain ⟨u, hu⟩ := Pattern.instantiate_bound id (r.template_bound displays hb)
    exact Option.isSome_iff_exists.2 ⟨u, applyWith_eq_some.2 ⟨b, hb, hu⟩⟩

structure Reverses (s r : Rule) : Prop where
  pattern : s.pattern = r.template
  template : s.template = r.pattern

theorem Reverses.apply_iff {r s : Rule} (h : s.Reverses r) {t u : Tree String} :
    r.apply t = some u ↔ s.apply u = some t := by
  rw [apply_iff_instances, apply_iff_instances, h.pattern, h.template]
  exact exists_congr fun b => and_comm

theorem apply_matched (r : Rule) (t : Matched r.pattern) :
    ∃ u : Matched r.template, r.apply t.1 = some u.1 := by
  obtain ⟨u, hu⟩ := Option.isSome_iff_exists.1 (apply_isSome.2 t.2)
  obtain ⟨b, _, made⟩ := apply_iff_instances.1 hu
  exact ⟨⟨u, Pattern.matches_iff_instance.2 ⟨b, made⟩⟩, hu⟩

theorem Reverses.bijection {r s : Rule} (h : s.Reverses r) :
    ∃ e : Matched r.pattern ≃ Matched r.template,
      (∀ t, r.apply t.1 = some (e t).1) ∧ ∀ u, s.apply u.1 = some (e.symm u).1 := by
  choose rewritten hr using r.apply_matched
  have backward : ∀ u : Matched r.template, ∃ t : Matched r.pattern, s.apply u.1 = some t.1 := by
    rw [← h.pattern, ← h.template]
    exact s.apply_matched
  choose restored hs using backward
  refine ⟨⟨rewritten, restored, fun t => ?_, fun u => ?_⟩, hr, hs⟩
  · have back : s.apply (rewritten t).1 = some t.1 := h.apply_iff.1 (hr t)
    exact Subtype.ext (Option.some.inj ((hs (rewritten t)).symm.trans back))
  · have forth : r.apply (restored u).1 = some u.1 := h.apply_iff.2 (hs u)
    exact Subtype.ext (Option.some.inj ((hr (restored u)).symm.trans forth))

/-- Two patterns with the same variables make a rule in either direction. Each rule undoes the
other, so it is a bijection from the trees of its pattern onto those of its template. -/
theorem reversal_undoes (p q : Pattern) (same : ∀ name, name ∈ p.vars ↔ name ∈ q.vars) :
    ∃ r s, ofPatterns p q = .ok r ∧ ofPatterns q p = .ok s ∧
      (∀ t u, r.apply t = some u ↔ s.apply u = some t) ∧
      (∀ t, (r.apply t).isSome = true ↔ p.matchesWith displays t = true) ∧
      ∃ e : Matched p ≃ Matched q,
        (∀ t, r.apply t.1 = some (e t).1) ∧ ∀ u, s.apply u.1 = some (e.symm u).1 := by
  let r : Rule := ⟨p, q, fun name => (same name).2⟩
  let s : Rule := ⟨q, p, fun name => (same name).1⟩
  have reverses : s.Reverses r := ⟨rfl, rfl⟩
  exact ⟨r, s, ofPatterns_ok.2 ⟨rfl, rfl⟩, ofPatterns_ok.2 ⟨rfl, rfl⟩,
    fun _ _ => reverses.apply_iff, fun _ => apply_isSome, reverses.bijection⟩

/-- Both variables occur more often on one side than on the other, and in another order. -/
theorem reversal_undoes_repeated :
    ∃ r s, ofPatterns (.node "f" [.var "x", .var "y", .var "x"])
          (.node "g" [.var "y", .node "h" [.var "y", .var "x"]]) = .ok r ∧
      ofPatterns (.node "g" [.var "y", .node "h" [.var "y", .var "x"]])
          (.node "f" [.var "x", .var "y", .var "x"]) = .ok s ∧
      r.apply (.node "f" [.leaf "a", .leaf "b c", .leaf "a"]) =
        some (.node "g" [.leaf "b c", .node "h" [.leaf "b c", .leaf "a"]]) ∧
      s.apply (.node "g" [.leaf "b c", .node "h" [.leaf "b c", .leaf "a"]]) =
        some (.node "f" [.leaf "a", .leaf "b c", .leaf "a"]) := by
  have vars : Pattern.vars (.node "f" [.var "x", .var "y", .var "x"]) = ["x", "y"] := by decide
  have vars' :
      Pattern.vars (.node "g" [.var "y", .node "h" [.var "y", .var "x"]]) = ["y", "x"] := by decide
  obtain ⟨r, s, hr, hs, undo, _⟩ := reversal_undoes (.node "f" [.var "x", .var "y", .var "x"])
    (.node "g" [.var "y", .node "h" [.var "y", .var "x"]])
    fun name => by simp [vars, vars', or_comm]
  have forth : r.apply (.node "f" [.leaf "a", .leaf "b c", .leaf "a"]) =
      some (.node "g" [.leaf "b c", .node "h" [.leaf "b c", .leaf "a"]]) := by
    refine apply_iff_instances.2 ⟨⟨[("x", .leaf "a"), ("y", .leaf "b c")]⟩, ?_⟩
    obtain ⟨hp, hq⟩ := ofPatterns_ok.1 hr
    rw [hp, hq]
    exact ⟨rfl, rfl⟩
  exact ⟨r, s, hr, hs, forth, (undo _ _).1 forth⟩

end Rule
end TreeRules
