import Mathlib.Data.List.Forall2
import TreeRules.Command.Basic
import TreeRules.Proofs.RuleReading
import TreeRules.Proofs.TokenTrees
set_option autoImplicit false

namespace TreeRules.Command

open Text

theorem readTrees_cons {text : String} {t : Tree String} (h : Tree.parse text = .ok t)
    (texts : List String) : readTrees (text :: texts) = (readTrees texts).map (t :: ·) := by
  rw [readTrees, h]
  cases readTrees texts <;> rfl

theorem readTrees_ok {texts : List String} {ts : List (Tree String)}
    (h : readTrees texts = .ok ts) :
    List.Forall₂ (fun text t => Tree.parse text = .ok t) texts ts := by
  induction texts generalizing ts with
  | nil =>
    obtain rfl := Except.ok.inj h
    exact .nil
  | cons text texts ih =>
    cases ht : Tree.parse text with
    | error e =>
      rw [readTrees, ht] at h
      simp at h
    | ok t =>
      rw [readTrees_cons ht] at h
      obtain ⟨rest, read, rfl⟩ := Reading.map_ok.1 h
      exact .cons ht (ih read)

theorem readTrees_refuses {texts : List String} :
    (∃ e, readTrees texts = .error e) ↔ ∃ text ∈ texts, ∃ e, Tree.parse text = .error e := by
  induction texts with
  | nil => simp [readTrees]
  | cons text texts ih =>
    rw [List.exists_mem_cons_iff]
    cases ht : Tree.parse text with
    | error e => exact ⟨fun _ => Or.inl ⟨e, rfl⟩, fun _ => ⟨.tree text e, by rw [readTrees, ht]⟩⟩
    | ok t =>
      rw [readTrees_cons ht, ← ih]
      simp only [Reading.map_error, reduceCtorEq, exists_false, false_or]

/-- The first of the texts that is no tree, and why it is none. -/
def LeftmostBad (texts : List String) (bad : String) (reason : ParseError) : Prop :=
  ∃ before after, texts = before ++ bad :: after ∧
    (∀ text ∈ before, ∃ t, Tree.parse text = .ok t) ∧ Tree.parse bad = .error reason

theorem readTrees_bad {texts : List String} {bad : String} {reason : ParseError}
    (h : LeftmostBad texts bad reason) : readTrees texts = .error (.tree bad reason) := by
  obtain ⟨before, after, rfl, read, refused⟩ := h
  induction before with
  | nil => rw [List.nil_append, readTrees, refused]
  | cons text before ih =>
    obtain ⟨⟨t, ht⟩, later⟩ := List.forall_mem_cons.1 read
    rw [List.cons_append, readTrees_cons ht, ih later]
    rfl

def rewritten? (line : String) : Option (Tree String) :=
  if line.toList.any isBlank then none else (Tree.parse line).toOption

theorem rewritten?_render {t : Tree String} (h : t.OfTokens) : rewritten? t.render = some t := by
  have unbroken : t.render.toList.any isBlank = false := by simpa using h.render_unbroken
  rw [rewritten?, unbroken, h.parse_render]
  rfl

theorem rewritten?_broken {line : String} (h : ' ' ∈ line.toList) : rewritten? line = none :=
  if_pos (List.any_eq_true.2 ⟨' ', h, by decide⟩)

/-- The line tells what the rule makes of the tree `t`, which was read from `text`. -/
structure Reports (r : Rule) (anywhere : Bool) (text : String) (t : Tree String) (line : String) :
    Prop where
  tree : Tree.parse text = .ok t
  unbroken : (∀ c ∈ line.toList, isBlank c = false) ↔ ∃ new, r.rewrite? anywhere t = some new
  rewrites : ∀ new, r.rewrite? anywhere t = some new → Tree.parse line = .ok new
  unchanged : r.rewrite? anywhere t = none →
    line = .ofList (withoutBlanks text.toList) ++ " (unchanged)"
  told : rewritten? line = r.rewrite? anywhere t

section
variable {r : Rule} {anywhere : Bool} {text : String} {t : Tree String}

theorem Reports.of_new {new : Tree String} (h : Tree.parse text = .ok t)
    (result : r.rewrite? anywhere t = some new) (tokens : new.OfTokens) :
    Reports r anywhere text t new.render where
  tree := h
  unbroken := ⟨fun _ => ⟨new, result⟩, fun _ => tokens.render_unbroken⟩
  rewrites := by
    intro other same
    rw [← Option.some.inj (result.symm.trans same)]
    exact tokens.parse_render
  unchanged := fun none => by simp [result] at none
  told := by rw [rewritten?_render tokens, result]

theorem Reports.of_unchanged (h : Tree.parse text = .ok t)
    (result : r.rewrite? anywhere t = none) :
    Reports r anywhere text t (t.render ++ " (unchanged)") := by
  have broken : ' ' ∈ (t.render ++ " (unchanged)").toList := by simp
  refine ⟨h, ⟨fun unbroken => ?_, fun ⟨new, same⟩ => ?_⟩, fun new same => ?_, fun _ => ?_, ?_⟩
  · exact absurd (unbroken ' ' broken) (by decide)
  · simp [result] at same
  · simp [result] at same
  · rw [Tree.render_of_parse h]
  · rw [rewritten?_broken broken, result]

theorem describeResult_reports (compiled : r.template.Compiled) (anywhere : Bool)
    (h : Tree.parse text = .ok t) :
    Reports r anywhere text t (describeResult r anywhere t) := by
  cases result : r.rewrite? anywhere t with
  | some new =>
    have line : describeResult r anywhere t = new.render := by
      rw [Rule.rewrite?] at result
      rw [describeResult, result]
    rw [line]
    exact .of_new h result (Rule.ofTokens_rewrite? compiled (Tree.ofTokens_of_parse h) result)
  | none =>
    have line : describeResult r anywhere t = t.render ++ " (unchanged)" := by
      rw [Rule.rewrite?] at result
      rw [describeResult, result]
    rw [line]
    exact .of_unchanged h result

end

theorem run_applying {text : String} {r : Rule} (h : Rule.parse text = .ok r)
    (trees : List String) (anywhere : Bool) :
    run (.applying text trees anywhere) =
      (readTrees trees).map fun ts => ts.map (describeResult r anywhere) := by
  rw [run, h]

/-- The rewriting fails if and only if the rule or one of the trees is refused, the rule before the
trees and these from left to right. Otherwise there is one line for each tree, in order, which tells
the result of the rule on the tree. -/
theorem rewriting_reported (text : String) (trees : List String) (anywhere : Bool) :
    ((∃ e, run (.applying text trees anywhere) = .error e) ↔
      (∃ e, Rule.parse text = .error e) ∨ ∃ tree ∈ trees, ∃ e, Tree.parse tree = .error e) ∧
    (∀ e, Rule.parse text = .error e → run (.applying text trees anywhere) = .error (.rule e)) ∧
    ∀ r, Rule.parse text = .ok r →
      (∀ bad reason, LeftmostBad trees bad reason →
        run (.applying text trees anywhere) = .error (.tree bad reason)) ∧
      ((∀ tree ∈ trees, ∃ t, Tree.parse tree = .ok t) →
        ∃ lines, run (.applying text trees anywhere) = .ok lines ∧
          List.Forall₂ (fun tree line => ∃ t, Reports r anywhere tree t line) trees lines) := by
  have rule_first (e : RuleError) (h : Rule.parse text = .error e) :
      run (.applying text trees anywhere) = .error (.rule e) := by
    rw [run, h]
  refine ⟨?_, rule_first, fun r hr => ?_⟩
  · cases hr : Rule.parse text with
    | error e => exact ⟨fun _ => Or.inl ⟨e, rfl⟩, fun _ => ⟨.rule e, rule_first e hr⟩⟩
    | ok r =>
      rw [run_applying hr, ← readTrees_refuses]
      simp only [Reading.map_error, reduceCtorEq, exists_false, false_or]
  · rw [run_applying hr]
    refine ⟨fun bad reason first => Reading.map_error.2 (readTrees_bad first), fun good => ?_⟩
    obtain ⟨left, right, reads⟩ := Rule.parse_ok.1 hr
    have compiled : r.template.Compiled := ⟨right, reads.template⟩
    cases read : readTrees trees with
    | error e =>
      obtain ⟨tree, mem, reason, refused⟩ := readTrees_refuses.1 ⟨e, read⟩
      obtain ⟨t, ht⟩ := good tree mem
      rw [refused] at ht
      simp at ht
    | ok ts =>
      refine ⟨ts.map (describeResult r anywhere), rfl, ?_⟩
      rw [List.forall₂_map_right_iff]
      exact (readTrees_ok read).imp fun tree t ht =>
        ⟨t, describeResult_reports compiled anywhere ht⟩

theorem rewriting_reported_mixed :
    (∃ new remark, run (.applying "f(<x>) -> g(<x>)" ["h(f(ü), f(b))", " a "] true) =
        .ok [new, remark] ∧
      Tree.parse new = .ok (.node "h" [.node "g" [.leaf "ü"], .node "f" [.leaf "b"]]) ∧
      remark = "a (unchanged)") ∧
    run (.applying "f(<x>) -> g(<x>)" ["a", "b)", "("] true) =
      .error (.tree "b)" (.unopened 1)) := by
  let r : Rule := ⟨.node "f" [.var "x"], .node "g" [.var "x"], by decide⟩
  have read : Rule.parse "f(<x>) -> g(<x>)" = .ok r := by decide +kernel
  have first : Tree.parse "h(f(ü), f(b))" =
      .ok (.node "h" [.node "f" [.leaf "ü"], .node "f" [.leaf "b"]]) := by decide +kernel
  have second : Tree.parse " a " = .ok (.leaf "a") := by decide +kernel
  have bad : LeftmostBad ["a", "b)", "("] "b)" (.unopened 1) :=
    ⟨["a"], ["("], rfl, fun text h => ⟨.leaf "a", by rw [List.mem_singleton.1 h]; rfl⟩, rfl⟩
  obtain ⟨_, _, lines⟩ := rewriting_reported "f(<x>) -> g(<x>)" ["h(f(ü), f(b))", " a "] true
  obtain ⟨all, run, told⟩ := (lines r read).2 (by simp [first, second])
  obtain ⟨new, _, ⟨t, new_told⟩, rest, rfl⟩ := List.forall₂_cons_left_iff.1 told
  obtain ⟨remark, _, ⟨u, remark_told⟩, none, rfl⟩ := List.forall₂_cons_left_iff.1 rest
  obtain rfl := List.forall₂_nil_left_iff.1 none
  obtain rfl := Except.ok.inj (first.symm.trans new_told.tree)
  obtain rfl := Except.ok.inj (second.symm.trans remark_told.tree)
  refine ⟨⟨new, remark, run, new_told.rewrites _ rfl, remark_told.unchanged rfl⟩, ?_⟩
  exact ((rewriting_reported "f(<x>) -> g(<x>)" ["a", "b)", "("] true).2.2 r read).1 _ _ bad

/-- The remark is a child in the notation of a tree. -/
example : (Tree.parse "a (unchanged)").toOption = some (.node "a" [.leaf "unchanged"]) := by rfl

end TreeRules.Command
