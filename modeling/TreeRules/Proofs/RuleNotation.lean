import TreeRules.Proofs.RuleReading
set_option autoImplicit false

namespace TreeRules

open Text ArrowSearch

theorem blank_space : Blank [' '] := by
  intro c hc
  rw [List.mem_singleton.1 hc]
  decide

namespace Rule

def renderLeft (r : Rule) : String := .ofList ([] ++ r.pattern.render.toList ++ [' '])

def renderRight (r : Rule) : String := .ofList ([' '] ++ r.template.render.toList ++ [])

theorem render_split (r : Rule) : r.render = r.renderLeft ++ "->" ++ r.renderRight := by
  rw [← String.toList_inj]
  simp [render, renderLeft, renderRight]

variable {r : Rule}

theorem render_outer (hp : Pattern.parse r.renderLeft = .ok r.pattern) :
    OuterArrow r.render.toList r.renderLeft.toList r.renderRight.toList := by
  have starts : Starts r.renderLeft.toList := by
    rw [renderLeft, String.toList_ofList]
    exact starts_concat _ (by decide)
  have stops : Stops r.renderRight.toList := by
    rw [renderRight, String.toList_ofList]
    exact stops_cons (by decide) _
  rw [render_split, toList_split]
  exact (outerArrow_append starts stops (Pattern.depthOf_of_parse hp)).2 (Or.inl ⟨rfl, rfl⟩)

theorem parse_render (hp : r.pattern.Compiled) (hq : r.template.Compiled)
    (hroot : ¬ r.pattern.ArrowRooted) (hroot' : ¬ r.template.ArrowRooted) :
    parse r.render = .ok r := by
  have left := hp.parse_render blank_nil blank_space
  have right := hq.parse_render blank_space blank_nil
  have arrow := render_outer left
  refine parse_ok.2 ⟨r.renderLeft, r.renderRight, r.render_split, arrow.run.starts,
    arrow.run.stops, left, right, hroot, hroot', fun name hn => ?_⟩
  exact Pattern.mem_vars.1 (r.bound name (Pattern.mem_vars.2 hn))

theorem parse_render_form (hp : r.pattern.Compiled) (hq : r.template.Compiled)
    (hroot : r.pattern.ArrowRooted ∨ r.template.ArrowRooted) : parse r.render = .error .form := by
  have left := hp.parse_render blank_nil blank_space
  have right := hq.parse_render blank_space blank_nil
  refine parse_form ?_
  rintro ⟨l, r', sole⟩
  -- the one arrow of the notation would be that between its sides
  obtain ⟨hl, hr⟩ := sole.sole _ _ (render_outer left)
  rw [← String.toList_inj.1 hl, ← String.toList_inj.1 hr] at sole
  obtain ⟨_, _, _, plain, plain'⟩ := (soleArrow_iff left right).1 sole
  exact hroot.elim plain plain'

/-- The notation of a rule between compiled patterns reads as the rule, or is refused if a root is an
arrow. A rule that was read has no such root, and its notation is the text without the blanks of its
sides. -/
theorem render_reads_back :
    (∀ (p q : Pattern) (r : Rule), p.Compiled → q.Compiled → ofPatterns p q = .ok r →
      (¬ p.ArrowRooted ∧ ¬ q.ArrowRooted → parse r.render = .ok r) ∧
      (p.ArrowRooted ∨ q.ArrowRooted → parse r.render = .error .form)) ∧
    ∀ (text : String) (r : Rule), parse text = .ok r →
      parse r.render = .ok r ∧
      ∃ left right, ReadsAs text left right r.pattern r.template ∧
        r.render = .ofList (withoutBlanks left.toList) ++ " -> " ++
          .ofList (withoutBlanks right.toList) := by
  constructor
  · intro p q r hp hq hr
    obtain ⟨rfl, rfl⟩ := ofPatterns_ok.1 hr
    exact ⟨fun ⟨root, root'⟩ => parse_render hp hq root root', parse_render_form hp hq⟩
  · intro text r h
    obtain ⟨left, right, reads⟩ := parse_ok.1 h
    refine ⟨?_, left, right, reads, ?_⟩
    · exact parse_render ⟨left, reads.pattern⟩ ⟨right, reads.template⟩ reads.pattern_root
        reads.template_root
    · rw [render, Pattern.render_of_parse reads.pattern, Pattern.render_of_parse reads.template]

theorem render_reads_back_nested :
    ∃ r, parse "\tf( <x>, ->(<y>))-> g(<y> )" = .ok r ∧ parse r.render = .ok r ∧
      ∃ s, ofPatterns (.node "->" [.var "x"]) (.var "x") = .ok s ∧
        parse s.render = .error .form := by
  let r : Rule := ⟨.node "f" [.var "x", .node "->" [.var "y"]], .node "g" [.var "y"], by decide⟩
  let s : Rule := ⟨.node "->" [.var "x"], .var "x", by decide⟩
  have read : parse "\tf( <x>, ->(<y>))-> g(<y> )" = .ok r := by decide +kernel
  have left : Pattern.Compiled (.node "->" [.var "x"]) := ⟨"->(<x>)", by decide +kernel⟩
  have right : Pattern.Compiled (.var "x") := ⟨"<x>", by decide +kernel⟩
  have made : ofPatterns (.node "->" [.var "x"]) (.var "x") = .ok s := ofPatterns_ok.2 ⟨rfl, rfl⟩
  have root : Pattern.ArrowRooted (.node "->" [.var "x"]) := ⟨_, rfl⟩
  exact ⟨r, read, (render_reads_back.2 _ r read).1, s, made,
    (render_reads_back.1 _ _ s left right made).2 (Or.inl root)⟩

end Rule

end TreeRules
