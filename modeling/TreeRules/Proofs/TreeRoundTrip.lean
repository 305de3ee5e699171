import TreeRules.Proofs.TreeNotation
set_option autoImplicit false

namespace TreeRules.Tree

open Text

/-- Every value is a token: not empty, and without blanks, parentheses and commas. -/
def OfTokens (t : Tree String) : Prop := ∀ v ∈ t.values, isToken v = true

theorem toList_render (t : Tree String) : t.render.toList = t.write id := by
  rw [render, String.toList_ofList]
  rfl

theorem ofTokens_of_parse {text : String} {t : Tree String} (h : parse text = .ok t) :
    t.OfTokens :=
  (parse_sound h).write.1

theorem OfTokens.parse_render {t : Tree String} (h : t.OfTokens) : parse t.render = .ok t := by
  refine parse_complete ?_
  have bare := derives_write h blank_nil blank_nil starts_nil stops_nil
  rwa [List.nil_append, List.append_nil, ← toList_render] at bare

theorem render_of_parse {text : String} {t : Tree String} (h : parse text = .ok t) :
    t.render = .ofList (withoutBlanks text.toList) := by
  rw [← String.toList_inj, String.toList_ofList, toList_render, (parse_sound h).write.2]

theorem OfTokens.render_inj {t u : Tree String} (ht : t.OfTokens) (hu : u.OfTokens)
    (h : t.render = u.render) : t = u := by
  have read : parse t.render = .ok u := by rw [h, hu.parse_render]
  exact Except.ok.inj (ht.parse_render.symm.trans read)

/-- Reading undoes writing on exactly the trees of tokens, and writing undoes reading up to the
blanks of the text. -/
theorem reading_inverts_writing :
    (∀ t : Tree String, parse t.render = .ok t ↔ t.OfTokens) ∧
      (∀ (text : String) (t : Tree String), parse text = .ok t →
        t.OfTokens ∧ t.render = .ofList (withoutBlanks text.toList)) ∧
      (∀ t u : Tree String, t.OfTokens → u.OfTokens → t.render = u.render → t = u) ∧
      ∀ (text : String) (t : Tree String), parse text = .ok t →
        parse (.ofList (withoutBlanks text.toList)) = .ok t := by
  refine ⟨fun t => ⟨ofTokens_of_parse, OfTokens.parse_render⟩,
    fun text t h => ⟨ofTokens_of_parse h, render_of_parse h⟩,
    fun t u ht hu => ht.render_inj hu, fun text t h => ?_⟩
  rw [← render_of_parse h]
  exact (ofTokens_of_parse h).parse_render

end TreeRules.Tree
