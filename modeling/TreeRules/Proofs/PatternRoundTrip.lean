import TreeRules.Proofs.TokenTrees
set_option autoImplicit false

namespace TreeRules

open Text

/-- The notation of the symbol is one token, and that token stands for no other symbol. -/
def Symbol.Written : Symbol → Prop
  | literal text => isToken text = true ∧ ∀ name, name ≠ "" → text ≠ "<" ++ name ++ ">"
  | var name => isToken name = true

theorem Symbol.written_iff {s : Symbol} :
    s.Written ↔ isToken s.render = true ∧ ofToken s.render = s := by
  cases s with
  | literal text =>
    refine and_congr_right fun _ => ⟨ofToken_of_plain, fun same name => ?_⟩
    exact plain_of_literal same
  | var name =>
    constructor
    · intro token
      have nonempty : name ≠ "" := by
        rintro rfl
        simp [Written, isToken] at token
      exact ⟨isToken_bracketed token, ofToken_render_var nonempty⟩
    · rintro ⟨token, same⟩
      exact isToken_of_bracketed (name_of_ofToken same) token

namespace Pattern

variable {p q : Pattern}

theorem Compiled.parse_own (h : p.Compiled) : parse p.render = .ok p := by
  have bare := h.parse_render blank_nil blank_nil
  rwa [List.nil_append, List.append_nil, String.ofList_toList] at bare

theorem Compiled.written (h : p.Compiled) : ∀ s ∈ p.symbols.values, s.Written := by
  intro s hs
  obtain ⟨token, htoken, rfl⟩ := h.token_of_symbol hs
  rw [Symbol.written_iff, Symbol.render_ofToken]
  exact ⟨htoken, rfl⟩

theorem compiled_of_written (h : ∀ s ∈ p.symbols.values, s.Written) : p.Compiled := by
  let tokens : Tree String := p.symbols.map Symbol.render
  have same : p.symbols = tokens.map Symbol.ofToken := by
    have own : ∀ s ∈ p.symbols.values, s = Symbol.ofToken s.render := fun s hs =>
      (Symbol.written_iff.1 (h s hs)).2.symm
    rw [Tree.map_map]
    exact (Tree.map_id _).symm.trans (Tree.map_congr own)
  have plain : tokens.OfTokens := by
    intro v hv
    rw [Tree.values_map, List.mem_map] at hv
    obtain ⟨s, hs, rfl⟩ := hv
    exact (Symbol.written_iff.1 (h s hs)).1
  exact ⟨tokens.render, parse_ok.2 ⟨tokens, parse_sound plain.parse_render, same⟩⟩

theorem compiled_iff_written : p.Compiled ↔ ∀ s ∈ p.symbols.values, s.Written :=
  ⟨Compiled.written, compiled_of_written⟩

theorem Compiled.eq_of_render (hp : p.Compiled) (hq : q.Compiled) (h : p.render = q.render) :
    p = q := by
  have read : parse p.render = .ok q := by rw [h, hq.parse_own]
  exact Except.ok.inj (hp.parse_own.symm.trans read)

theorem compiled_var {name : String} (token : isToken name = true) : (var name).Compiled := by
  refine compiled_of_written fun s hs => ?_
  obtain rfl := List.mem_singleton.1 hs
  exact token

theorem Compiled.render_ne_var {text : String} {ps : List Pattern} (h : (node text ps).Compiled)
    {name : String} (token : isToken name = true) : (node text ps).render ≠ (var name).render := by
  intro same
  have equal : node text ps = var name := h.eq_of_render (compiled_var token) same
  simp at equal

/-- The notation of a pattern that was read is the text without its blanks, and it reads as the
pattern again. Two such patterns are equal if and only if their notations are. They are the patterns
whose symbols are written as tokens of their own. Each token is the name of a variable that is not
confused with a literal. -/
theorem reading_inverts_notation :
    (∀ (text : String) (p : Pattern), parse text = .ok p →
      p.render = .ofList (withoutBlanks text.toList) ∧ parse p.render = .ok p) ∧
    (∀ p q : Pattern, p.Compiled → q.Compiled → ((p == q) = true ↔ p.render = q.render)) ∧
    (∀ p : Pattern, p.Compiled ↔ ∀ s ∈ p.symbols.values, s.Written) ∧
    ∀ name, isToken name = true → (var name).Compiled ∧
      ∀ text ps, (node text ps).Compiled → (node text ps).render ≠ (var name).render := by
  refine ⟨fun text p h => ⟨render_of_parse h, Compiled.parse_own ⟨text, h⟩⟩, fun p q hp hq => ?_,
    fun p => compiled_iff_written,
    fun name token => ⟨compiled_var token, fun text ps h => h.render_ne_var token⟩⟩
  rw [beq_iff_eq]
  exact ⟨fun same => congrArg render same, hp.eq_of_render hq⟩

theorem reading_inverts_notation_spaced :
    ∃ p, parse " f( <x> ,x)" = .ok p ∧ p.render = "f(<x>,x)" ∧ parse p.render = .ok p ∧
      (node "x" []).render ≠ (var "x").render := by
  have read : parse " f( <x> ,x)" = .ok (.node "f" [.var "x", .node "x" []]) := by decide +kernel
  have literal : (node "x" []).Compiled := ⟨"x", by decide +kernel⟩
  obtain ⟨notation', _, _, names⟩ := reading_inverts_notation
  obtain ⟨written, back⟩ := notation' _ _ read
  refine ⟨_, read, written.trans ?_, back, (names "x" (by decide)).2 _ _ literal⟩
  decide +kernel

end Pattern

end TreeRules
