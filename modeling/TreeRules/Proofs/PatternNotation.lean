import TreeRules.Pattern.Reading
import TreeRules.Proofs.TreeNotation
set_option autoImplicit false

namespace TreeRules

open Text

namespace Symbol

theorem render_ofToken (token : String) : (ofToken token).render = token := by
  unfold ofToken
  split
  · next cs hcs =>
    split
    · next c rev hrev =>
      have body : cs = (c :: rev).reverse ++ ['>'] := by
        rw [← List.reverse_cons, ← hrev, List.reverse_reverse]
      rw [render, ← String.toList_inj, hcs, body]
      simp
    · rfl
  · rfl

theorem name_of_ofToken {token name : String} (h : ofToken token = .var name) : name ≠ "" := by
  unfold ofToken at h
  split at h
  · split at h
    · rw [← Symbol.var.inj h]
      simp
    · simp at h
  · simp at h

theorem text_of_literal {token text : String} (h : ofToken token = .literal text) :
    token = text := by
  rw [← render_ofToken token, h]
  rfl

theorem ofToken_of_plain {value : String} (h : ∀ name, name ≠ "" → value ≠ "<" ++ name ++ ">") :
    ofToken value = .literal value := by
  have whole := render_ofToken value
  cases hs : ofToken value with
  | literal text => rw [text_of_literal hs]
  | var name =>
    rw [hs] at whole
    exact absurd whole.symm (h name (name_of_ofToken hs))

theorem plain_of_literal {token text : String} (h : ofToken token = .literal text) {name : String}
    (nonempty : name ≠ "") : token ≠ "<" ++ name ++ ">" := by
  rintro rfl
  have bracketed : ofToken ("<" ++ name ++ ">") = .var name := ofToken_render_var nonempty
  rw [h] at bracketed
  simp at bracketed

end Symbol

theorem toList_bracketed (name : String) :
    ("<" ++ name ++ ">").toList = '<' :: (name.toList ++ ['>']) := by
  simp [String.toList_append]

theorem isToken_bracketed {name : String} (h : isToken name = true) :
    isToken ("<" ++ name ++ ">") = true := by
  obtain ⟨_, chars⟩ := isToken_iff.1 h
  rw [isToken_iff, toList_bracketed]
  refine ⟨List.cons_ne_nil _ _, List.forall_mem_cons.2 ⟨by decide, ?_⟩⟩
  exact List.forall_mem_append.2 ⟨chars, List.forall_mem_cons.2 ⟨by decide, nofun⟩⟩

theorem isToken_of_bracketed {name : String} (nonempty : name ≠ "")
    (h : isToken ("<" ++ name ++ ">") = true) : isToken name = true := by
  rw [isToken_iff, toList_bracketed] at h
  refine isToken_iff.2 ⟨?_, fun c hc => h.2 c (by simp [hc])⟩
  rwa [ne_eq, String.toList_eq_nil_iff]

namespace Pattern

mutual
theorem symbols_of_ofSymbols {s : Tree Symbol} {p : Pattern} (h : ofSymbols s = .ok p) :
    p.symbols = s := by
  cases s with
  | node symbol ss =>
    cases symbol with
    | var name =>
      cases ss with
      | nil =>
        rw [ofSymbols] at h
        rw [← Except.ok.inj h]
        rfl
      | cons s ss => simp [ofSymbols] at h
    | literal text =>
      rw [ofSymbols] at h
      cases hss : ofSymbolsFrom 0 ss with
      | error e => simp [hss] at h
      | ok ps =>
        rw [hss] at h
        rw [← Except.ok.inj h, symbols, symbolsAll_of_ofSymbolsFrom hss]
theorem symbolsAll_of_ofSymbolsFrom {i : Nat} {ss : List (Tree Symbol)} {ps : List Pattern}
    (h : ofSymbolsFrom i ss = .ok ps) : symbolsAll ps = ss := by
  cases ss with
  | nil =>
    rw [ofSymbolsFrom] at h
    rw [← Except.ok.inj h, symbolsAll]
  | cons s ss =>
    rw [ofSymbolsFrom] at h
    cases hs : ofSymbols s with
    | error e => simp [hs] at h
    | ok p =>
      cases hss : ofSymbolsFrom (i + 1) ss with
      | error e => simp [hs, hss] at h
      | ok qs =>
        simp only [hs, hss] at h
        rw [← Except.ok.inj h, symbolsAll, symbols_of_ofSymbols hs, symbolsAll_of_ofSymbolsFrom hss]
end

mutual
theorem ofSymbols_symbols (p : Pattern) : ofSymbols p.symbols = .ok p := by
  cases p with
  | var name => rfl
  | node text ps => rw [symbols, ofSymbols, ofSymbolsFrom_symbolsAll ps 0]
theorem ofSymbolsFrom_symbolsAll (ps : List Pattern) (i : Nat) :
    ofSymbolsFrom i (symbolsAll ps) = .ok ps := by
  cases ps with
  | nil => rfl
  | cons p ps =>
    rw [symbolsAll, ofSymbolsFrom, ofSymbols_symbols p, ofSymbolsFrom_symbolsAll ps (i + 1)]
end

theorem ofSymbols_ok {s : Tree Symbol} {p : Pattern} : ofSymbols s = .ok p ↔ p.symbols = s :=
  ⟨symbols_of_ofSymbols, fun h => h ▸ ofSymbols_symbols p⟩

theorem parse_ok {text : String} {p : Pattern} :
    parse text = .ok p ↔
      ∃ t, Derives [] text.toList [] t ∧ p.symbols = t.map Symbol.ofToken := by
  rw [parse]
  constructor
  · intro h
    cases ht : Tree.parse text with
    | error e => simp [ht] at h
    | ok t =>
      rw [ht] at h
      exact ⟨t, parse_sound ht, ofSymbols_ok.1 h⟩
  · rintro ⟨t, ht, hp⟩
    rw [parse_complete ht]
    exact ofSymbols_ok.2 hp

/-- The pattern is read from some text, so its literals and variables are tokens. -/
def Compiled (p : Pattern) : Prop := ∃ text, parse text = .ok p

theorem toList_render {p : Pattern} {t : Tree String} (h : p.symbols = t.map Symbol.ofToken) :
    p.render.toList = t.write id := by
  have plain : toString ∘ Symbol.ofToken = id := funext Symbol.render_ofToken
  rw [render, Tree.render, String.toList_ofList, h, Tree.write_map, plain]

theorem render_of_parse {text : String} {p : Pattern} (h : parse text = .ok p) :
    p.render = .ofList (withoutBlanks text.toList) := by
  obtain ⟨t, ht, hp⟩ := parse_ok.1 h
  rw [ht.write.2, ← toList_render hp, String.ofList_toList]

theorem Compiled.parse_render {p : Pattern} (h : p.Compiled) {pre post : List Char}
    (hpre : Blank pre) (hpost : Blank post) :
    parse (.ofList (pre ++ p.render.toList ++ post)) = .ok p := by
  obtain ⟨text, htext⟩ := h
  obtain ⟨t, ht, hp⟩ := parse_ok.1 htext
  refine parse_ok.2 ⟨t, ?_, hp⟩
  rw [String.toList_ofList, toList_render hp]
  exact Tree.derives_write ht.write.1 hpre hpost starts_nil stops_nil

end Pattern
end TreeRules
