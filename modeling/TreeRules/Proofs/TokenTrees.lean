import TreeRules.Proofs.TreeRoundTrip
import TreeRules.Proofs.PatternNotation
import TreeRules.Proofs.Validation
set_option autoImplicit false

namespace TreeRules

open Text

namespace Tree

theorem OfTokens.subtree {t u : Tree String} (h : t.OfTokens) {q : Path}
    (hq : t.subtree? q = some u) : u.OfTokens := by
  intro v hv
  obtain ⟨r, w, hr, rfl⟩ := mem_values.1 hv
  refine h _ (mem_values.2 ⟨q ++ r, w, ?_, rfl⟩)
  rw [subtree?_append, hq, Option.bind_some, hr]

theorem OfTokens.replaceAt {new t : Tree String} (hnew : new.OfTokens) (h : t.OfTokens) {p : Path}
    (inside : (t.subtree? p).isSome = true) : (replaceAt new p t).OfTokens := by
  intro v hv
  obtain ⟨q, u, hq, rfl⟩ := mem_values.1 hv
  by_cases below : p <+: q
  · obtain ⟨r, rfl⟩ := below
    rw [subtree?_append, subtree?_replaceAt new p t inside, Option.bind_some] at hq
    exact hnew _ (mem_values.2 ⟨r, u, hq, rfl⟩)
  · have header := header_replaceAt new t below
    rw [hq, Option.map_some] at header
    obtain ⟨w, hw, same⟩ := Option.map_eq_some_iff.1 header.symm
    rw [← (Prod.mk.inj same).1]
    exact h _ (mem_values.2 ⟨q, w, hw, rfl⟩)

theorem OfTokens.render_unbroken {t : Tree String} (h : t.OfTokens) :
    ∀ c ∈ t.render.toList, isBlank c = false := by
  have same := congrArg String.toList (render_of_parse h.parse_render)
  rw [String.toList_ofList] at same
  intro c hc
  simpa using List.filter_eq_self.1 same.symm c hc

end Tree

namespace Pattern

theorem Compiled.token_of_symbol {p : Pattern} (h : p.Compiled) {s : Symbol}
    (hs : s ∈ p.symbols.values) : ∃ token, isToken token = true ∧ Symbol.ofToken token = s := by
  obtain ⟨text, htext⟩ := h
  obtain ⟨t, ht, hp⟩ := parse_ok.1 htext
  rw [hp, Tree.values_map, List.mem_map] at hs
  obtain ⟨token, htoken, rfl⟩ := hs
  exact ⟨token, ht.write.1 token htoken, rfl⟩

theorem Compiled.literal_token {p : Pattern} (h : p.Compiled) {text : String}
    (ht : text ∈ p.literals) : isToken text = true := by
  rw [literals_eq_filterMap, List.mem_filterMap] at ht
  obtain ⟨s, hs, literal⟩ := ht
  obtain ⟨token, htoken, rfl⟩ := h.token_of_symbol hs
  cases symbol : Symbol.ofToken token with
  | literal other =>
    rw [symbol] at literal
    obtain rfl := Option.some.inj literal
    rwa [← Symbol.text_of_literal symbol]
  | var name => simp [symbol, Symbol.literal?] at literal

theorem Compiled.name_token {p : Pattern} (h : p.Compiled) {name : String} (hn : name ∈ p.names) :
    isToken name = true := by
  obtain ⟨token, htoken, symbol⟩ := h.token_of_symbol (mem_names.1 hn)
  rw [← Symbol.render_ofToken token, symbol] at htoken
  exact isToken_of_bracketed (Symbol.name_of_ofToken symbol) htoken

mutual
theorem ofTokens_instantiate {p : Pattern} {b : Bindings (Tree String)} {u : Tree String}
    (literals : ∀ text ∈ p.literals, isToken text = true)
    (trees : ∀ name t, b.find? name = some t → t.OfTokens) (h : p.instantiate id b = .ok u) :
    u.OfTokens := by
  cases p with
  | var name => exact trees name u ((instantiate_var_ok id b).1 h)
  | node text ps =>
    obtain ⟨us, hus, rfl⟩ := (instantiate_node_ok id b).1 h
    obtain ⟨here, below⟩ := List.forall_mem_cons.1 literals
    rw [Tree.OfTokens, Tree.values_node]
    exact List.forall_mem_cons.2 ⟨here, ofTokens_instantiateAll below trees hus⟩
theorem ofTokens_instantiateAll {ps : List Pattern} {b : Bindings (Tree String)}
    {us : List (Tree String)} (literals : ∀ text ∈ literalsAll ps, isToken text = true)
    (trees : ∀ name t, b.find? name = some t → t.OfTokens)
    (h : instantiateAll id b ps = .ok us) : ∀ v ∈ us.flatMap Tree.values, isToken v = true := by
  cases ps with
  | nil =>
    obtain rfl := Except.ok.inj ((instantiateAll_nil id b).symm.trans h)
    exact fun v hv => absurd hv List.not_mem_nil
  | cons p ps =>
    obtain ⟨u, rest, hu, hrest, rfl⟩ := (instantiateAll_cons_ok id b).1 h
    obtain ⟨first, later⟩ := List.forall_mem_append.1 literals
    rw [List.flatMap_cons]
    exact List.forall_mem_append.2
      ⟨ofTokens_instantiate first trees hu, ofTokens_instantiateAll later trees hrest⟩
end

end Pattern

namespace Rule

/-- The application to the root, or to the first subtree that the pattern matches. -/
def rewrite? (r : Rule) (anywhere : Bool) (t : Tree String) : Option (Tree String) :=
  if anywhere then r.applyFirst t else r.apply t

theorem ofTokens_rewrite? {r : Rule} (compiled : r.template.Compiled) {anywhere : Bool}
    {t u : Tree String} (h : t.OfTokens) (hu : r.rewrite? anywhere t = some u) : u.OfTokens := by
  have made {matched new : Tree String} {b : Bindings (Tree String)} (tokens : matched.OfTokens)
      (hb : r.pattern.captureWith? Pattern.displays matched = some b)
      (hnew : r.template.instantiate id b = .ok new) : new.OfTokens := by
    refine Pattern.ofTokens_instantiate (fun text ht => compiled.literal_token ht)
      (fun name x hx => ?_) hnew
    obtain ⟨q, hq⟩ := Pattern.exists_subtree_of_capture hb hx
    exact tokens.subtree hq
  cases anywhere with
  | false =>
    obtain ⟨b, hb, hnew⟩ := applyWith_eq_some.1 hu
    exact made h hb hnew
  | true =>
    have hu : r.applyFirstWith Pattern.displays id t = some u := hu
    cases found : r.firstMatch? Pattern.displays t with
    | none =>
      rw [applyFirstWith_miss r _ found] at hu
      exact absurd hu (by simp)
    | some hit =>
      obtain ⟨p, b⟩ := hit
      obtain ⟨new, hnew, run⟩ := applyFirstWith_hit r _ found
      obtain ⟨before, matched, after, split, _, captured⟩ := (firstMatch?_eq_some r _).1 found
      have here := Tree.subtree?_of_split split
      rw [run] at hu
      obtain rfl := Option.some.inj hu
      exact (made (h.subtree here) captured hnew).replaceAt h (by rw [here]; rfl)

end Rule

end TreeRules
