import Mathlib.Data.List.Basic
import TreeRules.Command.Basic
import TreeRules.Proofs.TokenTrees
set_option autoImplicit false

/-!
# The lines of the matching

A line names a tree and what a pattern finds in it. Names and trees may contain the punctuation of
the line, but no blanks, so the line falls apart at its spaces into the words that it was made of. The
number of words tells the outcomes apart: one word after the tree, two, or three for each variable.
-/

namespace TreeRules

open Text

namespace Pattern

variable {p : Pattern} {t : Tree String} {b : Bindings (Tree String)}

def outcome? (p : Pattern) (t : Tree String) : Option (List (String × Tree String)) :=
  (p.capture? t).map p.captured

theorem mem_captured {e : String × Tree String} :
    e ∈ p.captured b ↔ e.1 ∈ p.vars ∧ b.find? e.1 = some e.2 := by
  rw [captured, List.mem_filterMap]
  constructor
  · rintro ⟨name, hn, found⟩
    obtain ⟨u, hu, rfl⟩ := Option.map_eq_some_iff.1 found
    exact ⟨hn, hu⟩
  · rintro ⟨hn, found⟩
    exact ⟨e.1, hn, by rw [found, Option.map_some]⟩

theorem names_captured (h : p.capture? t = some b) : (p.captured b).map Prod.fst = p.vars := by
  have each : ∀ name ∈ p.vars, ((b.find? name).map fun u => (name, u)).map Prod.fst = some name := by
    intro name hn
    have bound := Bindings.mem_names.1 ((mem_names_capture h name).2 hn)
    obtain ⟨u, hu⟩ := Option.isSome_iff_exists.1 bound
    rw [hu, Option.map_some, Option.map_some]
  rw [captured, List.map_filterMap, List.filterMap_congr each]
  exact List.filterMap_some

theorem captured_eq_nil (h : p.capture? t = some b) : p.captured b = [] ↔ p.vars = [] := by
  rw [← names_captured h, List.map_eq_nil_iff]

theorem isEmpty_capture (h : p.capture? t = some b) : b.isEmpty = true ↔ p.captured b = [] := by
  have same := mem_names_capture h
  rw [captured_eq_nil h, Bindings.isEmpty, List.isEmpty_iff, ← List.map_eq_nil_iff (f := Prod.fst)]
  rw [List.eq_nil_iff_forall_not_mem, List.eq_nil_iff_forall_not_mem]
  exact forall_congr' fun name => not_congr (same name)

theorem outcome?_eq_none : p.outcome? t = none ↔ p.capture? t = none := Option.map_eq_none_iff

theorem outcome?_eq_nil :
    p.outcome? t = some [] ↔ (∃ b, p.capture? t = some b) ∧ p.vars = [] := by
  rw [outcome?, Option.map_eq_some_iff]
  constructor
  · rintro ⟨b, hb, nothing⟩
    exact ⟨⟨b, hb⟩, (captured_eq_nil hb).1 nothing⟩
  · rintro ⟨⟨b, hb⟩, nothing⟩
    exact ⟨b, hb, (captured_eq_nil hb).2 nothing⟩

/-- Each variable of the pattern comes once, in the order of the first occurrences, with the tree
that is bound to it. -/
structure Lists (p : Pattern) (b : Bindings (Tree String)) (entries : List (String × Tree String)) :
    Prop where
  every : ∀ name, name ∈ p.names ↔ ∃ u, (name, u) ∈ entries
  once : (entries.map Prod.fst).Nodup
  ordered : (entries.map Prod.fst).Pairwise p.OccursBefore
  bound : ∀ e ∈ entries, b.find? e.1 = some e.2

theorem lists_captured (h : p.capture? t = some b) : p.Lists b (p.captured b) where
  every := by
    intro name
    rw [← mem_vars, ← names_captured h, List.mem_map]
    exact ⟨fun ⟨e, he, same⟩ => ⟨e.2, same ▸ he⟩, fun ⟨u, hu⟩ => ⟨(name, u), hu, rfl⟩⟩
  once := by
    rw [names_captured h]
    exact p.vars_nodup
  ordered := by
    rw [names_captured h]
    exact p.vars_ordered
  bound := fun e he => (mem_captured.1 he).2

end Pattern

namespace Command

def LegibleEntry (e : String × Tree String) : Prop := isToken e.1 = true ∧ e.2.OfTokens

/-- What a line is made of, if all of it can be read back. -/
structure Legible (t : Tree String) (outcome : Option (List (String × Tree String))) : Prop where
  tree : t.OfTokens
  entries : ∀ es ∈ outcome, ∀ e ∈ es, LegibleEntry e

theorem legible_outcome {p : Pattern} {t : Tree String} (compiled : p.Compiled)
    (tokens : t.OfTokens) : Legible t (p.outcome? t) := by
  refine ⟨tokens, fun es hes e he => ?_⟩
  obtain ⟨b, hb, rfl⟩ := Option.map_eq_some_iff.1 hes
  obtain ⟨hn, hu⟩ := Pattern.mem_captured.1 he
  obtain ⟨q, hq⟩ := Pattern.exists_subtree_of_capture hb hu
  exact ⟨compiled.name_token (Pattern.mem_vars.1 hn), tokens.subtree hq⟩

theorem no_space_in_tree {t : Tree String} (h : t.OfTokens) : ' ' ∉ t.render.toList :=
  fun space => absurd (h.render_unbroken ' ' space) (by decide)

theorem no_space_in_name {name : String} (h : isToken name = true) : ' ' ∉ name.toList :=
  fun space => absurd ((isToken_iff.1 h).2 ' ' space) (by decide)

section Entries

variable {es es' : List (String × Tree String)}

def entryWords (e : String × Tree String) : List (List Char) :=
  [e.1.toList, ['='], e.2.render.toList ++ [',']]

theorem describeCaptured_cons (e e' : String × Tree String) (es : List (String × Tree String)) :
    describeCaptured (e :: e' :: es) =
      e.1 ++ " = " ++ e.2.render ++ ", " ++ describeCaptured (e' :: es) := by
  rw [← String.toList_inj]
  simp [describeCaptured, String.toList_intercalate]

/-- With a comma after the last entry too, all entries are alike. -/
theorem toList_describeCaptured (e : String × Tree String) (es : List (String × Tree String)) :
    (describeCaptured (e :: es) ++ ",").toList =
      [' '].intercalate ((e :: es).flatMap entryWords) := by
  induction es generalizing e with
  | nil =>
    simp [describeCaptured, entryWords, List.intercalate_cons_cons, List.intercalate_singleton]
  | cons e' es ih =>
    rw [describeCaptured_cons, String.append_assoc, String.toList_append, ih, List.flatMap_cons]
    simp [entryWords, List.intercalate_cons_cons]

theorem no_space_in_entries (h : ∀ e ∈ es, LegibleEntry e) :
    ∀ w ∈ es.flatMap entryWords, ' ' ∉ w := by
  intro w hw
  obtain ⟨e, he, hw⟩ := List.mem_flatMap.1 hw
  obtain ⟨token, tokens⟩ := h e he
  simp only [entryWords, List.mem_cons, List.not_mem_nil, or_false] at hw
  rcases hw with rfl | rfl | rfl
  · exact no_space_in_name token
  · decide
  · simpa using no_space_in_tree tokens

theorem entryWords_inj (h : ∀ e ∈ es, LegibleEntry e) (h' : ∀ e ∈ es', LegibleEntry e)
    (same : es.flatMap entryWords = es'.flatMap entryWords) : es = es' := by
  induction es generalizing es' with
  | nil =>
    cases es' with
    | nil => rfl
    | cons e' es' => simp [entryWords] at same
  | cons e es ih =>
    cases es' with
    | nil => simp [entryWords] at same
    | cons e' es' =>
      obtain ⟨first, rest⟩ := List.forall_mem_cons.1 h
      obtain ⟨first', rest'⟩ := List.forall_mem_cons.1 h'
      obtain ⟨words, later⟩ := List.append_inj same rfl
      simp only [entryWords, List.cons.injEq, List.append_cancel_right_eq, String.toList_inj]
        at words
      obtain ⟨name, _, tree, _⟩ := words
      rw [Prod.ext name (first.2.render_inj first'.2 tree), ih rest rest' later]

end Entries

def remark : Option (List (String × Tree String)) → String
  | none => ": no match"
  | some [] => ": match"
  | some (e :: es) => ": " ++ describeCaptured (e :: es)

def outcomeLine (t : Tree String) (outcome : Option (List (String × Tree String))) : String :=
  t.render ++ remark outcome

theorem outcomeLine_entries (t : Tree String) {es : List (String × Tree String)} (h : es ≠ []) :
    outcomeLine t (some es) = t.render ++ ": " ++ describeCaptured es := by
  cases es with
  | nil => exact absurd rfl h
  | cons e es => rw [outcomeLine, remark, String.append_assoc]

theorem describeMatch_eq (p : Pattern) (t : Tree String) :
    describeMatch p t = outcomeLine t (p.outcome? t) := by
  rw [describeMatch, outcomeLine, Pattern.outcome?]
  cases h : p.capture? t with
  | none => rfl
  | some b =>
    have empty := Pattern.isEmpty_capture h
    simp only [Option.map_some]
    by_cases nothing : p.captured b = []
    · rw [if_pos (empty.2 nothing), nothing, remark]
    · rw [if_neg (mt empty.1 nothing), ← outcomeLine, outcomeLine_entries t nothing]

section Lines

variable {t t' : Tree String} {outcome outcome' : Option (List (String × Tree String))}

def lineWords (t : Tree String) (outcome : Option (List (String × Tree String))) :
    List (List Char) :=
  (t.render.toList ++ [':']) ::
    match outcome with
    | none => ["no".toList, "match,".toList]
    | some [] => ["match,".toList]
    | some (e :: es) => (e :: es).flatMap entryWords

theorem toList_outcomeLine (t : Tree String) (outcome : Option (List (String × Tree String))) :
    (outcomeLine t outcome ++ ",").toList = [' '].intercalate (lineWords t outcome) := by
  match outcome with
  | none => simp [outcomeLine, remark, lineWords, List.intercalate_cons_cons]
  | some [] => simp [outcomeLine, remark, lineWords, List.intercalate_cons_cons]
  | some (e :: es) =>
    have more : (e :: es).flatMap entryWords ≠ [] := by simp [entryWords]
    rw [outcomeLine, remark, lineWords, List.intercalate_cons_of_ne_nil more,
      ← toList_describeCaptured]
    simp

theorem Legible.no_space (h : Legible t outcome) : ∀ w ∈ lineWords t outcome, ' ' ∉ w := by
  obtain ⟨tree, entries⟩ := h
  refine List.forall_mem_cons.2 ⟨?_, ?_⟩
  · simpa using no_space_in_tree tree
  · match outcome with
    | none => decide
    | some [] => decide
    | some (e :: es) => exact no_space_in_entries (entries _ rfl)

theorem Legible.words_inj (h : Legible t outcome) (h' : Legible t' outcome')
    (same : lineWords t outcome = lineWords t' outcome') : t = t' ∧ outcome = outcome' := by
  obtain ⟨first, rest⟩ := List.cons.inj same
  obtain ⟨tree, entries⟩ := h
  obtain ⟨tree', entries'⟩ := h'
  refine ⟨tree.render_inj tree' (String.toList_inj.1 (List.append_cancel_right first)), ?_⟩
  -- two outcomes of different kinds have different numbers of words
  match outcome, outcome' with
  | none, none => rfl
  | some [], some [] => rfl
  | some (e :: es), some (e' :: es') =>
    exact congrArg some (entryWords_inj (entries _ rfl) (entries' _ rfl) rest)
  | none, some [] => simp at rest
  | some [], none => simp at rest
  | none, some (e' :: es') => simp [entryWords] at rest
  | some [], some (e' :: es') => simp [entryWords] at rest
  | some (e :: es), none => simp [entryWords] at rest
  | some (e :: es), some [] => simp [entryWords] at rest

theorem Legible.line_inj (h : Legible t outcome) (h' : Legible t' outcome')
    (same : outcomeLine t outcome = outcomeLine t' outcome') : t = t' ∧ outcome = outcome' := by
  have read {t : Tree String} {outcome : Option (List (String × Tree String))}
      (h : Legible t outcome) : (outcomeLine t outcome ++ ",").toList.splitOn ' ' =
        lineWords t outcome := by
    rw [toList_outcomeLine]
    exact List.splitOn_intercalate ' ' h.no_space (List.cons_ne_nil _ _)
  refine h.words_inj h' ?_
  rw [← read h, same, read h']

end Lines

/-- The line of a tree tells whether the pattern matches it and, if there are variables, what each
of them stands for. Equal lines are about equal trees and have equal outcomes. -/
theorem matching_reported :
    (∀ (source text : String) (p : Pattern) (t : Tree String),
      Pattern.parse source = .ok p → Tree.parse text = .ok t →
      (describeMatch p t = t.render ++ ": no match" ↔ p.capture? t = none) ∧
      (describeMatch p t = t.render ++ ": match" ↔
        (∃ b, p.capture? t = some b) ∧ p.vars = []) ∧
      ∀ b, p.capture? t = some b → p.vars ≠ [] →
        ∃ entries, p.Lists b entries ∧ describeMatch p t = t.render ++ ": " ++
          ", ".intercalate (entries.map fun e => e.1 ++ " = " ++ e.2.render)) ∧
    ∀ (source text source' text' : String) (p p' : Pattern) (t t' : Tree String),
      Pattern.parse source = .ok p → Tree.parse text = .ok t →
      Pattern.parse source' = .ok p' → Tree.parse text' = .ok t' →
      describeMatch p t = describeMatch p' t' → t = t' ∧ p.outcome? t = p'.outcome? t' := by
  have legible {source text : String} {p : Pattern} {t : Tree String}
      (hp : Pattern.parse source = .ok p) (ht : Tree.parse text = .ok t) :
      Legible t (p.outcome? t) := legible_outcome ⟨source, hp⟩ (Tree.ofTokens_of_parse ht)
  refine ⟨fun source text p t hp ht => ?_, ?_⟩
  · have tokens := Tree.ofTokens_of_parse ht
    have told {outcome : Option (List (String × Tree String))} (h : Legible t outcome) :
        describeMatch p t = outcomeLine t outcome ↔ p.outcome? t = outcome := by
      rw [describeMatch_eq]
      exact ⟨fun same => ((legible hp ht).line_inj h same).2, fun same => by rw [same]⟩
    have unmatched := told (⟨tokens, by simp⟩ : Legible t none)
    have bare := told (⟨tokens, by simp⟩ : Legible t (some []))
    refine ⟨unmatched.trans Pattern.outcome?_eq_none, bare.trans Pattern.outcome?_eq_nil, ?_⟩
    intro b hb named
    refine ⟨p.captured b, Pattern.lists_captured hb, ?_⟩
    rw [describeMatch_eq, Pattern.outcome?, hb, Option.map_some,
      outcomeLine_entries t (mt (Pattern.captured_eq_nil hb).1 named), describeCaptured]
  · intro source text source' text' p p' t t' hp ht hp' ht' same
    rw [describeMatch_eq, describeMatch_eq] at same
    exact (legible hp ht).line_inj (legible hp' ht') same

theorem matching_reported_pair :
    (∃ b entries, Pattern.Lists (.node "f" [.var "y", .var "x"]) b entries ∧
      describeMatch (.node "f" [.var "y", .var "x"]) (.node "f" [.leaf "ü", .leaf "b"]) =
        (Tree.node "f" [.leaf "ü", .leaf "b"]).render ++ ": " ++
          ", ".intercalate (entries.map fun e => e.1 ++ " = " ++ e.2.render)) ∧
    describeMatch (.node "f" [.var "y", .var "x"]) (.node "f" [.leaf "ü", .leaf "b"]) ≠
      describeMatch (.var "x") (.node "f" [.leaf "ü", .leaf "b"]) := by
  have pair : Pattern.parse "f(<y>,<x>)" = .ok (.node "f" [.var "y", .var "x"]) := by
    decide +kernel
  have single : Pattern.parse "<x>" = .ok (.var "x") := by decide +kernel
  have tree : Tree.parse "f(ü,b)" = .ok (.node "f" [.leaf "ü", .leaf "b"]) := by decide +kernel
  obtain ⟨told, apart⟩ := matching_reported
  obtain ⟨entries, lists, line⟩ := (told _ _ _ _ pair tree).2.2 _ rfl (by decide)
  refine ⟨⟨_, entries, lists, line⟩, fun same => ?_⟩
  have outcomes := (apart _ _ _ _ _ _ _ _ pair tree single tree same).2
  exact absurd outcomes (by decide +kernel)

/-- Names and trees may look like the marks between them. -/
example : describeMatch (.node "f" [.var "=", .var ":"]) (.node "f" [.leaf "no:", .leaf "="]) =
    "f(no:,=): = = no:, : = =" := by rfl

end Command
end TreeRules
