import TreeRules.Proofs.Occurrences
import TreeRules.Proofs.PatternNotation
set_option autoImplicit false

namespace TreeRules

/-- The symbol that a token stands for. -/
inductive Symbol.Denoted : String → Symbol → Prop
  | var {name : String} (nonempty : name ≠ "") : Denoted ("<" ++ name ++ ">") (.var name)
  | literal {token : String} (plain : ∀ name, name ≠ "" → token ≠ "<" ++ name ++ ">") :
      Denoted token (.literal token)

theorem Symbol.ofToken_iff {token : String} {s : Symbol} : ofToken token = s ↔ Denoted token s := by
  constructor
  · rintro rfl
    cases h : ofToken token with
    | var name =>
      rw [← render_ofToken token, h]
      exact .var (name_of_ofToken h)
    | literal text =>
      obtain rfl := text_of_literal h
      exact .literal fun name nonempty => plain_of_literal h nonempty
  · rintro (nonempty | plain)
    · exact ofToken_render_var nonempty
    · exact ofToken_of_plain plain

example : ["<<x>>", "<->", "<>", "<x"].map Symbol.ofToken =
    [.var "<x>", .var "-", .literal "<>", .literal "<x"] := by decide

namespace Pattern

def misplaced? : Path × Tree Symbol → Option PatternError
  | (q, .node (.var name) (_ :: _)) => some (.varWithChildren name q)
  | _ => none

theorem misplaced?_below (i : Nat) (n : Path × Tree Symbol) :
    misplaced? (i :: n.1, n.2) = (misplaced? n).map (PatternError.below i) := by
  obtain ⟨q, ⟨symbol, ss⟩⟩ := n
  cases symbol <;> cases ss <;> rfl

theorem misplaced?_eq_some {n : Path × Tree Symbol} {e : PatternError} :
    misplaced? n = some e ↔
      ∃ name, n.2.value = .var name ∧ n.2.children ≠ [] ∧ e = .varWithChildren name n.1 := by
  obtain ⟨q, ⟨symbol, ss⟩⟩ := n
  cases symbol <;> cases ss <;> simp [misplaced?, eq_comm]

def errorOf? {β : Type} : Except PatternError β → Option PatternError
  | .ok _ => none
  | .error e => some e

theorem errorOf?_eq_none {β : Type} {made : Except PatternError β} :
    errorOf? made = none ↔ ∃ x, made = .ok x := by
  cases made <;> simp [errorOf?]

theorem errorOf?_eq_some {β : Type} {made : Except PatternError β} {e : PatternError} :
    errorOf? made = some e ↔ made = .error e := by
  cases made <;> simp [errorOf?]

mutual
theorem errorOf?_ofSymbols (s : Tree Symbol) :
    errorOf? (ofSymbols s) = s.nodes.findSome? misplaced? := by
  cases s with
  | node symbol ss =>
    rw [Tree.nodes_node, List.findSome?_cons]
    cases symbol with
    | var name => cases ss <;> rfl
    | literal text =>
      have passed : misplaced? ([], .node (.literal text) ss) = none := rfl
      rw [passed, ← errorOf?_ofSymbolsFrom 0 ss, ofSymbols]
      cases ofSymbolsFrom 0 ss <;> rfl
theorem errorOf?_ofSymbolsFrom (i : Nat) (ss : List (Tree Symbol)) :
    errorOf? (ofSymbolsFrom i ss) = (Tree.nodesFrom i ss).findSome? misplaced? := by
  cases ss with
  | nil => rfl
  | cons s ss =>
    have below : (s.nodes.map fun n => (i :: n.1, n.2)).findSome? misplaced? =
        (errorOf? (ofSymbols s)).map (PatternError.below i) := by
      rw [errorOf?_ofSymbols s, List.map_findSome?, List.findSome?_map]
      exact congrArg (s.nodes.findSome? ·) (funext (misplaced?_below i))
    rw [Tree.nodesFrom_cons, List.findSome?_append, below, ← errorOf?_ofSymbolsFrom (i + 1) ss,
      ofSymbolsFrom]
    cases ofSymbols s with
    | error e => rfl
    | ok p => cases ofSymbolsFrom (i + 1) ss <;> rfl
end

def Misplaced (name : String) (t : Tree String) : Prop :=
  Symbol.Denoted t.value (.var name) ∧ t.children ≠ []

/-- There is a misplaced variable at the path, and no position before it in pre-order has one. -/
structure FirstMisplaced (t : Tree String) (name : String) (path : Path) : Prop where
  here : ∃ u, t.subtree? path = some u ∧ Misplaced name u
  earlier : ∀ q u, t.subtree? q = some u → q < path → ∀ other, ¬ Misplaced other u

theorem misplaced?_map {q : Path} {u : Tree String} {e : PatternError} :
    misplaced? (q, u.map Symbol.ofToken) = some e ↔
      ∃ name, Misplaced name u ∧ e = .varWithChildren name q := by
  cases u with
  | node token ts =>
    rw [misplaced?_eq_some, Tree.map_node]
    simp only [Misplaced, Tree.value_node, Tree.children_node, Symbol.ofToken_iff, ne_eq,
      List.map_eq_nil_iff, and_assoc]

theorem misplaced?_map_eq_none {q : Path} {u : Tree String} :
    misplaced? (q, u.map Symbol.ofToken) = none ↔ ∀ name, ¬ Misplaced name u := by
  simp only [Option.eq_none_iff_forall_ne_some, ne_eq, misplaced?_map]
  constructor
  · exact fun h name wrong => h (.varWithChildren name q) ⟨name, wrong, rfl⟩
  · rintro h e ⟨name, wrong, _⟩
    exact h name wrong

section

variable {text : String} {t : Tree String}

theorem parse_malformed {e : ParseError} (h : Tree.parse text = .error e) :
    parse text = .error (.malformed e) := by
  rw [parse, h]

theorem symbols_of_parse (ht : Tree.parse text = .ok t) {p : Pattern} (h : parse text = .ok p) :
    p.symbols = t.map Symbol.ofToken := by
  rw [parse, ht] at h
  exact ofSymbols_ok.1 h

theorem errorOf?_parse (ht : Tree.parse text = .ok t) :
    errorOf? (parse text) =
      t.nodes.findSome? fun n => misplaced? (n.1, n.2.map Symbol.ofToken) := by
  rw [parse, ht]
  change errorOf? (ofSymbols (t.map Symbol.ofToken)) = _
  rw [errorOf?_ofSymbols, Tree.nodes_map, List.findSome?_map]
  rfl

theorem parse_ok_iff (ht : Tree.parse text = .ok t) :
    (∃ p, parse text = .ok p) ↔ ∀ q u, t.subtree? q = some u → ∀ name, ¬ Misplaced name u := by
  rw [← errorOf?_eq_none, errorOf?_parse ht, List.findSome?_eq_none_iff]
  constructor
  · exact fun h q u hq => misplaced?_map_eq_none.1 (h (q, u) (Tree.mem_nodes.2 hq))
  · exact fun h n hn => misplaced?_map_eq_none.2 (h n.1 n.2 (Tree.mem_nodes.1 hn))

theorem parse_error_iff (ht : Tree.parse text = .ok t) {e : PatternError} :
    parse text = .error e ↔
      ∃ name path, FirstMisplaced t name path ∧ e = .varWithChildren name path := by
  rw [← errorOf?_eq_some, errorOf?_parse ht]
  constructor
  · intro h
    obtain ⟨before, ⟨path, u⟩, after, split, hit, miss⟩ := List.findSome?_eq_some_iff.1 h
    obtain ⟨name, misplaced, rfl⟩ := misplaced?_map.1 hit
    refine ⟨name, path, ⟨⟨u, Tree.subtree?_of_split split, misplaced⟩, fun q w hq lt => ?_⟩, rfl⟩
    have early : (q, w) ∈ before := (Tree.mem_before_iff split (Tree.mem_nodes.2 hq)).2 lt
    exact misplaced?_map_eq_none.1 (miss (q, w) early)
  · rintro ⟨name, path, first, rfl⟩
    obtain ⟨u, here, misplaced⟩ := first.here
    obtain ⟨before, after, split⟩ := List.append_of_mem (Tree.mem_nodes.2 here)
    refine List.findSome?_eq_some_iff.2 ⟨before, (path, u), after, split,
      misplaced?_map.2 ⟨name, misplaced, rfl⟩, fun n hn => misplaced?_map_eq_none.2 ?_⟩
    have listed : n ∈ t.nodes := split ▸ List.mem_append_left _ hn
    have early : n.1 < path := (Tree.mem_before_iff split listed).1 hn
    exact first.earlier n.1 n.2 (Tree.mem_nodes.1 listed) early

end

/-- A text is a pattern if and only if it is a tree in which no variable has children, and the
pattern is that tree with each token classified. Otherwise the error is that of the tree, or it names
the first variable in pre-order that has children, and the path to it. So the variables of a pattern
are leaves. -/
theorem reading_reports_first_misplaced (text : String) :
    (∀ e, Tree.parse text = .error e → parse text = .error (.malformed e)) ∧
    (∀ t, Tree.parse text = .ok t →
      ((∃ p, parse text = .ok p) ↔ ∀ q u, t.subtree? q = some u → ∀ name, ¬ Misplaced name u) ∧
      (∀ p, parse text = .ok p → p.symbols = t.map Symbol.ofToken) ∧
      ((∃ q u name, t.subtree? q = some u ∧ Misplaced name u) →
        ∃ name path, parse text = .error (.varWithChildren name path) ∧
          FirstMisplaced t name path)) ∧
    (∀ token s, Symbol.ofToken token = s ↔ Symbol.Denoted token s) ∧
    ∀ p, parse text = .ok p → ∀ q name ss,
      p.symbols.subtree? q = some (.node (.var name) ss) → ss = [] := by
  refine ⟨fun e => parse_malformed, fun t ht => ⟨parse_ok_iff ht, fun p => symbols_of_parse ht, ?_⟩,
    fun token s => Symbol.ofToken_iff, fun p _ q name ss => leaf_of_var⟩
  rintro ⟨q, u, name, hq, misplaced⟩
  cases made : parse text with
  | ok p => exact absurd misplaced ((parse_ok_iff ht).1 ⟨p, made⟩ q u hq name)
  | error e =>
    obtain ⟨name, path, first, rfl⟩ := (parse_error_iff ht).1 made
    exact ⟨name, path, rfl, first⟩

/-- Two variables have children. The first is behind one that has none, and above the second. -/
theorem reading_reports_first_misplaced_nested :
    parse "f(<x>, <y>(<z>(a)))" = .error (.varWithChildren "y" [1]) ∧
      FirstMisplaced (.node "f" [.leaf "<x>", .node "<y>" [.node "<z>" [.leaf "a"]]]) "y" [1] := by
  have tree : Tree.parse "f(<x>, <y>(<z>(a)))" =
      .ok (.node "f" [.leaf "<x>", .node "<y>" [.node "<z>" [.leaf "a"]]]) := rfl
  have misplaced : Misplaced "y" (.node "<y>" [.node "<z>" [.leaf "a"]]) :=
    ⟨Symbol.ofToken_iff.1 rfl, by simp⟩
  have computed : parse "f(<x>, <y>(<z>(a)))" = .error (.varWithChildren "y" [1]) := by
    rw [parse, tree]
    rfl
  obtain ⟨name, path, refused, first⟩ :=
    ((reading_reports_first_misplaced "f(<x>, <y>(<z>(a)))").2.1 _ tree).2.2
      ⟨[1], _, "y", rfl, misplaced⟩
  obtain ⟨rfl, rfl⟩ : name = "y" ∧ path = [1] := by simpa using refused.symm.trans computed
  exact ⟨computed, first⟩

end Pattern

end TreeRules
