import TreeRules.Proofs.MatchingInverse
import TreeRules.Proofs.PatternNotation
import TreeRules.Proofs.TreeRoundTrip
set_option autoImplicit false

namespace TreeRules

open Text

/-- Names for some of the positions of a tree. -/
abbrev Naming := Path → Option String

namespace Naming

def below (c : Naming) (i : Nat) : Naming := fun q => c (i :: q)

/-- No named position lies below another. -/
def Apart (c : Naming) : Prop :=
  ∀ q q', (c q).isSome = true → (c q').isSome = true → q <+: q' → q = q'

/-- The position has no name and lies below none that has. -/
def Keeps (c : Naming) (q : Path) : Prop := ∀ q', q' <+: q → c q' = none

variable {c : Naming}

theorem Apart.below (h : c.Apart) (i : Nat) : (c.below i).Apart := by
  intro q q' hq hq' hle
  have same := h (i :: q) (i :: q') hq hq' (List.cons_prefix_cons.2 ⟨rfl, hle⟩)
  exact (List.cons.inj same).2

theorem Apart.root (h : c.Apart) {name : String} (root : c [] = some name) {q : Path}
    (hq : q ≠ []) : c q = none := by
  rw [Option.eq_none_iff_forall_ne_some]
  intro other hother
  exact hq (h [] q (by rw [root]; rfl) (by rw [hother]; rfl) List.nil_prefix).symm

theorem Keeps.cons (root : c [] = none) {i : Nat} {q : Path} (h : (c.below i).Keeps q) :
    c.Keeps (i :: q) := by
  intro q' hle
  cases q' with
  | nil => exact root
  | cons j q' =>
    obtain ⟨rfl, rest⟩ := List.cons_prefix_cons.1 hle
    exact h q' rest

end Naming

namespace Tree

mutual
def cut : Naming → Tree String → Tree String
  | c, node v ts =>
    match c [] with
    | some name => leaf ("<" ++ name ++ ">")
    | none => node v (cutFrom c 0 ts)
def cutFrom : Naming → Nat → List (Tree String) → List (Tree String)
  | _, _, [] => []
  | c, i, t :: ts => cut (c.below i) t :: cutFrom c (i + 1) ts
end

mutual
def cutPattern : Naming → Tree String → Pattern
  | c, node v ts =>
    match c [] with
    | some name => .var name
    | none => .node v (cutPatternFrom c 0 ts)
def cutPatternFrom : Naming → Nat → List (Tree String) → List Pattern
  | _, _, [] => []
  | c, i, t :: ts => cutPattern (c.below i) t :: cutPatternFrom c (i + 1) ts
end

section

variable {c : Naming} {v : String} {ts : List (Tree String)}

theorem cut_named {name : String} (h : c [] = some name) :
    (node v ts).cut c = leaf ("<" ++ name ++ ">") := by
  rw [cut, h]

theorem cut_kept (h : c [] = none) : (node v ts).cut c = node v (cutFrom c 0 ts) := by
  rw [cut, h]

theorem cutPattern_named {name : String} (h : c [] = some name) :
    (node v ts).cutPattern c = .var name := by
  rw [cutPattern, h]

theorem cutPattern_kept (h : c [] = none) :
    (node v ts).cutPattern c = .node v (cutPatternFrom c 0 ts) := by
  rw [cutPattern, h]

end

mutual
theorem values_cut {c : Naming} {t : Tree String} {v : String} (h : v ∈ (t.cut c).values) :
    v ∈ t.values ∨ ∃ q name, c q = some name ∧ v = "<" ++ name ++ ">" := by
  cases t with
  | node w ts =>
    cases root : c [] with
    | some name =>
      rw [cut_named root, leaf, values_node, List.flatMap_nil, List.mem_singleton] at h
      exact Or.inr ⟨[], name, root, h⟩
    | none =>
      rw [cut_kept root, values_node, List.mem_cons] at h
      rw [values_node, List.mem_cons]
      rcases h with h | h
      · exact Or.inl (Or.inl h)
      · exact (values_cutFrom h).imp_left Or.inr
theorem values_cutFrom {c : Naming} {i : Nat} {ts : List (Tree String)} {v : String}
    (h : v ∈ (cutFrom c i ts).flatMap values) :
    v ∈ ts.flatMap values ∨ ∃ q name, c q = some name ∧ v = "<" ++ name ++ ">" := by
  cases ts with
  | nil => simp [cutFrom] at h
  | cons t ts =>
    rw [cutFrom, List.flatMap_cons, List.mem_append] at h
    rw [List.flatMap_cons, List.mem_append]
    rcases h with h | h
    · rcases values_cut h with h | ⟨q, name, hq, hv⟩
      · exact Or.inl (Or.inl h)
      · exact Or.inr ⟨i :: q, name, hq, hv⟩
    · exact (values_cutFrom h).imp_left Or.inr
end

theorem OfTokens.cut {c : Naming} {t : Tree String} (tokens : t.OfTokens)
    (names : ∀ q name, c q = some name → isToken name = true) : (t.cut c).OfTokens := by
  intro v hv
  rcases values_cut hv with h | ⟨q, name, hq, rfl⟩
  · exact tokens v h
  · exact isToken_bracketed (names q name hq)

/-- Each of the nodes that is not cut out has a literal for its value. -/
def PlainAt (c : Naming) (ns : List (Path × Tree String)) : Prop :=
  ∀ n ∈ ns, c.Keeps n.1 → Symbol.ofToken n.2.value = .literal n.2.value

theorem PlainAt.below {c : Naming} {i : Nat} {t : Tree String} {ts : List (Tree String)}
    (root : c [] = none) (h : PlainAt c (nodesFrom i (t :: ts))) :
    PlainAt (c.below i) t.nodes ∧ PlainAt c (nodesFrom (i + 1) ts) := by
  rw [nodesFrom_cons] at h
  refine ⟨fun n hn keeps => ?_, fun n hn => h n (List.mem_append_right _ hn)⟩
  exact h (i :: n.1, n.2) (List.mem_append_left _ (List.mem_map_of_mem hn)) (keeps.cons root)

mutual
theorem map_cut {c : Naming} {t : Tree String}
    (names : ∀ q name, c q = some name → name ≠ "") (plain : PlainAt c t.nodes) :
    (t.cut c).map Symbol.ofToken = (t.cutPattern c).symbols := by
  cases t with
  | node v ts =>
    rw [nodes_node] at plain
    cases root : c [] with
    | some name =>
      rw [cut_named root, cutPattern_named root, leaf, map_node, Pattern.symbols_var]
      exact congrArg leaf (Symbol.ofToken_render_var (names [] name root))
    | none =>
      have here : c.Keeps [] := fun q' hle => by rw [List.prefix_nil.1 hle, root]
      have value : Symbol.ofToken v = .literal v :=
        plain ([], node v ts) List.mem_cons_self here
      have children := map_cutFrom names root fun n hn => plain n (List.mem_cons_of_mem _ hn)
      rw [cut_kept root, cutPattern_kept root, map_node, Pattern.symbols, ← children, value]
theorem map_cutFrom {c : Naming} {i : Nat} {ts : List (Tree String)}
    (names : ∀ q name, c q = some name → name ≠ "") (root : c [] = none)
    (plain : PlainAt c (nodesFrom i ts)) :
    (cutFrom c i ts).map (map Symbol.ofToken) = Pattern.symbolsAll (cutPatternFrom c i ts) := by
  cases ts with
  | nil => rfl
  | cons t ts =>
    obtain ⟨first, rest⟩ := plain.below root
    have head : (t.cut (c.below i)).map Symbol.ofToken = (t.cutPattern (c.below i)).symbols :=
      map_cut (fun q => names (i :: q)) first
    rw [cutFrom, cutPatternFrom, List.map_cons, Pattern.symbolsAll, head,
      map_cutFrom names root rest]
end

def namesAt (c : Naming) (ns : List (Path × Tree String)) : List String :=
  ns.filterMap fun n => c n.1

theorem namesAt_append (c : Naming) (ns ks : List (Path × Tree String)) :
    namesAt c (ns ++ ks) = namesAt c ns ++ namesAt c ks := List.filterMap_append

theorem namesAt_child (c : Naming) (i : Nat) (ns : List (Path × Tree String)) :
    namesAt c (ns.map fun n => (i :: n.1, n.2)) = namesAt (c.below i) ns := by
  rw [namesAt, List.filterMap_map]
  rfl

theorem unnamed_below {c : Naming} (apart : c.Apart) {name : String} (root : c [] = some name)
    {ts : List (Tree String)} : ∀ n ∈ nodesFrom 0 ts, c n.1 = none := by
  intro n hn
  obtain ⟨j, _, q, _, _, here⟩ := mem_nodesFrom.1 hn
  exact apart.root root (by rw [here]; exact List.cons_ne_nil _ _)

mutual
theorem names_cutPattern {c : Naming} {t : Tree String} (apart : c.Apart) :
    (t.cutPattern c).names = namesAt c t.nodes := by
  cases t with
  | node v ts =>
    rw [nodes_node, namesAt, List.filterMap_cons]
    cases root : c [] with
    | some name =>
      have later : (nodesFrom 0 ts).filterMap (fun n => c n.1) = [] :=
        List.filterMap_eq_nil_iff.2 (unnamed_below apart root)
      rw [cutPattern_named root, Pattern.names, later]
    | none =>
      rw [cutPattern_kept root, Pattern.names, names_cutPatternFrom apart]
      rfl
theorem names_cutPatternFrom {c : Naming} {i : Nat} {ts : List (Tree String)} (apart : c.Apart) :
    Pattern.namesAll (cutPatternFrom c i ts) = namesAt c (nodesFrom i ts) := by
  cases ts with
  | nil => rfl
  | cons t ts =>
    rw [cutPatternFrom, Pattern.namesAll, nodesFrom_cons, namesAt_append, namesAt_child,
      names_cutPattern (apart.below i), names_cutPatternFrom apart]
end

def Fills (c : Naming) (b : Bindings (Tree String)) (ns : List (Path × Tree String)) : Prop :=
  ∀ n ∈ ns, ∀ name, c n.1 = some name → b.find? name = some n.2

theorem fills_nodesFrom_cons {c : Naming} {b : Bindings (Tree String)} {i : Nat} {t : Tree String}
    {ts : List (Tree String)} :
    Fills c b (nodesFrom i (t :: ts)) ↔
      Fills (c.below i) b t.nodes ∧ Fills c b (nodesFrom (i + 1) ts) := by
  rw [nodesFrom_cons, Fills, List.forall_mem_append, List.forall_mem_map]
  rfl

mutual
theorem instantiate_cutPattern {c : Naming} {t : Tree String} {b : Bindings (Tree String)}
    (apart : c.Apart) : (t.cutPattern c).instantiate id b = .ok t ↔ Fills c b t.nodes := by
  cases t with
  | node v ts =>
    rw [nodes_node, Fills, List.forall_mem_cons]
    cases root : c [] with
    | some name =>
      have later : ∀ n ∈ nodesFrom 0 ts, c n.1 = none := unnamed_below apart root
      rw [cutPattern_named root, Pattern.instantiate_var_ok]
      constructor
      · intro found
        refine ⟨fun other hother => ?_, fun n hn other hother => ?_⟩
        · rw [← Option.some.inj hother]
          exact found
        · rw [later n hn] at hother
          exact absurd hother (by simp)
      · exact fun h => h.1 name rfl
    | none =>
      rw [cutPattern_kept root, Pattern.instantiate_node_ok]
      constructor
      · rintro ⟨us, made, same⟩
        rw [(Tree.node.inj same).2] at made
        exact ⟨fun _ hother => absurd hother (by simp), (instantiate_cutPatternFrom apart).1 made⟩
      · exact fun h => ⟨ts, (instantiate_cutPatternFrom apart).2 h.2, rfl⟩
theorem instantiate_cutPatternFrom {c : Naming} {i : Nat} {ts : List (Tree String)}
    {b : Bindings (Tree String)} (apart : c.Apart) :
    Pattern.instantiateAll id b (cutPatternFrom c i ts) = .ok ts ↔ Fills c b (nodesFrom i ts) := by
  cases ts with
  | nil => exact ⟨fun _ _ hn => absurd hn List.not_mem_nil, fun _ => rfl⟩
  | cons t ts =>
    rw [cutPatternFrom, Pattern.instantiateAll_cons_ok, fills_nodesFrom_cons,
      ← instantiate_cutPattern (apart.below i), ← instantiate_cutPatternFrom apart]
    constructor
    · rintro ⟨u, rest, made, others, same⟩
      obtain ⟨rfl, rfl⟩ := List.cons.inj same
      exact ⟨made, others⟩
    · exact fun ⟨made, others⟩ => ⟨t, ts, made, others, rfl⟩
end

theorem exists_fills {c : Naming} {ns : List (Path × Tree String)}
    (same : ∀ n ∈ ns, ∀ k ∈ ns, ∀ name, c n.1 = some name → c k.1 = some name → n.2 = k.2) :
    ∃ b, Fills c b ns := by
  induction ns with
  | nil => exact ⟨.empty, nofun⟩
  | cons n ns ih =>
    obtain ⟨b, hb⟩ := ih fun k hk l hl =>
      same k (List.mem_cons_of_mem n hk) l (List.mem_cons_of_mem n hl)
    cases hn : c n.1 with
    | none =>
      refine ⟨b, List.forall_mem_cons.2 ⟨fun name hname => ?_, hb⟩⟩
      rw [hn] at hname
      exact absurd hname (by simp)
    | some name =>
      refine ⟨b.insert name n.2, List.forall_mem_cons.2 ⟨fun other hother => ?_, ?_⟩⟩
      · rw [hn] at hother
        rw [Bindings.find?_insert, if_pos (Option.some.inj hother).symm]
      · intro k hk other hother
        rw [Bindings.find?_insert]
        -- a later cut of the same name holds the same subtree
        by_cases again : other = name
        · have agree := same n List.mem_cons_self k (List.mem_cons_of_mem n hk) name hn
            (again ▸ hother)
          rw [if_pos again, agree]
        · rw [if_neg again]
          exact hb k hk other hother

end Tree

/-- Positions of a tree, none of them below another, each with a name of token characters. -/
structure Cuts (t : Tree String) where
  name? : Naming
  inside : ∀ q, (name? q).isSome = true → (t.subtree? q).isSome = true
  apart : name?.Apart
  token : ∀ q name, name? q = some name → isToken name = true

namespace Cuts

variable {t : Tree String} (c : Cuts t)

def names : List String := (t.nodes.filterMap fun n => c.name? n.1).eraseDups

def first? (name : String) : Option (Tree String) :=
  (t.nodes.find? fun n => c.name? n.1 == some name).map (·.2)

/-- Cuts with the same name hold the same subtree. -/
def Consistent : Prop :=
  ∀ q q' name, c.name? q = some name → c.name? q' = some name → t.subtree? q = t.subtree? q'

def Plain : Prop :=
  ∀ q u, t.subtree? q = some u → c.name?.Keeps q →
    ∀ name, name ≠ "" → u.value ≠ "<" ++ name ++ ">"

def text : String := (t.cut c.name?).render

theorem consistent_iff_fills : c.Consistent ↔ ∃ b, Tree.Fills c.name? b t.nodes := by
  constructor
  · intro consistent
    refine Tree.exists_fills fun n hn k hk name hname hname' => ?_
    have same := consistent n.1 k.1 name hname hname'
    rw [Tree.mem_nodes.1 hn, Tree.mem_nodes.1 hk] at same
    exact Option.some.inj same
  · rintro ⟨b, fills⟩ q q' name hq hq'
    obtain ⟨u, hu⟩ := Option.isSome_iff_exists.1 (c.inside q (by rw [hq]; rfl))
    obtain ⟨u', hu'⟩ := Option.isSome_iff_exists.1 (c.inside q' (by rw [hq']; rfl))
    have found : b.find? name = some u := fills (q, u) (Tree.mem_nodes.2 hu) name hq
    have found' : b.find? name = some u' := fills (q', u') (Tree.mem_nodes.2 hu') name hq'
    rw [hu, hu', ← found, found']

theorem parse_text (tokens : t.OfTokens) (plain : c.Plain) :
    Pattern.parse c.text = .ok (t.cutPattern c.name?) := by
  have nonempty (q : Path) (name : String) (h : c.name? q = some name) : name ≠ "" := by
    rintro rfl
    exact absurd (c.token q "" h) (by decide)
  have literals : Tree.PlainAt c.name? t.nodes := fun n hn keeps =>
    Symbol.ofToken_of_plain (plain n.1 n.2 (Tree.mem_nodes.1 hn) keeps)
  have left : (t.cut c.name?).OfTokens := tokens.cut c.token
  refine Pattern.parse_ok.2 ⟨t.cut c.name?, parse_sound left.parse_render, ?_⟩
  exact (Tree.map_cut nonempty literals).symm

theorem vars_cutPattern : (t.cutPattern c.name?).vars = c.names := by
  rw [Pattern.vars, Tree.names_cutPattern c.apart]
  rfl

theorem capture_isSome : ((t.cutPattern c.name?).capture? t).isSome = true ↔ c.Consistent := by
  have instance_iff := (t.cutPattern c.name?).inverts_texts t |>.1
  rw [consistent_iff_fills, Pattern.capture?, instance_iff]
  exact exists_congr fun b => Tree.instantiate_cutPattern c.apart

theorem capture_find? {b : Bindings (Tree String)} (h : (t.cutPattern c.name?).capture? t = some b)
    (name : String) : b.find? name = c.first? name := by
  have made := ((t.cutPattern c.name?).inverts_texts t).2 b h |>.1
  have fills := (Tree.instantiate_cutPattern c.apart).1 made
  rw [first?]
  cases hit : t.nodes.find? fun n => c.name? n.1 == some name with
  | some n =>
    have named : c.name? n.1 = some name := by simpa using List.find?_some hit
    exact fills n (List.mem_of_find?_eq_some hit) name named
  | none =>
    have unnamed : name ∉ c.names := by
      rw [names, List.mem_eraseDups, List.mem_filterMap]
      rintro ⟨n, hn, hname⟩
      exact List.find?_eq_none.1 hit n hn (by simp [hname])
    rw [← c.vars_cutPattern, ← Pattern.mem_names_capture h, Bindings.mem_names] at unnamed
    simpa using unnamed

end Cuts

/-- A pattern cut from a tree matches the tree if cuts of the same name hold the same subtree. Then
it captures what was cut out, and these bindings give back the tree. -/
theorem cut_pattern_captures (t : Tree String) (c : Cuts t) (tokens : t.OfTokens)
    (plain : c.Plain) :
    ∃ p, Pattern.parse c.text = .ok p ∧ p.vars = c.names ∧
      ((p.capture? t).isSome = true ↔ c.Consistent) ∧
      ∀ b, p.capture? t = some b →
        (∀ name, b.find? name = c.first? name) ∧ p.instantiate id b = .ok t := by
  refine ⟨t.cutPattern c.name?, c.parse_text tokens plain, c.vars_cutPattern, c.capture_isSome, ?_⟩
  exact fun b hb => ⟨c.capture_find? hb, (((t.cutPattern c.name?).inverts_texts t).2 b hb).1⟩

/-- The first and the last child of `f(g(a),a,g(a))` under one name. -/
def twinCuts : Cuts (.node "f" [.node "g" [.leaf "a"], .leaf "a", .node "g" [.leaf "a"]]) where
  name? q := if q = [0] ∨ q = [2] then some "x>->" else none
  inside q hq := by
    simp only [Option.isSome_ite] at hq
    rcases hq with rfl | rfl <;> rfl
  apart q q' hq hq' hle := by
    simp only [Option.isSome_ite] at hq hq'
    rcases hq with rfl | rfl <;> rcases hq' with rfl | rfl <;> revert hle <;> decide
  token q name hq := by
    simp only [Option.ite_none_right_eq_some] at hq
    rw [← Option.some.inj hq.2]
    decide

theorem cut_pattern_captures_twins :
    ∃ p b, Pattern.parse "f(<x>->>,a,<x>->>)" = .ok p ∧ p.vars = ["x>->"] ∧
      p.capture? (.node "f" [.node "g" [.leaf "a"], .leaf "a", .node "g" [.leaf "a"]]) = some b ∧
      b.find? "x>->" = some (.node "g" [.leaf "a"]) ∧
      p.instantiate id b =
        .ok (.node "f" [.node "g" [.leaf "a"], .leaf "a", .node "g" [.leaf "a"]]) := by
  have tokens : Tree.OfTokens
      (.node "f" [.node "g" [.leaf "a"], .leaf "a", .node "g" [.leaf "a"]]) := by
    unfold Tree.OfTokens
    decide
  have plain : twinCuts.Plain := by
    intro q u hu _ name _ hv
    have value : u.value ∈ ["f", "g", "a", "a", "g", "a"] := by
      have visited := List.mem_map_of_mem (f := (·.2.value)) (Tree.mem_nodes.2 hu)
      rwa [Tree.nodes_values] at visited
    have bare : ∀ v ∈ ["f", "g", "a", "a", "g", "a"], v.toList.head? ≠ some '<' := by decide
    exact bare u.value value (by simp [hv])
  have consistent : twinCuts.Consistent := by
    intro q q' name hq hq'
    simp only [twinCuts, Option.ite_none_right_eq_some] at hq hq'
    rcases hq.1 with rfl | rfl <;> rcases hq'.1 with rfl | rfl <;> rfl
  obtain ⟨p, hp, vars, success, bindings⟩ := cut_pattern_captures _ twinCuts tokens plain
  obtain ⟨b, hb⟩ := Option.isSome_iff_exists.1 (success.2 consistent)
  obtain ⟨first, made⟩ := bindings b hb
  exact ⟨p, b, hp, vars, hb, first "x>->", made⟩

end TreeRules
