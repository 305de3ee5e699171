import TreeRules.Pattern.Basic
import TreeRules.Proofs.Positions
set_option autoImplicit false

namespace TreeRules

namespace Symbol

def name? : Symbol → Option String
  | literal _ => none
  | var name => some name

def literal? : Symbol → Option String
  | literal text => some text
  | var _ => none

end Symbol

theorem nodup_eraseDups (names : List String) : names.eraseDups.Nodup := by
  cases names with
  | nil => exact List.nodup_nil
  | cons name names =>
    rw [List.eraseDups_cons, List.nodup_cons]
    exact ⟨by simp, nodup_eraseDups _⟩
termination_by names.length
decreasing_by
  have shorter := List.length_filter_le (fun other => !other == name) names
  rw [List.length_cons]
  omega

namespace Pattern

theorem names_eq_filterMap (p : Pattern) : p.names = p.symbols.values.filterMap Symbol.name? := by
  induction p using Pattern.induction with
  | var name => rfl
  | node text ps ih =>
    rw [names, namesAll_eq_flatMap, symbols_node, Tree.values_node, List.filterMap_cons,
      List.flatMap_map, List.filterMap_flatMap, List.flatMap_def, List.map_congr_left ih]
    rfl

theorem literals_eq_filterMap (p : Pattern) :
    p.literals = p.symbols.values.filterMap Symbol.literal? := by
  induction p using Pattern.induction with
  | var name => rfl
  | node text ps ih =>
    rw [literals, literalsAll_eq_flatMap, symbols_node, Tree.values_node, List.filterMap_cons,
      List.flatMap_map, List.filterMap_flatMap, List.flatMap_def, List.map_congr_left ih]
    rfl

theorem leaf_of_var {p : Pattern} {q : Path} {name : String} {ss : List (Tree Symbol)}
    (h : p.symbols.subtree? q = some (.node (.var name) ss)) : ss = [] := by
  induction p using Pattern.induction generalizing q with
  | var other =>
    cases q with
    | nil =>
      rw [Tree.subtree?_nil, symbols_var, Tree.leaf, Option.some.injEq, Tree.node.injEq] at h
      exact h.2.symm
    | cons i q => simp [Tree.leaf] at h
  | node text ps ih =>
    cases q with
    | nil => simp at h
    | cons i q =>
      rw [symbols_node, Tree.subtree?_cons, List.getElem?_map] at h
      obtain ⟨_, hs, inside⟩ := Option.bind_eq_some_iff.1 h
      obtain ⟨p, hp, rfl⟩ := Option.map_eq_some_iff.1 hs
      exact ih p (List.mem_of_getElem? hp) inside

theorem vars_nodup (p : Pattern) : p.vars.Nodup := nodup_eraseDups p.names

theorem mem_vars {p : Pattern} {name : String} : name ∈ p.vars ↔ name ∈ p.names :=
  List.mem_eraseDups

theorem mem_names {p : Pattern} {name : String} : name ∈ p.names ↔ .var name ∈ p.symbols.values := by
  rw [names_eq_filterMap, List.mem_filterMap]
  constructor
  · rintro ⟨s, hs, h⟩
    cases s with
    | literal text => simp [Symbol.name?] at h
    | var other =>
      rw [← Option.some.inj h]
      exact hs
  · exact fun h => ⟨.var name, h, rfl⟩

def firstOf (ns : List (Path × Tree Symbol)) (name : String) : Option Path :=
  (ns.find? fun n => n.2.value == .var name).map (·.1)

/-- The position of the first occurrence of a variable in pre-order. -/
def firstPath? (p : Pattern) (name : String) : Option Path := firstOf p.symbols.nodes name

theorem firstOf_append (ns ks : List (Path × Tree Symbol)) (name : String) :
    firstOf (ns ++ ks) name = (firstOf ns name).or (firstOf ks name) := by
  rw [firstOf, List.find?_append, Option.map_or]
  rfl

theorem firstOf_isSome {ns : List (Path × Tree Symbol)} {name : String} :
    (firstOf ns name).isSome = true ↔ ∃ n ∈ ns, n.2.value = .var name := by
  simp [firstOf]

theorem firstOf_mem {ns : List (Path × Tree Symbol)} {name : String} {q : Path}
    (h : firstOf ns name = some q) : q ∈ ns.map (·.1) := by
  obtain ⟨n, hn, rfl⟩ := Option.map_eq_some_iff.1 h
  exact List.mem_map_of_mem (List.mem_of_find?_eq_some hn)

theorem firstPath?_isSome {p : Pattern} {name : String} :
    (p.firstPath? name).isSome = true ↔ name ∈ p.vars := by
  rw [firstPath?, firstOf_isSome, mem_vars, mem_names, ← Tree.nodes_values, List.mem_map]

end Pattern
end TreeRules
