import Mathlib.Algebra.Order.BigOperators.Group.Finset
import Mathlib.Algebra.Ring.Nat
import TreeRules.Proofs.MatchingInverse
import TreeRules.Proofs.Validation
set_option autoImplicit false

/-!
# Size accounting

A node of a tree that a pattern matches belongs to one literal or to the tree of one occurrence of a
variable, and so does a node of an instance. Trees that agree have the same size, so the occurrences
of a variable all count the same, whatever the value equality is. Rewriting therefore exchanges the
literals and the occurrences of the pattern for those of the template, and rules that have less of
them on the right cannot be applied forever.
-/

namespace TreeRules

namespace Tree

variable {α : Type}

mutual
theorem size_of_beq [BEq α] {t u : Tree α} (h : beq t u = true) : t.size = u.size := by
  cases t with
  | node v ts =>
    cases u with
    | node w us =>
      rw [beq, Bool.and_eq_true] at h
      rw [size_node, size_node, sizeAll_of_beqAll h.2]
theorem sizeAll_of_beqAll [BEq α] {ts us : List (Tree α)} (h : beqAll ts us = true) :
    sizeAll ts = sizeAll us := by
  cases ts with
  | nil =>
    cases us with
    | nil => rfl
    | cons u us => simp [beqAll] at h
  | cons t ts =>
    cases us with
    | nil => simp [beqAll] at h
    | cons u us =>
      rw [beqAll, Bool.and_eq_true] at h
      rw [sizeAll_cons, sizeAll_cons, size_of_beq h.1, sizeAll_of_beqAll h.2]
end

theorem size_of_agrees [BEq α] {t u : Tree α} (h : t.agrees u = true) : t.size = u.size :=
  size_of_beq (agrees_eq_beq t u ▸ h)

theorem sizeAll_modify {f : Tree α → Tree α} {ts : List (Tree α)} {i : Nat} {t : Tree α}
    (h : ts[i]? = some t) : sizeAll (ts.modify i f) + t.size = sizeAll ts + (f t).size := by
  induction ts generalizing i with
  | nil => simp at h
  | cons u ts ih =>
    cases i with
    | zero =>
      obtain rfl : u = t := Option.some.inj h
      rw [List.modify_zero_cons, sizeAll_cons, sizeAll_cons]
      omega
    | succ i =>
      have later := ih (i := i) h
      rw [List.modify_succ_cons, sizeAll_cons, sizeAll_cons]
      omega

theorem size_replaceAt (new : Tree α) {p : Path} {t old : Tree α} (h : t.subtree? p = some old) :
    (replaceAt new p t).size + old.size = t.size + new.size := by
  induction p generalizing t with
  | nil =>
    obtain rfl : t = old := Option.some.inj ((subtree?_nil t).symm.trans h)
    rw [replaceAt_nil]
    omega
  | cons i p ih =>
    cases t with
    | node v ts =>
      rw [subtree?_cons, Option.bind_eq_some_iff] at h
      obtain ⟨t, ht, inside⟩ := h
      have below := ih inside
      have siblings := sizeAll_modify (f := replaceAt new p) ht
      rw [replaceAt_cons, size_node, size_node]
      omega

end Tree

namespace Pattern

variable {α : Type}

mutual
theorem instanceSize_eq (b : Bindings (Tree α)) (p : Pattern) :
    p.instanceSize b = p.literals.length + (p.names.map b.sizeAt).sum := by
  cases p with
  | var name => simp [instanceSize, literals, names]
  | node text ps =>
    rw [instanceSize, instanceSizeAll_eq b ps, literals, names, List.length_cons]
    omega
theorem instanceSizeAll_eq (b : Bindings (Tree α)) (ps : List Pattern) :
    instanceSizeAll b ps = (literalsAll ps).length + ((namesAll ps).map b.sizeAt).sum := by
  cases ps with
  | nil => rfl
  | cons p ps =>
    rw [instanceSizeAll, instanceSize_eq b p, instanceSizeAll_eq b ps, literalsAll, namesAll,
      List.length_append, List.map_append, List.sum_append]
    omega
end

theorem instanceSize_eq_sum (b : Bindings (Tree α)) {p : Pattern} {dom : Finset String}
    (h : ∀ name ∈ p.names, name ∈ dom) :
    p.instanceSize b = p.literals.length + ∑ name ∈ dom, p.names.count name * b.sizeAt name := by
  have support : p.names.toFinset ⊆ dom := fun name hn => h name (List.mem_toFinset.1 hn)
  rw [instanceSize_eq, Finset.sum_list_map_count]
  refine congrArg _ (Finset.sum_subset support fun name _ absent => ?_)
  rw [List.count_eq_zero.2 fun hn => absent (List.mem_toFinset.2 hn), zero_nsmul]

variable [BEq α] (test : α → String → Bool)

mutual
theorem size_of_extend? {p : Pattern} {t : Tree α} {b b' c : Bindings (Tree α)}
    (h : extend? test p t b = some b') (hc : c.Extends b') : t.size = p.instanceSize c := by
  cases p with
  | var name =>
    rw [extend?_var] at h
    rw [instanceSize]
    rcases Bindings.admit?_eq_some.1 h with ⟨_, rfl⟩ | ⟨bound, found, agree, rfl⟩
    · have found : c.find? name = some t := hc name t (by rw [Bindings.find?_insert, if_pos rfl])
      rw [Bindings.sizeAt_of_find? found]
    · -- a later occurrence: this tree need not be the bound one, but it has its size
      rw [Bindings.sizeAt_of_find? (hc name bound found), Tree.size_of_agrees agree]
  | node text ps =>
    cases t with
    | node v ts =>
      obtain ⟨_, arity, hps⟩ := (extend?_node_some test).1 h
      rw [Tree.size_node, instanceSize, sizeAll_of_extendAll? hps hc arity]
theorem sizeAll_of_extendAll? {ps : List Pattern} {ts : List (Tree α)}
    {b b' c : Bindings (Tree α)} (h : extendAll? test ps ts b = some b') (hc : c.Extends b')
    (arity : ts.length = ps.length) : Tree.sizeAll ts = instanceSizeAll c ps := by
  cases ps with
  | nil =>
    obtain rfl := List.length_eq_zero_iff.1 arity
    rfl
  | cons p ps =>
    cases ts with
    | nil => simp at arity
    | cons t ts =>
      obtain ⟨d, hp, hps⟩ := (extendAll?_cons_some test).1 h
      have early : c.Extends d := hc.trans (extendAll?_extends test hps)
      rw [Tree.sizeAll_cons, instanceSizeAll, size_of_extend? hp early,
        sizeAll_of_extendAll? hps hc (by simpa using arity)]
end

theorem size_of_capture {p : Pattern} {t : Tree α} {b : Bindings (Tree α)}
    (h : p.captureWith? test t = some b) : t.size = p.instanceSize b :=
  size_of_extend? test h fun _ _ hx => hx

end Pattern

namespace Rule

variable {α : Type} (r : Rule)

/-- What the occurrences of the variables in `p` take up, where `p` is a side of the rule. -/
def boundSize (p : Pattern) (b : Bindings (Tree α)) : Nat :=
  ∑ name ∈ r.pattern.vars.toFinset, p.names.count name * b.sizeAt name

theorem instanceSize_pattern (b : Bindings (Tree α)) :
    r.pattern.instanceSize b = r.pattern.literals.length + r.boundSize r.pattern b :=
  Pattern.instanceSize_eq_sum b fun _ hn => List.mem_toFinset.2 (Pattern.mem_vars.2 hn)

theorem instanceSize_template (b : Bindings (Tree α)) :
    r.template.instanceSize b = r.template.literals.length + r.boundSize r.template b :=
  Pattern.instanceSize_eq_sum b fun name hn =>
    List.mem_toFinset.2 (r.bound name (Pattern.mem_vars.2 hn))

/-- The template has fewer literals than the pattern, and no variable occurs in it more often. -/
structure Shrinks : Prop where
  literals : r.template.literals.length < r.pattern.literals.length
  occurrences : ∀ name, r.template.names.count name ≤ r.pattern.names.count name

theorem Shrinks.boundSize_le {r : Rule} (h : r.Shrinks) (b : Bindings (Tree α)) :
    r.boundSize r.template b ≤ r.boundSize r.pattern b :=
  Finset.sum_le_sum fun name _ => Nat.mul_le_mul_right _ (h.occurrences name)

variable [BEq α]

theorem size_of_runApplyFirst {r : Rule} {test : α → String → Bool} {σ : Type}
    {mapper : String → StateM σ α} {t u : Tree α} {s : σ}
    (h : (r.runApplyFirst test mapper t s).1 = some u) :
    ∃ p b, r.firstMatch? test t = some (p, b) ∧
      (∀ name ∈ r.pattern.vars, (b.find? name).isSome = true) ∧
      u.size + r.pattern.literals.length + r.boundSize r.pattern b =
        t.size + r.template.literals.length + r.boundSize r.template b := by
  cases found : r.firstMatch? test t with
  | none =>
    rw [runApplyFirst_miss r test mapper found] at h
    cases h
  | some hit =>
    obtain ⟨p, b⟩ := hit
    obtain ⟨new, s', made, run⟩ := runApplyFirst_hit r test mapper found s
    obtain ⟨before, matched, after, split, _, captured⟩ := (firstMatch?_eq_some r test).1 found
    have bound (name : String) (hn : name ∈ r.pattern.vars) : (b.find? name).isSome = true :=
      Bindings.mem_names.1 ((Pattern.mem_names_capture captured name).2 hn)
    refine ⟨p, b, rfl, bound, ?_⟩
    rw [run] at h
    obtain rfl := Option.some.inj h
    have here := Tree.subtree?_of_split split
    -- one equation each for the path to the match, the match and the instance
    have exchanged := Tree.size_replaceAt new here
    have taken := Pattern.size_of_capture test captured
    have given := Pattern.size_of_instantiateM mapper (r.template_bound test captured) made
    rw [instanceSize_pattern] at taken
    rw [instanceSize_template] at given
    omega

/-- A search with one of the rules succeeds, for some test and some mapper in some state. -/
def Step (rules : Rule → Prop) (t u : Tree α) : Prop :=
  ∃ (r : Rule) (test : α → String → Bool) (σ : Type) (mapper : String → StateM σ α) (s : σ),
    rules r ∧ (r.runApplyFirst test mapper t s).1 = some u

section
variable {rules : Rule → Prop} (shrinks : ∀ r, rules r → r.Shrinks)
include shrinks

theorem Step.size_lt {t u : Tree α} (h : Step rules t u) : u.size < t.size := by
  obtain ⟨r, test, σ, mapper, s, hr, run⟩ := h
  obtain ⟨p, b, _, _, account⟩ := size_of_runApplyFirst run
  have fewer := (shrinks r hr).literals
  have less := (shrinks r hr).boundSize_le b
  omega

theorem length_lt_size {t : Tree α} {ts : List (Tree α)} (h : List.IsChain (Step rules) (t :: ts)) :
    ts.length < t.size := by
  induction ts generalizing t with
  | nil => exact t.size_pos
  | cons u ts ih =>
    obtain ⟨step, rest⟩ := List.isChain_cons_cons.1 h
    have smaller := step.size_lt shrinks
    have left := ih rest
    rw [List.length_cons]
    omega

end

/-- A successful search exchanges the literals of the pattern for those of the template and the
occurrences of each variable likewise, and changes the size by nothing else. So rules that shrink
make every tree smaller, and from a tree of size `n` they are applied fewer than `n` times. -/
theorem size_accounting {α : Type} [BEq α] :
    (∀ (r : Rule) (test : α → String → Bool) (σ : Type) (mapper : String → StateM σ α)
      (t u : Tree α) (s : σ), (r.runApplyFirst test mapper t s).1 = some u →
      ∃ p b, r.firstMatch? test t = some (p, b) ∧
        (∀ name ∈ r.pattern.vars, (b.find? name).isSome = true) ∧
        u.size + r.pattern.literals.length + r.boundSize r.pattern b =
          t.size + r.template.literals.length + r.boundSize r.template b) ∧
    ∀ rules : Rule → Prop, (∀ r, rules r → r.Shrinks) →
      (∀ t u : Tree α, Step rules t u → u.size < t.size) ∧
      ∀ (t : Tree α) (ts : List (Tree α)), List.IsChain (Step rules) (t :: ts) →
        ts.length < t.size := by
  constructor
  · intro r test σ mapper t u s h
    exact size_of_runApplyFirst h
  · intro rules shrinks
    exact ⟨fun t u step => step.size_lt shrinks, fun t ts chain => length_lt_size shrinks chain⟩

/-- The two trees under `pair` differ, but they agree up to case, so one of them is dropped. -/
theorem size_accounting_caseless :
    ∃ r, ofPatterns (.node "pair" [.var "x", .var "x"]) (.var "x") = .ok r ∧ r.Shrinks ∧
      ∃ u, (r.runApplyFirst (fun v text => sameUpToCase v.text text)
          (fun text => pure (CaselessLabel.mk text))
          (.node ⟨"f"⟩ [.node ⟨"Pair"⟩ [.leaf ⟨"a"⟩, .leaf ⟨"A"⟩]]) ()).1 = some u ∧
        u.size < 4 := by
  let r : Rule := ⟨.node "pair" [.var "x", .var "x"], .var "x", by decide⟩
  have shrinks : r.Shrinks := by
    refine ⟨by decide, fun name => ?_⟩
    exact List.Sublist.count_le name (List.sublist_cons_self "x" ["x"])
  refine ⟨r, ofPatterns_ok.2 ⟨rfl, rfl⟩, shrinks, _, rfl, ?_⟩
  refine (size_accounting.2 (· = r) fun s hs => hs ▸ shrinks).1
    (.node ⟨"f"⟩ [.node ⟨"Pair"⟩ [.leaf ⟨"a"⟩, .leaf ⟨"A"⟩]]) _ ?_
  exact ⟨r, fun v text => sameUpToCase v.text text, Unit, fun text => pure ⟨text⟩, (), rfl, rfl⟩

end Rule
end TreeRules
