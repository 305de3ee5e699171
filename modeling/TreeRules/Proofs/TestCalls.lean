import Mathlib.Data.List.Forall2
import TreeRules.Proofs.MatchingMeaning
import TreeRules.Proofs.Observation
set_option autoImplicit false

namespace TreeRules.Pattern

variable {α : Type}

def literalsAmong (ns : List (Path × Tree Symbol)) : List Path :=
  (ns.filter fun n => n.2.value.literal?.isSome).map (·.1)

theorem mem_literalsAmong {ns : List (Path × Tree Symbol)} {q : Path} :
    q ∈ literalsAmong ns ↔ ∃ text ss, (q, .node (.literal text) ss) ∈ ns := by
  simp only [literalsAmong, List.mem_map, List.mem_filter]
  constructor
  · rintro ⟨⟨q, symbol, ss⟩, ⟨hn, literal⟩, rfl⟩
    cases symbol with
    | literal text => exact ⟨text, ss, hn⟩
    | var name => simp [Symbol.literal?] at literal
  · rintro ⟨text, ss, hn⟩
    exact ⟨_, ⟨hn, rfl⟩, rfl⟩

theorem literalsAmong_append (ns ks : List (Path × Tree Symbol)) :
    literalsAmong (ns ++ ks) = literalsAmong ns ++ literalsAmong ks := by
  rw [literalsAmong, List.filter_append, List.map_append]
  rfl

/-- The positions of the literals in pre-order. -/
def literalPaths (p : Pattern) : List Path := literalsAmong p.symbols.nodes

theorem mem_literalPaths {p : Pattern} {q : Path} :
    q ∈ p.literalPaths ↔ ∃ text ss, p.symbols.subtree? q = some (.node (.literal text) ss) := by
  simp only [literalPaths, mem_literalsAmong, Tree.mem_nodes]

theorem literalPaths_nodup (p : Pattern) : p.literalPaths.Nodup :=
  p.symbols.positions_nodup.sublist (List.filter_sublist.map _)

def CallAt (p : Pattern) (t : Tree α) (q : Path) (call : α × String) : Prop :=
  ∃ ts ss, t.subtree? q = some (.node call.1 ts) ∧
    p.symbols.subtree? q = some (.node (.literal call.2) ss)

theorem not_below_var {p : Pattern} {q r : Path} (literal : q ∈ p.literalPaths) {name : String}
    {ss : List (Tree Symbol)} (hr : p.symbols.subtree? r = some (.node (.var name) ss)) :
    ¬ r <+: q := by
  obtain ⟨text, ss', hq⟩ := mem_literalPaths.1 literal
  rintro ⟨below, rfl⟩
  rw [Tree.subtree?_append, hr, leaf_of_var hr, Option.bind_some] at hq
  cases below with
  | nil => simp at hq
  | cons i below => simp at hq

variable {look : Path → Option (Tree α)} {ns ks : List (Path × Tree Symbol)}

theorem calls_at {p : Pattern} {t : Tree α} (h : ∀ n ∈ ns, p.symbols.subtree? n.1 = some n.2 ∧
      ∃ u, t.subtree? n.1 = some u) :
    List.Forall₂ (p.CallAt t) (literalsAmong ns) (ns.flatMap (asked t.subtree?)) := by
  induction ns with
  | nil => exact .nil
  | cons n ns ih =>
    obtain ⟨⟨hp, u, hu⟩, later⟩ := List.forall_mem_cons.1 h
    obtain ⟨q, symbol, ss⟩ := n
    cases symbol with
    | var name => exact ih later
    | literal text =>
      have here : asked t.subtree? (q, .node (.literal text) ss) = [(u.value, text)] := by
        simp only [asked, Tree.value_node, hu]
      rw [List.flatMap_cons, here]
      exact .cons ⟨u.children, ss, by rw [hu, Tree.node_eta], hp⟩ (ih later)

theorem texts_asked (h : ∀ n ∈ ns, ∃ u, look n.1 = some u) :
    (ns.flatMap (asked look)).map (·.2) = ns.filterMap fun n => n.2.value.literal? := by
  induction ns with
  | nil => rfl
  | cons n ns ih =>
    obtain ⟨⟨u, hu⟩, later⟩ := List.forall_mem_cons.1 h
    rw [List.flatMap_cons, List.map_append, ih later, asked, hu]
    cases hv : n.2.value <;> simp [hv, Symbol.literal?]

variable [BEq α] {test : α → String → Bool} {b b' : Bindings (Tree α)}

theorem passes_append {n : Path × Tree Symbol} (hn : n ∈ ns) :
    Passes test look (ns ++ ks) n ↔ Passes test look ns n := by
  unfold Passes
  refine exists_congr fun t => and_congr_right fun _ => ?_
  cases hv : n.2.value with
  | literal text => rfl
  | var name =>
    have seen : (firstOf ns name).isSome = true := firstOf_isSome.2 ⟨n, hn, hv⟩
    simp only [firstOf_append, Option.or_of_isSome seen]

theorem askedAll_append (h : checkAll? test look ns b = some b') :
    askedAll test look (ns ++ ks) b =
      ns.flatMap (asked look) ++ askedAll test look ks b' := by
  induction ns generalizing b with
  | nil =>
    rw [← Option.some.inj h]
    rfl
  | cons n ns ih =>
    obtain ⟨c, step, rest⟩ := Option.bind_eq_some_iff.1 h
    rw [List.cons_append, askedAll, step, Option.map_some, Option.getD_some, ih rest,
      List.flatMap_cons, List.append_assoc]

theorem first_failing (h : checkAll? test look ns b = none) :
    ∃ before n after b', ns = before ++ n :: after ∧ checkAll? test look before b = some b' ∧
      check? test look n b' = none := by
  induction ns generalizing b with
  | nil => simp [checkAll?] at h
  | cons n ns ih =>
    cases step : check? test look n b with
    | none => exact ⟨[], n, ns, b, rfl, rfl, step⟩
    | some c =>
      rw [checkAll?, step, Option.bind_some] at h
      obtain ⟨before, k, after, b', rfl, passed, failed⟩ := ih h
      refine ⟨n :: before, k, after, b', rfl, ?_, failed⟩
      rw [checkAll?, step]
      exact passed

section

variable {p : Pattern} {t : Tree α} {before after : List (Path × Tree Symbol)}
  {n : Path × Tree Symbol}

/-- The nodes of a walk that has not ended pass. -/
theorem passes_of_walk (split : p.symbols.nodes = ns ++ ks)
    (h : checkAll? test t.subtree? ns .empty = some b) :
    ∀ k ∈ ns, Passes test t.subtree? p.symbols.nodes k := by
  have distinct : (ns.map (·.1)).Nodup :=
    p.symbols.positions_nodup.sublist ((split ▸ List.sublist_append_left ns ks).map _)
  have all : (checkAll? test t.subtree? ns .empty).isSome = true ↔
      ∀ k ∈ ns, Passes test t.subtree? ns k := checkAll?_isSome recorded_nil distinct
  rw [h, Option.isSome_some] at all
  intro k hk
  rw [split, passes_append hk]
  exact all.1 rfl k hk

theorem fails_of_walk (split : p.symbols.nodes = before ++ n :: after)
    (h : checkAll? test t.subtree? before .empty = some b)
    (failed : check? test t.subtree? n b = none) :
    ¬ Passes test t.subtree? p.symbols.nodes n := by
  have recorded : Recorded t.subtree? ([] ++ before) b := checkAll?_recorded recorded_nil h
  have fresh : n.1 ∉ before.map (·.1) := by
    have distinct := p.symbols.positions_nodup
    rw [split, List.map_append, List.nodup_append] at distinct
    exact fun hn => distinct.2.2 n.1 hn n.1 (by simp) rfl
  have step : (check? test t.subtree? n b).isSome = true ↔
      Passes test t.subtree? (before ++ n :: after) n := check?_isSome recorded fresh
  rw [split, ← step, failed]
  simp

/-- Every node of the pattern that comes before the position in pre-order passes. -/
def PassesBefore (p : Pattern) (test : α → String → Bool) (t : Tree α) (q : Path) : Prop :=
  ∀ n ∈ p.symbols.nodes, n.1 < q → Passes test t.subtree? p.symbols.nodes n

theorem mem_visited_iff (split : p.symbols.nodes = before ++ n :: after)
    (early : ∀ k ∈ before, Passes test t.subtree? p.symbols.nodes k)
    (fails : ¬ Passes test t.subtree? p.symbols.nodes n) {k : Path × Tree Symbol}
    (hk : k ∈ p.symbols.nodes) : k ∈ before ++ [n] ↔ p.PassesBefore test t k.1 := by
  have earlier {j : Path × Tree Symbol} (hj : j ∈ p.symbols.nodes) :
      j ∈ before ↔ j.1 < n.1 := Tree.mem_before_iff split hj
  rw [List.mem_append, List.mem_singleton]
  constructor
  · rintro (inside | rfl) j hj lt
    · exact early j ((earlier hj).2 (List.lt_trans lt ((earlier hk).1 inside)))
    · exact early j ((earlier hj).2 lt)
  · intro passes
    have last : n ∈ p.symbols.nodes := split ▸ List.mem_append_right _ List.mem_cons_self
    have reached : ¬ n.1 < k.1 := fun lt => fails (passes n last lt)
    rw [split, List.mem_append, List.mem_cons] at hk
    rcases hk with inside | rfl | later
    · exact Or.inl inside
    · exact Or.inr rfl
    -- what comes later has the failing node before it
    · have ascending := p.symbols.nodes_ascending
      rw [split, List.map_append, List.map_cons, List.pairwise_append, List.pairwise_cons]
        at ascending
      exact absurd (ascending.2.1.1 k.1 (List.mem_map_of_mem later)) reached

end

/-- The nodes that a match visits are those whose predecessors pass. -/
theorem exists_visited (p : Pattern) (test : α → String → Bool) (t : Tree α) :
    ∃ visited rest, p.symbols.nodes = visited ++ rest ∧
      p.testCalls test t = visited.flatMap (asked t.subtree?) ∧
      (∀ n ∈ p.symbols.nodes, n ∈ visited ↔ p.PassesBefore test t n.1) ∧
      ((p.captureWith? test t).isSome = true → rest = []) := by
  rw [testCalls_eq_askedAll, captureWith?_eq_checkAll?]
  cases found : checkAll? test t.subtree? p.symbols.nodes .empty with
  | some b =>
    have whole : p.symbols.nodes = p.symbols.nodes ++ [] := (List.append_nil _).symm
    refine ⟨p.symbols.nodes, [], whole, ?_, fun n hn => ?_, fun _ => rfl⟩
    · rw [whole, askedAll_append found, ← whole]
      exact List.append_nil _
    · exact ⟨fun _ k hk _ => passes_of_walk whole found k hk, fun _ => hn⟩
  | none =>
    obtain ⟨before, n, after, b, split, passed, failed⟩ := first_failing found
    have early := passes_of_walk split passed
    have fails := fails_of_walk split passed failed
    refine ⟨before ++ [n], after, by rw [split, List.append_assoc]; rfl, ?_,
      fun k hk => mem_visited_iff split early fails hk, by simp⟩
    rw [split, askedAll_append passed, askedAll, failed, List.flatMap_append]
    simp

theorem PassesBefore.covers {p : Pattern} {t : Tree α} {q : Path} {s : Tree Symbol}
    (h : p.PassesBefore test t q) (hq : p.symbols.subtree? q = some s) :
    ∃ u, t.subtree? q = some u := by
  rcases List.eq_nil_or_concat q with rfl | ⟨r, i, rfl⟩
  · exact ⟨t, Tree.subtree?_nil t⟩
  · -- the parent comes before, so it passes, and thus has as many children in the tree
    rw [List.concat_eq_append] at h hq ⊢
    rw [Tree.subtree?_concat, Option.bind_eq_some_iff] at hq
    obtain ⟨⟨symbol, ss⟩, hr, child⟩ := hq
    obtain ⟨u, hu, passed⟩ :=
      h (r, .node symbol ss) (Tree.mem_nodes.2 hr) (Tree.lt_concat r i)
    cases symbol with
    | var name =>
      rw [leaf_of_var hr] at child
      simp at child
    | literal text =>
      have inside : i < u.children.length := by
        rw [passed.2]
        exact (List.getElem?_eq_some_iff.1 child).1
      refine ⟨u.children[i], ?_⟩
      rw [Tree.subtree?_concat, hu, Option.bind_some, List.getElem?_eq_getElem inside]

/-- The test is called once for each literal whose predecessors in pre-order all pass, in pre-order,
with the value of the tree at the same position. That position lies in no subtree that a variable
stands for, and if the pattern matches, all literals have their turn. -/
theorem test_calls_in_order (p : Pattern) (t : Tree α) (test : α → String → Bool) :
    ∃ positions : List Path,
      List.Forall₂ (p.CallAt t) positions (p.testCalls test t) ∧
      positions <+: p.literalPaths ∧ positions.Nodup ∧
      (∀ q, q ∈ positions ↔ q ∈ p.literalPaths ∧ p.PassesBefore test t q) ∧
      (∀ q ∈ positions, ∀ r name ss, p.symbols.subtree? r = some (.node (.var name) ss) →
        ¬ r <+: q) ∧
      ((p.captureWith? test t).isSome = true →
        positions = p.literalPaths ∧ (p.testCalls test t).map (·.2) = p.literals) := by
  obtain ⟨visited, rest, whole, calls, visited_iff, complete⟩ := p.exists_visited test t
  have listed : ∀ n ∈ visited, n ∈ p.symbols.nodes := fun n hn =>
    whole ▸ List.mem_append_left rest hn
  have found : ∀ n ∈ visited, p.symbols.subtree? n.1 = some n.2 ∧
      ∃ u, t.subtree? n.1 = some u := by
    intro n hn
    have here := Tree.mem_nodes.1 (listed n hn)
    exact ⟨here, ((visited_iff n (listed n hn)).1 hn).covers here⟩
  have lead : literalsAmong visited <+: p.literalPaths := by
    rw [literalPaths, whole, literalsAmong_append]
    exact List.prefix_append _ _
  refine ⟨literalsAmong visited, calls ▸ calls_at found, lead,
    p.literalPaths_nodup.sublist lead.sublist, fun q => ?_, fun q hq r name ss hr => ?_,
    fun success => ?_⟩
  · rw [literalPaths, mem_literalsAmong, mem_literalsAmong]
    constructor
    · rintro ⟨text, ss, hn⟩
      exact ⟨⟨text, ss, listed _ hn⟩, (visited_iff _ (listed _ hn)).1 hn⟩
    · rintro ⟨⟨text, ss, hn⟩, passes⟩
      exact ⟨text, ss, (visited_iff _ hn).2 passes⟩
  · exact not_below_var (lead.subset hq) hr
  · rw [complete success, List.append_nil] at whole
    refine ⟨by rw [literalPaths, whole], ?_⟩
    rw [calls, texts_asked fun n hn => (found n hn).2, literals_eq_filterMap, ← Tree.nodes_values,
      List.filterMap_map, whole]
    rfl

end TreeRules.Pattern
