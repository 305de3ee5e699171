import TreeRules.Proofs.MatchingOrder
import TreeRules.Proofs.Occurrences
set_option autoImplicit false

namespace TreeRules

theorem Bindings.admit?_eq_some {α : Type} [BEq α] {b b' : Bindings (Tree α)} {name : String}
    {t : Tree α} :
    b.admit? name t = some b' ↔ (b.find? name = none ∧ b.insert name t = b') ∨
      ∃ bound, b.find? name = some bound ∧ bound.agrees t = true ∧ b = b' := by
  unfold Bindings.admit?
  cases b.find? name with
  | none => simp
  | some bound => simp

namespace Pattern

variable {α : Type}

/-- At the position of each literal the tree has a node with a value that passes the test and with
the same number of children. -/
def LiteralsHold (p : Pattern) (test : α → String → Bool) (t : Tree α) : Prop :=
  ∀ q text ss, p.symbols.subtree? q = some (.node (.literal text) ss) →
    ∃ v ts, t.subtree? q = some (.node v ts) ∧ test v text = true ∧ ts.length = ss.length

/-- The subtree at the first occurrence of a variable agrees with the subtree at each later one. -/
def RepeatsAgree [BEq α] (p : Pattern) (t : Tree α) : Prop :=
  ∀ name q q₀ ss, p.symbols.subtree? q = some (.node (.var name) ss) →
    p.firstPath? name = some q₀ → q₀ ≠ q →
    ∃ t₀ u, t.subtree? q₀ = some t₀ ∧ t.subtree? q = some u ∧ t₀.agrees u = true

section Recording

variable {look : Path → Option (Tree α)} {ns ks : List (Path × Tree Symbol)} {b : Bindings (Tree α)}

/-- The bindings after a walk over the nodes `ns`. -/
structure Recorded (look : Path → Option (Tree α)) (ns : List (Path × Tree Symbol))
    (b : Bindings (Tree α)) : Prop where
  unseen : ∀ name, firstOf ns name = none → b.find? name = none
  first : ∀ name q, firstOf ns name = some q → ∃ t, look q = some t ∧ b.find? name = some t
  distinct : b.names.Nodup

theorem recorded_nil : Recorded look [] .empty :=
  ⟨fun _ _ => rfl, fun _ _ h => by simp [firstOf] at h, List.nodup_nil⟩

theorem Recorded.congr (hb : Recorded look ns b)
    (same : ∀ name, firstOf ks name = firstOf ns name) : Recorded look ks b :=
  ⟨fun x hx => hb.unseen x (same x ▸ hx), fun x q hx => hb.first x q (same x ▸ hx), hb.distinct⟩

theorem Recorded.isSome_eq (hb : Recorded look ns b) (name : String) :
    (firstOf ns name).isSome = (b.find? name).isSome := by
  cases hq : firstOf ns name with
  | none => rw [hb.unseen name hq]; rfl
  | some q =>
    obtain ⟨t, _, ht⟩ := hb.first name q hq
    rw [ht]; rfl

theorem firstOf_single (n : Path × Tree Symbol) (name : String) :
    firstOf [n] name = if n.2.value = .var name then some n.1 else none := by
  by_cases h : n.2.value = .var name <;> simp [firstOf, h]

theorem firstOf_concat {n : Path × Tree Symbol}
    (old : ∀ name, n.2.value = .var name → (firstOf ns name).isSome = true) (name : String) :
    firstOf (ns ++ [n]) name = firstOf ns name := by
  rw [firstOf_append, firstOf_single]
  by_cases hn : n.2.value = .var name
  · exact Option.or_of_isSome (old name hn)
  · rw [if_neg hn, Option.or_none]

theorem Recorded.insert (hb : Recorded look ns b) {n : Path × Tree Symbol} {name : String}
    {t : Tree α} (hn : n.2.value = .var name) (ht : look n.1 = some t)
    (fresh : firstOf ns name = none) : Recorded look (ns ++ [n]) (b.insert name t) := by
  have first_eq (x : String) :
      firstOf (ns ++ [n]) x = if x = name then some n.1 else firstOf ns x := by
    rw [firstOf_append, firstOf_single, hn]
    by_cases hx : x = name
    · subst hx
      rw [fresh, if_pos rfl, if_pos rfl, Option.none_or]
    · have other : Symbol.var name ≠ .var x := fun e => hx (Symbol.var.inj e).symm
      rw [if_neg other, if_neg hx, Option.or_none]
  refine ⟨?_, ?_, Bindings.names_insert_nodup hb.distinct name t⟩
  · intro x hx
    rw [first_eq] at hx
    rw [Bindings.find?_insert]
    split at hx
    · exact absurd hx (by simp)
    · next other => rw [if_neg other]; exact hb.unseen x hx
  · intro x q hx
    rw [first_eq] at hx
    rw [Bindings.find?_insert]
    split at hx
    · next same =>
      rw [if_pos same, ← Option.some.inj hx]
      exact ⟨t, ht, rfl⟩
    · next other => rw [if_neg other]; exact hb.first x q hx

end Recording

variable [BEq α] {test : α → String → Bool} {look : Path → Option (Tree α)}

/-- What a node asks of the tree, given the whole listing `ns` of nodes. -/
def Passes (test : α → String → Bool) (look : Path → Option (Tree α))
    (ns : List (Path × Tree Symbol)) (n : Path × Tree Symbol) : Prop :=
  ∃ t, look n.1 = some t ∧
    match n.2.value with
    | .literal text => test t.value text = true ∧ t.children.length = n.2.children.length
    | .var name => ∀ q, firstOf ns name = some q → q ≠ n.1 →
      ∃ t₀, look q = some t₀ ∧ t₀.agrees t = true

theorem check?_recorded {ns : List (Path × Tree Symbol)} {n : Path × Tree Symbol}
    {b b' : Bindings (Tree α)} (hb : Recorded look ns b) (h : check? test look n b = some b') :
    Recorded look (ns ++ [n]) b' := by
  unfold check? at h
  cases ht : look n.1 with
  | none => simp [ht] at h
  | some t =>
    cases hn : n.2.value with
    | literal text =>
      simp only [ht, hn, Option.ite_none_right_eq_some, Option.some.injEq] at h
      obtain ⟨_, rfl⟩ := h
      exact hb.congr (firstOf_concat fun name hname => by simp [hn] at hname)
    | var name =>
      simp only [ht, hn] at h
      have known := hb.isSome_eq name
      rcases Bindings.admit?_eq_some.1 h with ⟨hfind, rfl⟩ | ⟨bound, hfind, _, rfl⟩
      · rw [hfind, Option.isSome_none, Option.isSome_eq_false_iff, Option.isNone_iff_eq_none] at known
        exact hb.insert hn ht known
      · rw [hfind, Option.isSome_some] at known
        refine hb.congr (firstOf_concat fun x hx => ?_)
        rw [hn, Symbol.var.injEq] at hx
        exact hx ▸ known

theorem check?_isSome {ns ks : List (Path × Tree Symbol)} {n : Path × Tree Symbol}
    {b : Bindings (Tree α)} (hb : Recorded look ns b) (apart : n.1 ∉ ns.map (·.1)) :
    (check? test look n b).isSome = true ↔ Passes test look (ns ++ n :: ks) n := by
  unfold check? Passes
  cases ht : look n.1 with
  | none => simp
  | some t =>
    cases hn : n.2.value with
    | literal text => simp
    | var name =>
      simp only [Option.some.injEq, exists_eq_left']
      rw [show ns ++ n :: ks = ns ++ ([n] ++ ks) from rfl, firstOf_append, firstOf_append,
        firstOf_single, if_pos hn, Option.some_or]
      -- the first occurrence is `n` itself, unless an earlier node has bound the variable
      unfold Bindings.admit?
      cases hq : firstOf ns name with
      | none =>
        rw [hb.unseen name hq, Option.none_or]
        simp only [Option.isSome_some, true_iff]
        intro q here other
        exact absurd (Option.some.inj here).symm other
      | some q =>
        obtain ⟨t₀, hlook, hfind⟩ := hb.first name q hq
        have earlier : q ≠ n.1 := fun e => apart (e ▸ firstOf_mem hq)
        rw [hfind, Option.some_or]
        simp [hlook, earlier]

theorem checkAll?_recorded {ns ks : List (Path × Tree Symbol)} {b b' : Bindings (Tree α)}
    (hb : Recorded look ns b) (h : checkAll? test look ks b = some b') :
    Recorded look (ns ++ ks) b' := by
  induction ks generalizing ns b with
  | nil =>
    rw [List.append_nil, ← Option.some.inj h]
    exact hb
  | cons k ks ih =>
    obtain ⟨b₁, hstep, hrest⟩ := Option.bind_eq_some_iff.1 h
    have next := ih (check?_recorded hb hstep) hrest
    rwa [List.append_assoc, List.singleton_append] at next

theorem checkAll?_isSome {ns ks : List (Path × Tree Symbol)} {b : Bindings (Tree α)}
    (hb : Recorded look ns b) (distinct : ((ns ++ ks).map (·.1)).Nodup) :
    (checkAll? test look ks b).isSome = true ↔ ∀ k ∈ ks, Passes test look (ns ++ ks) k := by
  induction ks generalizing ns b with
  | nil => simp [checkAll?]
  | cons k ks ih =>
    have apart : k.1 ∉ ns.map (·.1) := by
      rw [List.map_append, List.nodup_append] at distinct
      exact fun hk => distinct.2.2 k.1 hk k.1 (by simp) rfl
    have step : (check? test look k b).isSome = true ↔ Passes test look (ns ++ k :: ks) k :=
      check?_isSome hb apart
    have split : ns ++ k :: ks = ns ++ [k] ++ ks := by simp
    rw [checkAll?, List.forall_mem_cons, ← step]
    cases hk : check? test look k b with
    | none => simp
    | some b₁ =>
      rw [Option.bind_some, Option.isSome_some, split,
        ih (check?_recorded hb hk) (split ▸ distinct)]
      simp

omit [BEq α] in
theorem LiteralsHold.covers {p : Pattern} {t : Tree α} (h : p.LiteralsHold test t) {q : Path}
    {s : Tree Symbol} (hq : p.symbols.subtree? q = some s) : ∃ u, t.subtree? q = some u := by
  induction p using Pattern.induction generalizing t q with
  | var name =>
    cases q with
    | nil => exact ⟨t, Tree.subtree?_nil t⟩
    | cons i q => simp [Tree.leaf] at hq
  | node text ps ih =>
    cases q with
    | nil => exact ⟨t, Tree.subtree?_nil t⟩
    | cons i q =>
      rw [symbols_node, Tree.subtree?_cons, List.getElem?_map] at hq
      obtain ⟨_, hs, hq⟩ := Option.bind_eq_some_iff.1 hq
      obtain ⟨p, hp, rfl⟩ := Option.map_eq_some_iff.1 hs
      have root : (node text ps).symbols.subtree? [] = some (.node (.literal text) (ps.map symbols)) := by
        rw [Tree.subtree?_nil, symbols_node]
      -- the literal at the root holds, so the tree has a child wherever the pattern has one
      obtain ⟨v, ts, ht, _, arity⟩ := h [] text (ps.map symbols) root
      rw [Tree.subtree?_nil] at ht
      obtain rfl := Option.some.inj ht
      have inside : i < ts.length := by
        rw [arity, List.length_map]
        exact (List.getElem?_eq_some_iff.1 hp).1
      have child : p.LiteralsHold test ts[i] := by
        intro r text' ss hr
        have below : (node text ps).symbols.subtree? (i :: r) = some (.node (.literal text') ss) := by
          rw [symbols_node, Tree.subtree?_cons, List.getElem?_map, hp]
          exact hr
        have found := h (i :: r) text' ss below
        rwa [Tree.subtree?_cons, List.getElem?_eq_getElem inside] at found
      obtain ⟨u, hu⟩ := ih p (List.mem_of_getElem? hp) child hq
      refine ⟨u, ?_⟩
      rw [Tree.subtree?_cons, List.getElem?_eq_getElem inside]
      exact hu

theorem all_pass_iff (p : Pattern) (t : Tree α) :
    (∀ n ∈ p.symbols.nodes, Passes test t.subtree? p.symbols.nodes n) ↔
      p.LiteralsHold test t ∧ p.RepeatsAgree t := by
  constructor
  · intro h
    constructor
    · intro q text ss hq
      obtain ⟨u, hu, passed, arity⟩ := h (q, .node (.literal text) ss) (Tree.mem_nodes.2 hq)
      exact ⟨u.value, u.children, by rw [hu, Tree.node_eta], passed, arity⟩
    · intro name q q₀ ss hq hfirst other
      obtain ⟨u, hu, agree⟩ := h (q, .node (.var name) ss) (Tree.mem_nodes.2 hq)
      obtain ⟨t₀, ht₀, h₀⟩ := agree q₀ hfirst other
      exact ⟨t₀, u, ht₀, hu, h₀⟩
  · rintro ⟨literals, repeats⟩ ⟨q, s⟩ hn
    have hq := Tree.mem_nodes.1 hn
    obtain ⟨u, hu⟩ := literals.covers hq
    refine ⟨u, hu, ?_⟩
    cases s with
    | node symbol ss =>
      cases symbol with
      | literal text =>
        obtain ⟨v, ts, hv, passed, arity⟩ := literals q text ss hq
        obtain rfl := Option.some.inj (hu.symm.trans hv)
        exact ⟨passed, arity⟩
      | var name =>
        intro q₀ hfirst other
        obtain ⟨t₀, u', ht₀, hu', agree⟩ := repeats name q q₀ ss hq hfirst other
        obtain rfl := Option.some.inj (hu.symm.trans hu')
        exact ⟨t₀, ht₀, agree⟩

theorem captureWith?_isSome (p : Pattern) (t : Tree α) :
    (p.captureWith? test t).isSome = true ↔ p.LiteralsHold test t ∧ p.RepeatsAgree t := by
  rw [captureWith?_eq_checkAll?, ← all_pass_iff]
  exact checkAll?_isSome recorded_nil (Tree.positions_nodup p.symbols)

theorem captureWith?_recorded {p : Pattern} {t : Tree α} {b : Bindings (Tree α)}
    (h : p.captureWith? test t = some b) : Recorded t.subtree? p.symbols.nodes b := by
  rw [captureWith?_eq_checkAll?] at h
  exact checkAll?_recorded recorded_nil h

theorem mem_names_capture {p : Pattern} {t : Tree α} {b : Bindings (Tree α)}
    (h : p.captureWith? test t = some b) (name : String) : name ∈ b.names ↔ name ∈ p.vars := by
  rw [Bindings.mem_names, ← (captureWith?_recorded h).isSome_eq name]
  exact firstPath?_isSome

theorem exists_subtree_of_capture {p : Pattern} {t u : Tree α} {b : Bindings (Tree α)}
    (h : p.captureWith? test t = some b) {name : String} (hu : b.find? name = some u) :
    ∃ q, t.subtree? q = some u := by
  have record := captureWith?_recorded h
  cases hq : firstOf p.symbols.nodes name with
  | none =>
    rw [record.unseen name hq] at hu
    exact absurd hu (by simp)
  | some q =>
    obtain ⟨t₀, here, found⟩ := record.first name q hq
    exact ⟨q, by rw [here, ← found, hu]⟩

/-- Matching is the conjunction of what each position of the pattern asks for, and its bindings are
the subtrees at the first occurrences of exactly the variables. -/
theorem capture_iff_positions (p : Pattern) (t : Tree α) (test : α → String → Bool) :
    ((p.captureWith? test t).isSome = true ↔ p.LiteralsHold test t ∧ p.RepeatsAgree t) ∧
      (p.matchesWith test t = true ↔ p.LiteralsHold test t ∧ p.RepeatsAgree t) ∧
      ∀ b, p.captureWith? test t = some b →
        b.names.Nodup ∧ (∀ name, name ∈ b.names ↔ name ∈ p.vars) ∧ b.size = p.vars.length ∧
          ∀ name ∈ p.vars, ∃ q u, p.firstPath? name = some q ∧ t.subtree? q = some u ∧
            b.find? name = some u := by
  refine ⟨captureWith?_isSome p t, captureWith?_isSome p t, ?_⟩
  intro b hb
  have record := captureWith?_recorded hb
  have same := mem_names_capture hb
  refine ⟨record.distinct, same, ?_, ?_⟩
  · have perm := (List.perm_ext_iff_of_nodup record.distinct p.vars_nodup).2 same
    rw [← perm.length_eq, Bindings.names, List.length_map, Bindings.size]
  · intro name hn
    obtain ⟨q, hq⟩ := Option.isSome_iff_exists.1 (firstPath?_isSome.2 hn)
    obtain ⟨u, hu, hfind⟩ := record.first name q hq
    exact ⟨q, u, hq, hu, hfind⟩

end Pattern
end TreeRules
