import TreeRules.Proofs.FirstMatch
set_option autoImplicit false

namespace TreeRules

theorem eraseDups_pairwise (names : List String) :
    names.eraseDups.Pairwise fun x y =>
      ∃ before after, names = before ++ x :: after ∧ y ∉ before := by
  cases names with
  | nil => exact List.Pairwise.nil
  | cons name names =>
    rw [List.eraseDups_cons, List.pairwise_cons]
    refine ⟨fun y _ => ⟨[], names, rfl, List.not_mem_nil⟩, ?_⟩
    refine (eraseDups_pairwise (names.filter fun other => !other == name)).imp_of_mem ?_
    rintro x y _ hy ⟨before, after, split, fresh⟩
    obtain ⟨_, other⟩ := List.mem_filter.1 (List.mem_eraseDups.1 hy)
    -- a split of the filtered list comes from one of the whole list
    obtain ⟨early, late, rfl, rfl, hlate⟩ := List.filter_eq_append_iff.1 split
    obtain ⟨gap, rest, rfl, skipped, _, _⟩ := List.filter_eq_cons_iff.1 hlate
    refine ⟨name :: (early ++ gap), rest, by simp, ?_⟩
    intro hmem
    rcases List.mem_cons.1 hmem with rfl | hmem
    · simp at other
    · rcases List.mem_append.1 hmem with hmem | hmem
      · exact fresh (List.mem_filter.2 ⟨hmem, other⟩)
      · exact skipped y hmem other
termination_by names.length
decreasing_by
  have shorter := List.length_filter_le (fun other => !other == name) names
  rw [List.length_cons]
  omega

namespace Pattern

/-- The first occurrence of `x` comes before that of `y` in pre-order. -/
def OccursBefore (p : Pattern) (x y : String) : Prop :=
  ∃ q r, p.firstPath? x = some q ∧ p.firstPath? y = some r ∧ q < r

theorem names_eq_nodes (p : Pattern) :
    p.names = p.symbols.nodes.filterMap fun n => n.2.value.name? := by
  rw [names_eq_filterMap, ← Tree.nodes_values, List.filterMap_map]
  rfl

theorem name?_eq_some {s : Symbol} {name : String} : s.name? = some name ↔ s = .var name := by
  cases s <;> simp [Symbol.name?]

theorem vars_ordered (p : Pattern) : p.vars.Pairwise p.OccursBefore := by
  refine ((eraseDups_pairwise p.names).and p.vars_nodup).imp_of_mem ?_
  rintro x y hx hy ⟨⟨before, after, split, fresh⟩, other⟩
  rw [names_eq_nodes] at split
  obtain ⟨lead, tail, hnodes, rfl, htail⟩ := List.filterMap_eq_append_iff.1 split
  obtain ⟨gap, n, late, rfl, nameless, hn, _⟩ := List.filterMap_eq_cons_iff.1 htail
  let early := lead ++ (gap ++ [n])
  have whole : p.symbols.nodes = early ++ late := by
    rw [hnodes]
    simp [early]
  have seen : (firstOf early x).isSome = true :=
    firstOf_isSome.2 ⟨n, by simp [early], name?_eq_some.1 hn⟩
  have unseen : firstOf early y = none := by
    rw [← Option.not_isSome_iff_eq_none, firstOf_isSome]
    rintro ⟨m, hm, hy⟩
    have named : m.2.value.name? = some y := name?_eq_some.2 hy
    rcases List.mem_append.1 hm with hm | hm
    · exact fresh (List.mem_filterMap.2 ⟨m, hm, named⟩)
    · rcases List.mem_append.1 hm with hm | hm
      · rw [nameless m hm] at named
        simp at named
      · rw [List.mem_singleton.1 hm, hn] at named
        exact other (Option.some.inj named)
  obtain ⟨q, hq⟩ := Option.isSome_iff_exists.1 seen
  obtain ⟨r, hr⟩ := Option.isSome_iff_exists.1 (firstPath?_isSome.2 hy)
  have first : p.firstPath? x = some q := by rw [firstPath?, whole, firstOf_append, hq, Option.some_or]
  have later : firstOf late y = some r := by
    rwa [firstPath?, whole, firstOf_append, unseen, Option.none_or] at hr
  have ascending := Tree.nodes_ascending p.symbols
  rw [whole, List.map_append, List.pairwise_append] at ascending
  exact ⟨q, r, first, hr, ascending.2.2 q (firstOf_mem hq) r (firstOf_mem later)⟩

end Pattern

namespace Rule

variable {pattern template : Pattern}

theorem mem_missing {name : String} :
    name ∈ missing pattern template ↔ name ∈ template.names ∧ name ∉ pattern.names := by
  rw [missing, without, List.mem_filter, Pattern.mem_vars, Bool.not_eq_true',
    List.contains_eq_mem, decide_eq_false_iff_not, Pattern.mem_vars]

theorem missing_eq_nil :
    missing pattern template = [] ↔ ∀ name ∈ template.names, name ∈ pattern.names := by
  rw [List.eq_nil_iff_forall_not_mem]
  refine forall_congr' fun name => ?_
  rw [mem_missing, Decidable.not_and_not_right]

theorem ofPatterns_ok {r : Rule} :
    ofPatterns pattern template = .ok r ↔ r.pattern = pattern ∧ r.template = template := by
  unfold ofPatterns
  constructor
  · intro h
    split at h
    · rw [← Except.ok.inj h]
      exact ⟨rfl, rfl⟩
    · simp at h
  · rintro ⟨rfl, rfl⟩
    have none : missing r.pattern r.template = [] := missing_eq_nil.2 fun name hn =>
      Pattern.mem_vars.1 (r.bound name (Pattern.mem_vars.2 hn))
    rw [dif_pos none]

theorem ofPatterns_missing (h : ¬ ∀ name ∈ template.names, name ∈ pattern.names) :
    ofPatterns pattern template = .error (.missing (missing pattern template)) := by
  rw [ofPatterns, dif_neg (mt missing_eq_nil.1 h)]

section

variable {α : Type} [BEq α] (r : Rule) (test : α → String → Bool)

theorem applyM_pure {m : Type → Type} [Monad m] [LawfulMonad m] (mapper : String → m α)
    (t : Tree α) :
    r.applyM (fun v text => pure (test v text)) mapper t =
      (match r.pattern.captureWith? test t with
      | none => pure none
      | some b => do
        let made ← r.template.instantiateM mapper b
        pure made.toOption) := by
  rw [← Pattern.watched_silent, applyM_watched, Pattern.forM_silent]
  cases r.pattern.captureWith? test t <;> exact pure_bind _ _

theorem applyWith_eq_some {r : Rule} {test : α → String → Bool} {mapper : String → α}
    {t u : Tree α} :
    r.applyWith test mapper t = some u ↔
      ∃ b, r.pattern.captureWith? test t = some b ∧ r.template.instantiate mapper b = .ok u := by
  have run : r.applyWith test mapper t =
      (r.pattern.captureWith? test t).bind fun b => (r.template.instantiate mapper b).toOption := by
    rw [applyWith, applyM_pure]
    cases r.pattern.captureWith? test t <;> rfl
  rw [run, Option.bind_eq_some_iff]
  refine exists_congr fun b => and_congr_right fun _ => ?_
  cases r.template.instantiate mapper b <;> simp [Except.toOption]

variable {σ : Type} (mapper : String → StateM σ α) (t : Tree α) (s : σ)

def runApply : Option (Tree α) × σ :=
  (r.applyM (fun v text => pure (test v text)) mapper t).run s

theorem runApply_miss (h : r.pattern.captureWith? test t = none) :
    r.runApply test mapper t s = (none, s) := by
  rw [runApply, applyM_pure, h]
  rfl

theorem runApply_hit {b : Bindings (Tree α)} (h : r.pattern.captureWith? test t = some b) :
    ∃ u s', (r.template.instantiateM mapper b).run s = (.ok u, s') ∧
      r.runApply test mapper t s = (some u, s') := by
  -- the match binds the template, so the instance is made whatever the mapper does
  obtain ⟨make, hmake⟩ := Pattern.instantiateM_bound mapper (r.template_bound test h)
  refine ⟨(make.run s).1, (make.run s).2, ?_, ?_⟩
  · rw [hmake]
    rfl
  · rw [runApply, applyM_pure, h]
    simp only [hmake]
    rfl

end

/-- Validation accepts a pattern and a template if each variable of the template occurs in the
pattern, and else reports those that do not. A validated rule applies to exactly the trees that its
pattern matches, and the result is the instance of the template under the bindings of the match. -/
theorem validated_applies_iff_matches {α σ : Type} [BEq α] :
    (∀ pattern template : Pattern,
      ((∃ r, ofPatterns pattern template = .ok r) ↔
        ∀ name ∈ template.names, name ∈ pattern.names) ∧
      (∀ r, ofPatterns pattern template = .ok r →
        r.pattern = pattern ∧ r.template = template) ∧
      ((¬ ∀ name ∈ template.names, name ∈ pattern.names) →
        ∃ names, ofPatterns pattern template = .error (.missing names) ∧ names.Nodup ∧
          (∀ name, name ∈ names ↔ name ∈ template.names ∧ name ∉ pattern.names) ∧
          names.Pairwise template.OccursBefore)) ∧
    ∀ (r : Rule) (test : α → String → Bool) (mapper : String → StateM σ α) (t : Tree α) (s : σ),
      ((r.runApply test mapper t s).1.isSome = true ↔
        (r.pattern.captureWith? test t).isSome = true) ∧
      ∀ b, r.pattern.captureWith? test t = some b →
        ∃ u s', (r.template.instantiateM mapper b).run s = (.ok u, s') ∧
          r.runApply test mapper t s = (some u, s') := by
  constructor
  · intro pattern template
    refine ⟨⟨?_, ?_⟩, fun r => ofPatterns_ok.1, fun h => ?_⟩
    · rintro ⟨r, hr⟩
      obtain ⟨rfl, rfl⟩ := ofPatterns_ok.1 hr
      intro name hn
      exact Pattern.mem_vars.1 (r.bound name (Pattern.mem_vars.2 hn))
    · intro h
      exact ⟨⟨pattern, template, bound_of_missing (missing_eq_nil.2 h)⟩, ofPatterns_ok.2 ⟨rfl, rfl⟩⟩
    · refine ⟨missing pattern template, ofPatterns_missing h, ?_, fun _ => mem_missing, ?_⟩
      · exact template.vars_nodup.sublist List.filter_sublist
      · exact template.vars_ordered.sublist List.filter_sublist
  · intro r test mapper t s
    refine ⟨?_, fun b hb => runApply_hit r test mapper t s hb⟩
    cases h : r.pattern.captureWith? test t with
    | none => simp [runApply_miss r test mapper t s h]
    | some b =>
      obtain ⟨u, s', _, run⟩ := runApply_hit r test mapper t s h
      simp [run]

end Rule

end TreeRules
