import TreeRules.Rule.Application
import TreeRules.Proofs.MatchingMeaning
import TreeRules.Proofs.Observation
import TreeRules.Proofs.Updating
set_option autoImplicit false

namespace TreeRules

namespace Rule

variable {α : Type} [BEq α] (r : Rule) (test : α → String → Bool)

theorem template_bound {t : Tree α} {b : Bindings (Tree α)}
    (h : r.pattern.captureWith? test t = some b) : r.template.Bound b := by
  intro name hn
  have used : name ∈ r.pattern.vars := r.bound name (Pattern.mem_vars.2 hn)
  exact Bindings.mem_names.1 ((Pattern.mem_names_capture h name).2 used)

def searchCalls (ns : List (Path × Tree α)) : List (α × String) :=
  ns.flatMap fun n => r.pattern.testCalls test n.2

theorem searchCalls_append (ns ks : List (Path × Tree α)) :
    r.searchCalls test (ns ++ ks) = r.searchCalls test ns ++ r.searchCalls test ks :=
  List.flatMap_append

theorem searchCalls_cons (n : Path × Tree α) (ns : List (Path × Tree α)) :
    r.searchCalls test (n :: ns) = r.pattern.testCalls test n.2 ++ r.searchCalls test ns :=
  List.flatMap_cons

section
variable {m : Type → Type} [Monad m] [LawfulMonad m] (observe : α → String → m Unit)
  (mapper : String → m α)

theorem applyM_watched (t : Tree α) :
    r.applyM (Pattern.watched test observe) mapper t = (do
      forM (r.pattern.testCalls test t) fun c => observe c.1 c.2
      match r.pattern.captureWith? test t with
      | none => pure none
      | some b =>
        let made ← r.template.instantiateM mapper b
        pure made.toOption) := by
  rw [applyM, Pattern.captureM_watched, Pattern.testCalls_eq_askedAll, bind_assoc]
  refine congrArg _ (funext fun _ => ?_)
  exact pure_bind ..

theorem searchM_miss {ns : List (Path × Tree α)}
    (h : ∀ n ∈ ns, r.pattern.captureWith? test n.2 = none) :
    Tree.searchM (r.applyM (Pattern.watched test observe) mapper) ns = (do
      forM (r.searchCalls test ns) fun c => observe c.1 c.2
      pure none) := by
  induction ns with
  | nil => simp [Tree.searchM, searchCalls]
  | cons n ns ih =>
    have later := ih fun k hk => h k (List.mem_cons_of_mem n hk)
    rw [Tree.searchM, applyM_watched, h n List.mem_cons_self, later, searchCalls_cons,
      List.forM_append]
    simp only [bind_assoc, pure_bind]

theorem searchM_hit {n : Path × Tree α} {b : Bindings (Tree α)}
    (h : r.pattern.captureWith? test n.2 = some b) (ns : List (Path × Tree α)) :
    Tree.searchM (r.applyM (Pattern.watched test observe) mapper) (n :: ns) = (do
      forM (r.pattern.testCalls test n.2) fun c => observe c.1 c.2
      let made ← r.template.instantiateM mapper b
      pure (made.toOption.map fun new => (n.1, new))) := by
  -- the template is bound, so the branch that searches on after a failure is never taken
  obtain ⟨make, hmake⟩ := Pattern.instantiateM_bound mapper (r.template_bound test h)
  rw [Tree.searchM, applyM_watched, h]
  simp only [hmake, bind_assoc, pure_bind, Except.toOption, Option.map_some]

theorem applyFirstM_miss {t : Tree α}
    (h : ∀ n ∈ t.nodes, r.pattern.captureWith? test n.2 = none) :
    r.applyFirstM (Pattern.watched test observe) mapper t = (do
      forM (r.searchCalls test t.nodes) fun c => observe c.1 c.2
      pure none) := by
  rw [applyFirstM, Tree.updateFirstM_eq_searchM, searchM_miss r test observe mapper h]
  simp only [bind_assoc, pure_bind, Option.map_none]

theorem applyFirstM_hit {t : Tree α} {before after : List (Path × Tree α)} {n : Path × Tree α}
    {b : Bindings (Tree α)} (split : t.nodes = before ++ n :: after)
    (miss : ∀ k ∈ before, r.pattern.captureWith? test k.2 = none)
    (hit : r.pattern.captureWith? test n.2 = some b) :
    r.applyFirstM (Pattern.watched test observe) mapper t = (do
      forM (r.searchCalls test (before ++ [n])) fun c => observe c.1 c.2
      let made ← r.template.instantiateM mapper b
      pure (made.toOption.map fun new => Tree.replaceAt new n.1 t)) := by
  rw [applyFirstM, Tree.updateFirstM_eq_searchM, split, Tree.searchM_append,
    searchM_miss r test observe mapper miss, searchM_hit r test observe mapper hit,
    searchCalls_append, searchCalls_cons, List.forM_append, List.forM_append]
  simp only [bind_assoc, pure_bind, Option.map_map, searchCalls, List.flatMap_nil, List.forM_nil]
  rfl

end

variable {σ : Type} (mapper : String → StateM σ α)

theorem applyFirstM_of_applyM (observed : α → String → StateM σ Bool) {t u : Tree α} {s s' : σ}
    (h : (r.applyM observed mapper t).run s = (some u, s')) :
    (r.applyFirstM observed mapper t).run s = (some u, s') := by
  cases t with
  | node v ts =>
    rw [applyFirstM, Tree.updateFirstM, StateT.run_bind, h]
    rfl

def runFirst (t : Tree α) (s : σ) : Option (Tree α) × Calls (Call α) σ :=
  (r.applyFirstM (noteTest test) (noteMapper mapper) t).run (.start s)

theorem runFirst_miss {t : Tree α} (h : ∀ n ∈ t.nodes, r.pattern.captureWith? test n.2 = none)
    (s : σ) : r.runFirst test mapper t s =
      (none, ⟨(r.searchCalls test t.nodes).map .tested, s⟩) := by
  rw [runFirst, noteTest, applyFirstM_miss r test noteCall _ h, StateT.run_bind, Calls.start,
    forM_noteCall]
  rfl

theorem runFirst_hit {t : Tree α} {before after : List (Path × Tree α)} {n : Path × Tree α}
    {b : Bindings (Tree α)} (split : t.nodes = before ++ n :: after)
    (miss : ∀ k ∈ before, r.pattern.captureWith? test k.2 = none)
    (hit : r.pattern.captureWith? test n.2 = some b) (s : σ) :
    ∃ new s', (r.template.instantiateM mapper b).run s = (.ok new, s') ∧
      r.runFirst test mapper t s = (some (Tree.replaceAt new n.1 t),
        ⟨(r.searchCalls test (before ++ [n])).map .tested ++ r.template.literals.map .mapped,
          s'⟩) := by
  let log : List (Call α) := (r.searchCalls test (before ++ [n])).map .tested
  obtain ⟨new, s', plain, noted⟩ :=
    Pattern.instantiateM_noted mapper (r.template_bound test hit) log s
  refine ⟨new, s', plain, ?_⟩
  rw [runFirst, noteTest, applyFirstM_hit r test noteCall _ split miss hit, StateT.run_bind,
    Calls.start, forM_noteCall]
  change (r.template.instantiateM (noteMapper mapper) b >>= _ : StateM (Calls (Call α) σ) _).run
    ⟨log, s⟩ = _
  rw [StateT.run_bind, noted]
  rfl

/-- The search rewrites at the first position in pre-order that the pattern matches, and nothing
else changes. The test is called as the matches up to that position call it, and after it the mapper
for the one instantiation. -/
theorem applyFirst_rewrites_first_match (t : Tree α) (s : σ) :
    ((r.runFirst test mapper t s).1 = none ↔
      ∀ u ∈ t.subtrees, r.pattern.matchesWith test u = false) ∧
    ((r.runFirst test mapper t s).1 = none →
      (r.runFirst test mapper t s).2 = ⟨(r.searchCalls test t.nodes).map .tested, s⟩) ∧
    (∀ u, (r.runFirst test mapper t s).1 = some u →
      ∃ before p matched after b new s', t.nodes = before ++ (p, matched) :: after ∧
        (∀ n ∈ before, r.pattern.matchesWith test n.2 = false) ∧
        r.pattern.captureWith? test matched = some b ∧
        (r.template.instantiateM mapper b).run s = (.ok new, s') ∧
        Tree.Replaced new p t u ∧
        (r.runFirst test mapper t s).2 =
          ⟨(r.searchCalls test (before ++ [(p, matched)])).map .tested ++
            r.template.literals.map .mapped, s'⟩) ∧
    ∀ u calls, (r.applyM (noteTest test) (noteMapper mapper) t).run (.start s) = (some u, calls) →
      r.runFirst test mapper t s = (some u, calls) := by
  have refused {u : Tree α} :
      r.pattern.matchesWith test u = false ↔ r.pattern.captureWith? test u = none := by
    rw [Pattern.matchesWith, Option.isSome_eq_false_iff, Option.isNone_iff_eq_none]
  have at_root (u : Tree α) (calls : Calls (Call α) σ)
      (h : (r.applyM (noteTest test) (noteMapper mapper) t).run (.start s) = (some u, calls)) :
      r.runFirst test mapper t s = (some u, calls) :=
    applyFirstM_of_applyM r (noteMapper mapper) (noteTest test) h
  cases found : t.nodes.findSome? fun n => r.pattern.captureWith? test n.2 with
  | none =>
    -- without a match the search visits every node and rewrites nothing
    have miss := List.findSome?_eq_none_iff.1 found
    rw [runFirst_miss r test mapper miss] at at_root ⊢
    refine ⟨⟨fun _ u hu => ?_, fun _ => rfl⟩, fun _ => rfl, fun u hu => by simp at hu, at_root⟩
    obtain ⟨n, hn, rfl⟩ := List.mem_map.1 hu
    exact refused.2 (miss n hn)
  | some b =>
    obtain ⟨before, ⟨p, u⟩, after, split, hit, miss⟩ := List.findSome?_eq_some_iff.1 found
    obtain ⟨new, s', made, run⟩ := runFirst_hit r test mapper split miss hit s
    have here := Tree.subtree?_of_split split
    have inside : (t.subtree? p).isSome = true := by
      rw [here]
      rfl
    rw [run] at at_root ⊢
    refine ⟨⟨fun none => by simp at none, fun all => ?_⟩, fun none => by simp at none, ?_, at_root⟩
    · have none := refused.1 (all u (List.mem_map_of_mem (Tree.mem_nodes.2 here)))
      rw [hit] at none
      exact absurd none (by simp)
    · intro v hv
      obtain rfl := Option.some.inj hv
      exact ⟨before, p, u, after, b, new, s', split, fun n hn => refused.2 (miss n hn), hit, made,
        Tree.replaced new inside, rfl⟩

def firstMatch? (t : Tree α) : Option (Path × Bindings (Tree α)) :=
  t.nodes.findSome? fun n => (r.pattern.captureWith? test n.2).map fun b => (n.1, b)

theorem firstMatch?_eq_none {t : Tree α} :
    r.firstMatch? test t = none ↔ ∀ n ∈ t.nodes, r.pattern.captureWith? test n.2 = none := by
  simp only [firstMatch?, List.findSome?_eq_none_iff, Option.map_eq_none_iff]

theorem firstMatch?_eq_some {t : Tree α} {p : Path} {b : Bindings (Tree α)} :
    r.firstMatch? test t = some (p, b) ↔ ∃ before matched after,
      t.nodes = before ++ (p, matched) :: after ∧
      (∀ k ∈ before, r.pattern.captureWith? test k.2 = none) ∧
      r.pattern.captureWith? test matched = some b := by
  simp only [firstMatch?, List.findSome?_eq_some_iff, Option.map_eq_some_iff,
    Option.map_eq_none_iff, Prod.mk.injEq]
  constructor
  · rintro ⟨before, ⟨q, matched⟩, after, split, ⟨c, hit, rfl, rfl⟩, miss⟩
    exact ⟨before, matched, after, split, miss, hit⟩
  · rintro ⟨before, matched, after, split, miss, hit⟩
    exact ⟨before, (p, matched), after, split, ⟨b, hit, rfl, rfl⟩, miss⟩

def runApplyFirst (t : Tree α) (s : σ) : Option (Tree α) × σ :=
  (r.applyFirstM (fun v text => pure (test v text)) mapper t).run s

theorem runApplyFirst_miss {t : Tree α} (h : r.firstMatch? test t = none) (s : σ) :
    r.runApplyFirst test mapper t s = (none, s) := by
  rw [runApplyFirst, ← Pattern.watched_silent,
    applyFirstM_miss r test _ mapper ((firstMatch?_eq_none r test).1 h), Pattern.forM_silent]
  rfl

theorem runApplyFirst_hit {t : Tree α} {p : Path} {b : Bindings (Tree α)}
    (h : r.firstMatch? test t = some (p, b)) (s : σ) :
    ∃ new s', (r.template.instantiateM mapper b).run s = (.ok new, s') ∧
      r.runApplyFirst test mapper t s = (some (Tree.replaceAt new p t), s') := by
  obtain ⟨before, matched, after, split, miss, hit⟩ := (firstMatch?_eq_some r test).1 h
  obtain ⟨make, hmake⟩ := Pattern.instantiateM_bound mapper (r.template_bound test hit)
  refine ⟨(make.run s).1, (make.run s).2, ?_, ?_⟩
  · rw [hmake]
    rfl
  · rw [runApplyFirst, ← Pattern.watched_silent, applyFirstM_hit r test _ mapper split miss hit,
      Pattern.forM_silent, hmake]
    rfl

theorem applyFirstWith_miss {mapper : String → α} {t : Tree α} (h : r.firstMatch? test t = none) :
    r.applyFirstWith test mapper t = none := by
  rw [applyFirstWith, ← Pattern.watched_silent,
    applyFirstM_miss r test _ _ ((firstMatch?_eq_none r test).1 h), Pattern.forM_silent]
  rfl

theorem applyFirstWith_hit {mapper : String → α} {t : Tree α} {p : Path} {b : Bindings (Tree α)}
    (h : r.firstMatch? test t = some (p, b)) :
    ∃ new, r.template.instantiate mapper b = .ok new ∧
      r.applyFirstWith test mapper t = some (Tree.replaceAt new p t) := by
  obtain ⟨before, matched, after, split, miss, hit⟩ := (firstMatch?_eq_some r test).1 h
  obtain ⟨new, made⟩ := Pattern.instantiate_bound mapper (r.template_bound test hit)
  refine ⟨new, made, ?_⟩
  rw [applyFirstWith, ← Pattern.watched_silent, applyFirstM_hit r test _ _ split miss hit,
    Pattern.forM_silent]
  change (r.template.instantiate mapper b).toOption.map _ = _
  rw [made]
  rfl

end Rule
end TreeRules
