import Mathlib.Tactic.Choose
import TreeRules.Label
import TreeRules.Proofs.Validation
set_option autoImplicit false

/-!
# Renaming variables

A renaming that keeps the variables of a rule apart has no influence on what the rule does. Matching
under new names binds the new names to the same subtrees, with the same calls of the test, and what
an application makes of them is the same. This holds in every monad, so it is the same with all the
effects of test and mapper.
-/

namespace TreeRules

/-- No two of the names become one. -/
def KeepsApart (ρ : String → String) (names : List String) : Prop :=
  ∀ x ∈ names, ∀ y ∈ names, ρ x = ρ y → x = y

instance (ρ : String → String) (names : List String) : Decidable (KeepsApart ρ names) :=
  inferInstanceAs (Decidable (∀ x ∈ names, ∀ y ∈ names, ρ x = ρ y → x = y))

namespace Bindings

variable {β : Type} {ρ : String → String} {names : List String} {b : Bindings β}

def rename (ρ : String → String) (b : Bindings β) : Bindings β :=
  ⟨b.entries.map fun e => (ρ e.1, e.2)⟩

def Within (names : List String) (b : Bindings β) : Prop := ∀ e ∈ b.entries, e.1 ∈ names

theorem within_empty : (empty : Bindings β).Within names := nofun

theorem Within.insert (h : b.Within names) {name : String} (hn : name ∈ names) (x : β) :
    (b.insert name x).Within names := by
  intro e he
  rcases List.mem_cons.1 he with rfl | he
  · exact hn
  · exact h e (List.mem_filter.1 he).1

theorem find?_rename (apart : KeepsApart ρ names) (h : b.Within names) {name : String}
    (hn : name ∈ names) : (b.rename ρ).find? (ρ name) = b.find? name := by
  obtain ⟨entries⟩ := b
  change (entries.map fun e => (ρ e.1, e.2)).lookup (ρ name) = entries.lookup name
  induction entries with
  | nil => rfl
  | cons e es ih =>
    have later : (⟨es⟩ : Bindings β).Within names := fun k hk => h k (List.mem_cons_of_mem e hk)
    have same : (ρ name == ρ e.1) = (name == e.1) := by
      rw [Bool.eq_iff_iff, beq_iff_eq, beq_iff_eq]
      exact ⟨apart name hn e.1 (h e List.mem_cons_self), congrArg ρ⟩
    rw [List.map_cons, List.lookup_cons, List.lookup_cons, same, ih later]

theorem rename_insert (apart : KeepsApart ρ names) (h : b.Within names) {name : String}
    (hn : name ∈ names) (x : β) : (b.insert name x).rename ρ = (b.rename ρ).insert (ρ name) x := by
  have kept : ∀ e ∈ b.entries, (ρ e.1 != ρ name) = (e.1 != name) := by
    intro e he
    rw [Bool.eq_iff_iff, bne_iff_ne, bne_iff_ne]
    exact not_congr ⟨apart e.1 (h e he) name hn, congrArg ρ⟩
  have erased : (b.entries.filter (·.1 != name)).map (fun e => (ρ e.1, e.2)) =
      (b.entries.map fun e => (ρ e.1, e.2)).filter (·.1 != ρ name) := by
    rw [List.filter_map]
    exact congrArg _ (List.filter_congr fun e he => (kept e he).symm)
  simp only [insert, rename, erase, List.map_cons, erased]

end Bindings

namespace Pattern

mutual
def rename (ρ : String → String) : Pattern → Pattern
  | var name => var (ρ name)
  | node text ps => node text (renameAll ρ ps)
def renameAll (ρ : String → String) : List Pattern → List Pattern
  | [] => []
  | p :: ps => rename ρ p :: renameAll ρ ps
end

theorem length_renameAll (ρ : String → String) (ps : List Pattern) :
    (renameAll ρ ps).length = ps.length := by
  induction ps with
  | nil => rfl
  | cons p ps ih => rw [renameAll, List.length_cons, List.length_cons, ih]

mutual
theorem names_rename (ρ : String → String) (p : Pattern) :
    (p.rename ρ).names = p.names.map ρ := by
  cases p with
  | var name => rfl
  | node text ps => rw [rename, names, names, namesAll_renameAll ρ ps]
theorem namesAll_renameAll (ρ : String → String) (ps : List Pattern) :
    namesAll (renameAll ρ ps) = (namesAll ps).map ρ := by
  cases ps with
  | nil => rfl
  | cons p ps =>
    rw [renameAll, namesAll, namesAll, names_rename ρ p, namesAll_renameAll ρ ps, List.map_append]
end

section

variable {α : Type} {m : Type → Type} [Monad m] [LawfulMonad m] (ρ : String → String)
  (names : List String)

/-- The two actions have the same effects, and what the second one binds is what the first one binds
under new names. -/
def SameUpTo (x y : m (Option (Bindings (Tree α)))) : Prop :=
  ∃ make : m (Option {b : Bindings (Tree α) // b.Within names}),
    x = (do let b? ← make; pure (b?.map (·.1))) ∧
      y = (do let b? ← make; pure (b?.map fun b => b.1.rename ρ))

variable {ρ names}

theorem sameUpTo_none : SameUpTo (α := α) (m := m) ρ names (pure none) (pure none) :=
  ⟨pure none, by simp, by simp⟩

theorem sameUpTo_some {b : Bindings (Tree α)} (h : b.Within names) :
    SameUpTo (m := m) ρ names (pure (some b)) (pure (some (b.rename ρ))) :=
  ⟨pure (some ⟨b, h⟩), by simp, by simp⟩

theorem SameUpTo.after {γ : Type} (act : m γ) {f g : γ → m (Option (Bindings (Tree α)))}
    (h : ∀ a, SameUpTo ρ names (f a) (g a)) : SameUpTo ρ names (act >>= f) (act >>= g) := by
  choose make hf hg using h
  refine ⟨act >>= make, ?_, ?_⟩
  · rw [bind_assoc]
    exact congrArg _ (funext hf)
  · rw [bind_assoc]
    exact congrArg _ (funext hg)

theorem SameUpTo.bind_eq {γ : Type} {x y : m (Option (Bindings (Tree α)))}
    (h : SameUpTo ρ names x y) {f g : Option (Bindings (Tree α)) → m γ} (none : f none = g none)
    (some : ∀ b, b.Within names → f (some b) = g (some (b.rename ρ))) : x >>= f = y >>= g := by
  obtain ⟨make, rfl, rfl⟩ := h
  simp only [bind_assoc, pure_bind]
  refine congrArg _ (funext fun b? => ?_)
  cases b? with
  | none => exact none
  | some b => exact some b.1 b.2

theorem SameUpTo.andThen {x y : m (Option (Bindings (Tree α)))} (h : SameUpTo ρ names x y)
    {f g : Bindings (Tree α) → m (Option (Bindings (Tree α)))}
    (rest : ∀ b, b.Within names → SameUpTo ρ names (f b) (g (b.rename ρ))) :
    SameUpTo ρ names
      (do
        match ← x with
        | some b => f b
        | none => pure none)
      (do
        match ← y with
        | some b => g b
        | none => pure none) := by
  have later (b : {b : Bindings (Tree α) // b.Within names}) := rest b.1 b.2
  -- for each outcome of the first action, the two that follow share an action as well
  choose next hf hg using later
  obtain ⟨make, rfl, rfl⟩ := h
  refine ⟨do
    match ← make with
    | some b => next b
    | none => pure none, ?_, ?_⟩
  · simp only [bind_assoc, pure_bind]
    refine congrArg _ (funext fun b? => ?_)
    cases b? with
    | none => simp
    | some b => exact hf b
  · simp only [bind_assoc, pure_bind]
    refine congrArg _ (funext fun b? => ?_)
    cases b? with
    | none => simp
    | some b => exact hg b

variable [BEq α]

theorem sameUpTo_admit? (apart : KeepsApart ρ names) {b : Bindings (Tree α)}
    (h : b.Within names) {name : String} (hn : name ∈ names) (t : Tree α) :
    SameUpTo (m := m) ρ names (pure (b.admit? name t)) (pure ((b.rename ρ).admit? (ρ name) t)) := by
  rw [Bindings.admit?, Bindings.admit?, Bindings.find?_rename apart h hn]
  cases b.find? name with
  | none =>
    simp only [← Bindings.rename_insert apart h hn]
    exact sameUpTo_some (h.insert hn t)
  | some bound =>
    by_cases agree : bound.agrees t = true
    · simp only [if_pos agree]
      exact sameUpTo_some h
    · simp only [if_neg agree]
      exact sameUpTo_none

mutual
theorem sameUpTo_extendM (apart : KeepsApart ρ names) (test : α → String → m Bool) {p : Pattern}
    (hp : ∀ name ∈ p.names, name ∈ names) (t : Tree α) {b : Bindings (Tree α)}
    (h : b.Within names) :
    SameUpTo ρ names (extendM test p t b) (extendM test (p.rename ρ) t (b.rename ρ)) := by
  cases p with
  | var name => exact sameUpTo_admit? apart h (hp name List.mem_cons_self) t
  | node text ps =>
    cases t with
    | node v ts =>
      rw [rename, extendM, extendM, length_renameAll]
      refine SameUpTo.after _ fun passed => ?_
      cases passed with
      | false => exact sameUpTo_none
      | true =>
        simp only [if_true]
        by_cases arity : ts.length = ps.length
        · simp only [if_pos arity]
          exact sameUpTo_extendAllM apart test hp ts h
        · simp only [if_neg arity]
          exact sameUpTo_none
theorem sameUpTo_extendAllM (apart : KeepsApart ρ names) (test : α → String → m Bool)
    {ps : List Pattern} (hps : ∀ name ∈ namesAll ps, name ∈ names) (ts : List (Tree α))
    {b : Bindings (Tree α)} (h : b.Within names) :
    SameUpTo ρ names (extendAllM test ps ts b)
      (extendAllM test (renameAll ρ ps) ts (b.rename ρ)) := by
  cases ps with
  | nil => exact sameUpTo_some h
  | cons p ps =>
    cases ts with
    | nil => exact sameUpTo_some h
    | cons t ts =>
      have head := sameUpTo_extendM apart test
        (fun name hn => hps name (List.mem_append_left _ hn)) t h
      exact head.andThen fun c hc => sameUpTo_extendAllM apart test
        (fun name hn => hps name (List.mem_append_right _ hn)) ts hc
end

theorem sameUpTo_captureM (p : Pattern) (apart : KeepsApart ρ p.vars) (test : α → String → m Bool)
    (t : Tree α) :
    SameUpTo ρ p.vars (p.captureM test t) ((p.rename ρ).captureM test t) :=
  sameUpTo_extendM apart test (fun _ hn => mem_vars.2 hn) t Bindings.within_empty

end

section

def renameError {β : Type} (ρ : String → String) : Except Unbound β → Except Unbound β
  | .ok x => .ok x
  | .error e => .error ⟨ρ e.name⟩

variable {α : Type} {m : Type → Type} [Monad m] [LawfulMonad m] {ρ : String → String}
  {names : List String} {b : Bindings (Tree α)}

mutual
theorem instantiateM_rename (apart : KeepsApart ρ names) (h : b.Within names)
    (mapper : String → m α) (p : Pattern) (hp : ∀ name ∈ p.names, name ∈ names) :
    (p.rename ρ).instantiateM mapper (b.rename ρ) = (do
      let made ← p.instantiateM mapper b
      pure (renameError ρ made)) := by
  cases p with
  | var name =>
    rw [rename, instantiateM, instantiateM, pure_bind,
      Bindings.find?_rename apart h (hp name List.mem_cons_self)]
    cases b.find? name <;> rfl
  | node text ps =>
    have children := instantiateAllM_rename apart h mapper ps hp
    simp only [rename, instantiateM, children, bind_assoc, pure_bind]
    refine congrArg _ (funext fun v => bind_congr_except (fun ts => ?_) fun e => ?_)
    · simp [renameError]
    · simp [renameError]
theorem instantiateAllM_rename (apart : KeepsApart ρ names) (h : b.Within names)
    (mapper : String → m α) (ps : List Pattern) (hps : ∀ name ∈ namesAll ps, name ∈ names) :
    instantiateAllM mapper (b.rename ρ) (renameAll ρ ps) = (do
      let made ← instantiateAllM mapper b ps
      pure (renameError ρ made)) := by
  cases ps with
  | nil => simp [renameAll, instantiateAllM, renameError]
  | cons p ps =>
    have head := instantiateM_rename apart h mapper p fun name hn =>
      hps name (List.mem_append_left _ hn)
    have tail := instantiateAllM_rename apart h mapper ps fun name hn =>
      hps name (List.mem_append_right _ hn)
    simp only [renameAll, instantiateAllM, head, tail, bind_assoc, pure_bind]
    refine bind_congr_except (fun t => ?_) fun e => ?_
    · simp only [renameError, bind_assoc]
      refine bind_congr_except (fun ts => ?_) fun e => ?_
      · simp
      · simp
    · simp [renameError]
end

end

section

variable {α : Type} [BEq α] {p : Pattern} {ρ : String → String} (apart : KeepsApart ρ p.vars)
  (test : α → String → Bool) (t : Tree α)

include apart

theorem captureWith?_rename :
    (p.rename ρ).captureWith? test t = (p.captureWith? test t).map (Bindings.rename ρ) := by
  obtain ⟨make, hp, hr⟩ := p.sameUpTo_captureM (m := Id) apart (fun v text => pure (test v text)) t
  rw [captureWith?, captureWith?, hp, hr]
  change _ = (make.run.map fun b => b.1).map (Bindings.rename ρ)
  rw [Option.map_map]
  rfl

theorem testCalls_rename : (p.rename ρ).testCalls test t = p.testCalls test t := by
  obtain ⟨make, hp, hr⟩ := p.sameUpTo_captureM apart (noteTest (σ := Unit) test) t
  rw [testCalls, testCalls, hp, hr]
  rfl

theorem bound_rename {b : Bindings (Tree α)} (h : p.captureWith? test t = some b) :
    (b.rename ρ).names = b.names.map ρ ∧
      ∀ name ∈ p.vars, ∃ u, b.find? name = some u ∧ (b.rename ρ).find? (ρ name) = some u := by
  constructor
  · simp [Bindings.names, Bindings.rename]
  · intro name hn
    have within : b.Within p.vars := fun e he =>
      (mem_names_capture h e.1).1 (List.mem_map_of_mem he)
    have found := Bindings.mem_names.1 ((mem_names_capture h name).2 hn)
    obtain ⟨u, hu⟩ := Option.isSome_iff_exists.1 found
    exact ⟨u, hu, (Bindings.find?_rename apart within hn).trans hu⟩

end

end Pattern

namespace Rule

def rename (ρ : String → String) (r : Rule) : Rule where
  pattern := r.pattern.rename ρ
  template := r.template.rename ρ
  bound := by
    intro name hn
    rw [Pattern.mem_vars, Pattern.names_rename, List.mem_map] at hn ⊢
    obtain ⟨old, used, rfl⟩ := hn
    exact ⟨old, Pattern.mem_vars.1 (r.bound old (Pattern.mem_vars.2 used)), rfl⟩

section

variable {α : Type} [BEq α] {m : Type → Type} [Monad m] [LawfulMonad m] {r : Rule}
  {ρ : String → String} (apart : KeepsApart ρ r.pattern.vars) (test : α → String → m Bool)
  (mapper : String → m α) (t : Tree α)

include apart

theorem applyM_rename : (r.rename ρ).applyM test mapper t = r.applyM test mapper t := by
  have same := r.pattern.sameUpTo_captureM apart test t
  have used : ∀ name ∈ r.template.names, name ∈ r.pattern.vars := fun name hn =>
    r.bound name (Pattern.mem_vars.2 hn)
  rw [applyM, applyM]
  symm
  refine same.bind_eq ?_ fun b within => ?_
  · rfl
  · change _ = (do
      let made ← (r.template.rename ρ).instantiateM mapper (b.rename ρ)
      pure made.toOption)
    rw [Pattern.instantiateM_rename apart within mapper r.template used, bind_assoc]
    refine Pattern.bind_congr_except (fun u => ?_) fun e => ?_
    · rw [pure_bind]
      rfl
    · rw [pure_bind]
      rfl

theorem applyFirstM_rename :
    (r.rename ρ).applyFirstM test mapper t = r.applyFirstM test mapper t :=
  congrArg (Tree.updateFirstM · t) (funext (applyM_rename apart test mapper))

end

/-- A renaming that keeps the variables of the pattern apart leads from a rule to a rule. Both match
the same trees, with the same calls of the test and with the same subtrees for their variables, and
both make the same trees, at the root and at the first match, with the same calls of test and mapper
and all the same effects. -/
theorem renaming_changes_nothing {α : Type} [BEq α] (r : Rule) (ρ : String → String)
    (apart : KeepsApart ρ r.pattern.vars) :
    ofPatterns (r.pattern.rename ρ) (r.template.rename ρ) = .ok (r.rename ρ) ∧
    (∀ (test : α → String → Bool) (t : Tree α),
      (r.rename ρ).pattern.matchesWith test t = r.pattern.matchesWith test t ∧
      (r.rename ρ).pattern.testCalls test t = r.pattern.testCalls test t ∧
      ∀ b, r.pattern.captureWith? test t = some b →
        ∃ b', (r.rename ρ).pattern.captureWith? test t = some b' ∧ b'.names = b.names.map ρ ∧
          ∀ name ∈ r.pattern.vars, ∃ u, b.find? name = some u ∧ b'.find? (ρ name) = some u) ∧
    (∀ {σ : Type} (test : α → String → Bool) (mapper : String → StateM σ α) (t : Tree α) (s : σ),
      ((r.rename ρ).applyM (noteTest test) (noteMapper mapper) t).run (.start s) =
        (r.applyM (noteTest test) (noteMapper mapper) t).run (.start s) ∧
      (r.rename ρ).runFirst test mapper t s = r.runFirst test mapper t s) ∧
    ∀ {m : Type → Type} [Monad m] [LawfulMonad m] (test : α → String → m Bool)
      (mapper : String → m α) (t : Tree α),
      (r.rename ρ).applyM test mapper t = r.applyM test mapper t ∧
        (r.rename ρ).applyFirstM test mapper t = r.applyFirstM test mapper t := by
  refine ⟨ofPatterns_ok.2 ⟨rfl, rfl⟩, fun test t => ⟨?_, ?_, fun b hb => ?_⟩,
    fun test mapper t s => ⟨?_, ?_⟩, fun test mapper t => ⟨?_, ?_⟩⟩
  · have same := Pattern.captureWith?_rename apart test t
    rw [Pattern.matchesWith, Pattern.matchesWith]
    exact (congrArg Option.isSome same).trans Option.isSome_map
  · exact Pattern.testCalls_rename apart test t
  · refine ⟨b.rename ρ, ?_, Pattern.bound_rename apart test t hb⟩
    have same := Pattern.captureWith?_rename apart test t
    rw [hb] at same
    exact same
  · rw [applyM_rename apart]
  · rw [runFirst, runFirst, applyFirstM_rename apart]
  · exact applyM_rename apart test mapper t
  · exact applyFirstM_rename apart test mapper t

/-- The variables change places, in a rule that repeats one of them. The labels that it is bound to
are equal, but not the same. -/
theorem renaming_changes_nothing_swapped :
    ∃ r s, ofPatterns (.node "f" [.var "x", .node "g" [.var "y", .var "x"]])
          (.node "h" [.var "y", .var "x"]) = .ok r ∧
      ofPatterns (.node "f" [.var "y", .node "g" [.var "x", .var "y"]])
          (.node "h" [.var "x", .var "y"]) = .ok s ∧
      s.applyWith (fun v text => sameUpToCase v.text text) CaselessLabel.mk
          (.node ⟨"F"⟩ [.leaf ⟨"a"⟩, .node ⟨"G"⟩ [.leaf ⟨"b"⟩, .leaf ⟨"A"⟩]]) =
        some (.node ⟨"h"⟩ [.leaf ⟨"b"⟩, .leaf ⟨"a"⟩]) := by
  let r : Rule := ⟨.node "f" [.var "x", .node "g" [.var "y", .var "x"]],
    .node "h" [.var "y", .var "x"], by decide⟩
  obtain ⟨made, _, _, same⟩ := renaming_changes_nothing (α := CaselessLabel) r
    (fun name => if name = "x" then "y" else "x") (by decide)
  refine ⟨r, _, ofPatterns_ok.2 ⟨rfl, rfl⟩, made, ?_⟩
  have unchanged := (same (m := Id) (fun v text => pure (sameUpToCase v.text text))
    (fun text => pure ⟨text⟩) (.node ⟨"F"⟩ [.leaf ⟨"a"⟩, .node ⟨"G"⟩ [.leaf ⟨"b"⟩, .leaf ⟨"A"⟩]])).1
  exact (congrArg Id.run unchanged).trans rfl

end Rule
end TreeRules
