import TreeRules.Workspace
set_option autoImplicit false

namespace TreeRules.Workspace

/-- The workspace that a step leaves. A step that fails stores nothing. -/
def next (w : Workspace) (s : Step) : Workspace :=
  match w.step s with
  | .ok made => made.2
  | .error _ => w

def after (w : Workspace) (ss : List Step) : Workspace := ss.foldl next w

def succeeding (w : Workspace) : List Step → List Step
  | [] => []
  | s :: ss =>
    if (w.step s).isOk then s :: (w.next s).succeeding ss else (w.next s).succeeding ss

section

variable {w : Workspace} {s : Step} {answer : Answer} {v : Workspace}

theorem next_ok (h : w.step s = .ok (answer, v)) : w.next s = v := by rw [next, h]

theorem next_error {e : Fault} (h : w.step s = .error e) : w.next s = w := by rw [next, h]

variable (w s)

theorem after_cons (ss : List Step) : w.after (s :: ss) = (w.next s).after ss := rfl

theorem run_cons (ss : List Step) :
    w.run (s :: ss) = (w.step s).map (·.1) :: (w.next s).run ss := by
  rw [run]
  cases h : w.step s with
  | ok made => rw [next_ok h]; rfl
  | error e => rw [next_error h]; rfl

theorem run_append (ss ts : List Step) : w.run (ss ++ ts) = w.run ss ++ (w.after ss).run ts := by
  induction ss generalizing w with
  | nil => rfl
  | cons s ss ih => rw [List.cons_append, run_cons, run_cons, ih, after_cons, List.cons_append]

theorem after_succeeding (ss : List Step) : w.after (w.succeeding ss) = w.after ss := by
  induction ss generalizing w with
  | nil => rfl
  | cons s ss ih =>
    rw [succeeding, after_cons, ← ih (w.next s)]
    cases h : w.step s with
    | ok made => rfl
    | error e => rw [next_error h]; rfl

theorem run_succeeding (ss : List Step) :
    w.run (w.succeeding ss) = (w.run ss).filter Except.isOk := by
  induction ss generalizing w with
  | nil => rfl
  | cons s ss ih =>
    rw [succeeding, run_cons w s ss]
    cases h : w.step s with
    | ok made =>
      change w.run (s :: (w.next s).succeeding ss) = _
      rw [run_cons, h, ih]
      rfl
    | error e =>
      change w.run ((w.next s).succeeding ss) = (w.next s |>.run ss).filter Except.isOk
      rw [next_error h, ih]

end

def SameAt (w v : Workspace) (name : String) : Register → Prop
  | .tree => w.trees.find? name = v.trees.find? name
  | .pattern => w.patterns.find? name = v.patterns.find? name
  | .rule => w.rules.find? name = v.rules.find? name

/-- The registers that the step writes, with their names, if it does not fail. -/
def writes (w : Workspace) : Step → List (Register × String)
  | .readTree dest _ => [(.tree, dest)]
  | .readPattern dest _ => [(.pattern, dest)]
  | .readRule dest _ => [(.rule, dest)]
  | .makeRule dest _ _ => [(.rule, dest)]
  | .copy _ dest => [(.tree, dest)]
  | .child _ _ dest => [(.tree, dest)]
  | .push dest _ => [(.tree, dest)]
  | .setValue dest _ => [(.tree, dest)]
  | .take source =>
    (.tree, source) ::
      match w.tree source with
      | .ok t => (childEntries source t.children).map fun e => (.tree, e.1)
      | .error _ => []
  | .capture pattern _ =>
    match w.pattern pattern with
    | .ok p => p.vars.map fun name => (.tree, name)
    | .error _ => []
  | .instantiate _ dest => [(.tree, dest)]
  | .apply _ tree _ => [(.tree, tree)]
  | .normalize tree _ _ => [(.tree, tree)]
  | .compare _ _ => []
  | .list => []

section

variable {w v u : Workspace} {name dest : String} {register : Register}

theorem SameAt.refl (w : Workspace) (name : String) (register : Register) :
    SameAt w w name register := by
  cases register <;> rfl

theorem SameAt.trans (h : SameAt w v name register) (h' : SameAt v u name register) :
    SameAt w u name register := by
  cases register <;> exact Eq.trans h h'

theorem sameAt_storeTree (h : (register, name) ≠ (.tree, dest)) (t : Tree String) :
    SameAt (w.storeTree dest t) w name register := by
  cases register with
  | tree => exact (Bindings.find?_insert ..).trans (if_neg fun same => h (by rw [same]))
  | pattern | rule => rfl

theorem sameAt_storePattern (h : (register, name) ≠ (.pattern, dest)) (p : Pattern) :
    SameAt (w.storePattern dest p) w name register := by
  cases register with
  | pattern => exact (Bindings.find?_insert ..).trans (if_neg fun same => h (by rw [same]))
  | tree | rule => rfl

theorem sameAt_storeRule (h : (register, name) ≠ (.rule, dest)) (r : Rule) :
    SameAt (w.storeRule dest r) w name register := by
  cases register with
  | rule => exact (Bindings.find?_insert ..).trans (if_neg fun same => h (by rw [same]))
  | tree | pattern => rfl

theorem sameAt_eraseTree (h : (register, name) ≠ (.tree, dest)) :
    SameAt { w with trees := w.trees.erase dest } w name register := by
  cases register with
  | tree => exact (Bindings.find?_erase ..).trans (if_neg fun same => h (by rw [same]))
  | pattern | rule => rfl

theorem sameAt_storeTrees {entries : List (String × Tree String)}
    (h : ∀ e ∈ entries, (register, name) ≠ (.tree, e.1)) :
    SameAt (w.storeTrees entries) w name register := by
  induction entries generalizing w with
  | nil => exact .refl w name register
  | cons e es ih =>
    obtain ⟨first, later⟩ := List.forall_mem_cons.1 h
    exact (ih later).trans (sameAt_storeTree first e.2)

/-- A result leaves what the register holds in `w` under the name, and a failure leaves nothing. -/
def Keeps (w : Workspace) (register : Register) (name : String)
    (made : Except Fault (Answer × Workspace)) : Prop :=
  ∀ answer v, made = .ok (answer, v) → SameAt v w name register

theorem Keeps.pure {answer : Answer} (h : SameAt v w name register) :
    Keeps w register name (Pure.pure (answer, v)) := by
  intro answer' v' made
  cases made
  exact h

theorem Keeps.bind {β : Type} {x : Except Fault β} {f : β → Except Fault (Answer × Workspace)}
    (h : ∀ a, x = .ok a → Keeps w register name (f a)) : Keeps w register name (x >>= f) := by
  intro answer v made
  cases hx : x with
  | error e =>
    rw [hx] at made
    cases made
  | ok a =>
    rw [hx] at made
    exact h a hx answer v made

theorem keeps_nothing (w : Workspace) (register : Register) (name : String) (answer : Answer) :
    Keeps w register name (Pure.pure (answer, w)) := .pure (.refl w name register)

theorem step_keeps {s : Step} (unwritten : (register, name) ∉ w.writes s) :
    Keeps w register name (w.step s) := by
  cases s with
  | readTree dest source =>
    exact .bind fun t _ => .pure (sameAt_storeTree (List.ne_of_not_mem_cons unwritten) t)
  | readPattern dest text =>
    exact .bind fun p _ => .pure (sameAt_storePattern (List.ne_of_not_mem_cons unwritten) p)
  | readRule dest text =>
    exact .bind fun r _ => .pure (sameAt_storeRule (List.ne_of_not_mem_cons unwritten) r)
  | makeRule dest pattern template =>
    exact .bind fun p _ => .bind fun q _ => .bind fun r _ =>
      .pure (sameAt_storeRule (List.ne_of_not_mem_cons unwritten) r)
  | copy source dest =>
    exact .bind fun t _ => .pure (sameAt_storeTree (List.ne_of_not_mem_cons unwritten) t)
  | child source index dest =>
    refine .bind fun t _ => ?_
    split
    · exact .pure (sameAt_storeTree (List.ne_of_not_mem_cons unwritten) _)
    · exact keeps_nothing w register name _
  | push dest child =>
    exact .bind fun c _ => .bind fun t _ =>
      .pure (sameAt_storeTree (List.ne_of_not_mem_cons unwritten) _)
  | setValue dest value =>
    exact .bind fun t _ => .pure (sameAt_storeTree (List.ne_of_not_mem_cons unwritten) _)
  | take source =>
    refine .bind fun t found => .pure ?_
    rw [writes, found] at unwritten
    obtain ⟨root, children⟩ := not_or.1 (mt List.mem_cons.2 unwritten)
    refine (sameAt_storeTrees fun e he same => children ?_).trans (sameAt_eraseTree root)
    exact List.mem_map.2 ⟨e, he, same.symm⟩
  | capture pattern tree =>
    refine .bind fun p found => .bind fun t _ => ?_
    rw [writes, found] at unwritten
    split
    · exact keeps_nothing w register name _
    · -- only names of the pattern are captured
      refine .pure (sameAt_storeTrees fun e he same => unwritten ?_)
      obtain ⟨var, used, bound⟩ := List.mem_filterMap.1 he
      obtain ⟨u, -, rfl⟩ := Option.map_eq_some_iff.1 bound
      exact List.mem_map.2 ⟨var, used, same.symm⟩
  | instantiate pattern dest =>
    exact .bind fun p _ => .bind fun t _ =>
      .pure (sameAt_storeTree (List.ne_of_not_mem_cons unwritten) t)
  | apply rule tree anywhere =>
    refine .bind fun r _ => .bind fun t _ => ?_
    split
    · exact .pure (sameAt_storeTree (List.ne_of_not_mem_cons unwritten) _)
    · exact keeps_nothing w register name _
  | normalize tree rules limit =>
    exact .bind fun t _ => .bind fun result _ =>
      .pure (sameAt_storeTree (List.ne_of_not_mem_cons unwritten) _)
  | compare left right =>
    exact .bind fun t _ => .bind fun u _ => keeps_nothing w register name _
  | list => exact keeps_nothing w register name _

theorem step_frame {s : Step} {answer : Answer} (h : w.step s = .ok (answer, v))
    (unwritten : (register, name) ∉ w.writes s) : SameAt v w name register :=
  step_keeps unwritten answer v h

/-- What no step of the run writes is kept through the run. -/
theorem after_frame {ss : List Step}
    (h : ∀ before s later, ss = before ++ s :: later →
      (register, name) ∉ (w.after before).writes s) : SameAt (w.after ss) w name register := by
  induction ss generalizing w with
  | nil => exact .refl w name register
  | cons s ss ih =>
    -- the later steps start from the workspace that the first one leaves
    have rest := ih (w := w.next s) fun before k later split =>
      h (s :: before) k later (by rw [split, List.cons_append])
    refine rest.trans ?_
    cases step : w.step s with
    | ok made =>
      rw [next_ok step]
      exact step_frame step (h [] s ss rfl)
    | error e =>
      rw [next_error step]
      exact .refl w name register

end

section

variable {w : Workspace} {names : List String} {t last : Tree String}

def Irreducible (w : Workspace) (names : List String) (t : Tree String) : Prop :=
  ∀ name ∈ names, ∃ r, w.rule name = .ok r ∧ r.applyFirst t = none

/-- The first of the named rules that applies anywhere in the tree, and what it makes of it. -/
def Reduces (w : Workspace) (names : List String) (t : Tree String)
    (made : String × Tree String) : Prop :=
  ∃ before after r, names = before ++ made.1 :: after ∧ w.Irreducible before t ∧
    w.rule made.1 = .ok r ∧ r.applyFirst t = some made.2

theorem reduceOnce_none : w.reduceOnce t names = .ok none ↔ w.Irreducible names t := by
  induction names with
  | nil => simp [reduceOnce, Irreducible]
  | cons name names ih =>
    rw [Irreducible, List.forall_mem_cons, ← Irreducible, ← ih, reduceOnce]
    cases found : w.rule name with
    | error e => simp
    | ok r => cases applied : r.applyFirst t <;> simp [applied]

theorem reduceOnce_some {made : String × Tree String} (h : w.reduceOnce t names = .ok (some made)) :
    w.Reduces names t made := by
  induction names with
  | nil => simp [reduceOnce] at h
  | cons name names ih =>
    rw [reduceOnce] at h
    cases found : w.rule name with
    | error e => simp [found] at h
    | ok r =>
      cases applied : r.applyFirst t with
      | some new =>
        simp only [found, applied, Except.ok.injEq, Option.some.injEq] at h
        subst h
        exact ⟨[], names, r, rfl, fun _ none => absurd none List.not_mem_nil, found, applied⟩
      | none =>
        simp only [found, applied] at h
        obtain ⟨before, after, q, rfl, irreducible, rule, applies⟩ := ih h
        exact ⟨name :: before, after, q, rfl,
          List.forall_mem_cons.2 ⟨⟨r, found, applied⟩, irreducible⟩, rule, applies⟩

/-- The trace leads from one tree to the other, each time by the first rule that applies. -/
inductive Normalizes (w : Workspace) (names : List String) :
    Tree String → List (String × Tree String) → Tree String → Prop
  | done (t : Tree String) : Normalizes w names t [] t
  | step {t last : Tree String} {made : String × Tree String}
      {trace : List (String × Tree String)} (first : w.Reduces names t made)
      (rest : Normalizes w names made.2 trace last) : Normalizes w names t (made :: trace) last

/-- A normalization ends where no rule applies, unless the limit has ended it. -/
theorem normalize_ok {limit : Nat} {trace : List (String × Tree String)}
    (h : w.normalize names limit t = .ok (last, trace)) :
    Normalizes w names t trace last ∧ trace.length ≤ limit ∧
      (trace.length < limit → w.Irreducible names last) := by
  -- on the limit, for any tree: each round starts from the tree that the last one made
  induction limit generalizing t trace with
  | zero =>
    cases h
    exact ⟨.done _, Nat.le_refl 0, fun less => absurd less (Nat.lt_irrefl 0)⟩
  | succ limit ih =>
    rw [normalize] at h
    split at h
    · cases h
    · next none =>
      cases h
      exact ⟨.done _, Nat.zero_le _, fun _ => reduceOnce_none.1 none⟩
    · next made first =>
      split at h
      · cases h
      · next result rest =>
        cases h
        obtain ⟨steps, short, ends⟩ := ih rest
        exact ⟨.step (reduceOnce_some first) steps, Nat.succ_le_succ short,
          fun less => ends (Nat.lt_of_succ_lt_succ less)⟩

end

end TreeRules.Workspace
