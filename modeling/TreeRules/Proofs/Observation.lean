import TreeRules.Proofs.Calls
import TreeRules.Proofs.InstantiationOrder
import TreeRules.Proofs.MatchingOrder
set_option autoImplicit false

namespace TreeRules

inductive Call (α : Type)
  | tested (asked : α × String)
  | mapped (text : String)

section
variable {α σ : Type}

def Call.asked? : Call α → Option (α × String)
  | tested asked => some asked
  | mapped _ => none

def noteCall (v : α) (text : String) : StateM (Calls (Call α) σ) Unit :=
  noted (fun asked _ => .tested asked) (fun _ => pure ()) (v, text)

def noteTest (test : α → String → Bool) : α → String → StateM (Calls (Call α) σ) Bool :=
  Pattern.watched test noteCall

def noteMapper (mapper : String → StateM σ α) : String → StateM (Calls (Call α) σ) α :=
  noted (fun text _ => .mapped text) mapper

theorem forM_noteCall (asked : List (α × String)) (log : List (Call α)) (s : σ) :
    (forM asked fun c => noteCall c.1 c.2).run ⟨log, s⟩ =
      ((), ⟨log ++ asked.map .tested, s⟩) := by
  have silent : (asked.mapM fun _ => (pure () : StateM σ Unit)).run s =
      (asked.map fun _ => (), s) := by
    rw [List.mapM_pure]
    rfl
  have noting := run_forM_eq (noted (fun c _ => Call.tested c) fun _ => (pure () : StateM σ Unit))
    asked ⟨log, s⟩
  rw [run_mapM_noted_arguments, silent] at noting
  exact noting

end

namespace Pattern

variable {α σ : Type}

section
variable [BEq α]

def testCalls (p : Pattern) (test : α → String → Bool) (t : Tree α) : List (α × String) :=
  ((p.captureM (noteTest test) t).run (Calls.start ())).2.log.filterMap Call.asked?

theorem captureM_noted (p : Pattern) (test : α → String → Bool) (t : Tree α) (log : List (Call α))
    (s : σ) : (p.captureM (noteTest test) t).run ⟨log, s⟩ =
      (p.captureWith? test t,
        ⟨log ++ (askedAll test t.subtree? p.symbols.nodes .empty).map .tested, s⟩) := by
  have run_forM := forM_noteCall (askedAll test t.subtree? p.symbols.nodes .empty) log s
  rw [noteTest, captureM_watched, StateT.run_bind, run_forM]
  rfl

theorem testCalls_eq_askedAll (p : Pattern) (test : α → String → Bool) (t : Tree α) :
    p.testCalls test t = askedAll test t.subtree? p.symbols.nodes .empty := by
  rw [testCalls, Calls.start, captureM_noted, List.nil_append, List.filterMap_map]
  exact List.filterMap_some

end

/-- A bound template makes the same tree under observation, and its mapper is called once for each
literal. -/
theorem instantiateM_noted (mapper : String → StateM σ α) {b : Bindings (Tree α)} {p : Pattern}
    (h : Bound b p) (log : List (Call α)) (s : σ) :
    ∃ t s', (p.instantiateM mapper b).run s = (.ok t, s') ∧
      (p.instantiateM (noteMapper mapper) b).run ⟨log, s⟩ =
        (.ok t, ⟨log ++ p.literals.map .mapped, s'⟩) := by
  obtain ⟨vs, s', t, values, plain, inst⟩ := run_instantiateM_bound mapper h s
  obtain ⟨vs', calls, t', values', noted, inst'⟩ :=
    run_instantiateM_bound (noteMapper mapper) h ⟨log, s⟩
  rw [noteMapper, run_mapM_noted_arguments, values, Prod.mk.injEq] at values'
  obtain ⟨rfl, rfl⟩ := values'
  obtain rfl := inst.unique inst'
  exact ⟨t, s', plain, noted⟩

end Pattern
end TreeRules
