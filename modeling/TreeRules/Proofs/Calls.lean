import Mathlib.Data.List.Basic
set_option autoImplicit false

namespace TreeRules

/-- The notes of the calls of a callback so far, and the state of the callback. -/
structure Calls (κ σ : Type) where
  log : List κ
  state : σ

namespace Calls

variable {α β κ σ : Type}

def start (s : σ) : Calls κ σ := ⟨[], s⟩

def arguments (calls : Calls (α × β) σ) : List α := calls.log.map (·.1)

def answers (calls : Calls (α × β) σ) : List β := calls.log.map (·.2)

end Calls

section

variable {α β κ σ : Type}

/-- The callback with a note of each call, made from the argument and the answer. -/
def noted (note : α → β → κ) (f : α → StateM σ β) (a : α) : StateM (Calls κ σ) β :=
  fun calls =>
    let answered := (f a).run calls.state
    (answered.1, ⟨calls.log ++ [note a answered.1], answered.2⟩)

variable (note : α → β → κ) (f : α → StateM σ β)

theorem run_noted {a : α} {b : β} {s s' : σ} (h : (f a).run s = (b, s')) (log : List κ) :
    (noted note f a).run ⟨log, s⟩ = (b, ⟨log ++ [note a b], s'⟩) := by
  change (((f a).run s).1, (⟨log ++ [note a ((f a).run s).1], ((f a).run s).2⟩ : Calls κ σ)) = _
  rw [h]

theorem length_mapM (as : List α) (s : σ) : ((as.mapM f).run s).1.length = as.length := by
  induction as generalizing s with
  | nil => rfl
  | cons a as ih =>
    rw [List.mapM_cons]
    exact congrArg Nat.succ (ih ((f a).run s).2)

/-- The notes have no influence on the answers and the state. -/
theorem run_mapM_noted (as : List α) (log : List κ) (s : σ) :
    (as.mapM (noted note f)).run ⟨log, s⟩ =
      (((as.mapM f).run s).1,
        ⟨log ++ List.zipWith note as ((as.mapM f).run s).1, ((as.mapM f).run s).2⟩) := by
  -- the first call has been noted when the others run, so the log is arbitrary
  induction as generalizing log s with
  | nil =>
    change (([] : List β), (⟨log, s⟩ : Calls κ σ)) = ([], ⟨log ++ [], s⟩)
    rw [List.append_nil]
  | cons a as ih =>
    let answered := (f a).run s
    rw [List.mapM_cons, List.mapM_cons, StateT.run_bind, run_noted note f rfl]
    change (as.mapM (noted note f) >>= _ : StateM (Calls κ σ) _).run
      ⟨log ++ [note a answered.1], answered.2⟩ = _
    rw [StateT.run_bind, ih, List.append_assoc]
    rfl

theorem run_mapM_noted_arguments (g : α → κ) (as : List α) (log : List κ) (s : σ) :
    (as.mapM (noted (fun a _ => g a) f)).run ⟨log, s⟩ =
      (((as.mapM f).run s).1, ⟨log ++ as.map g, ((as.mapM f).run s).2⟩) := by
  have all : List.zipWith (fun a _ => g a) as ((as.mapM f).run s).1 = as.map g :=
    List.ext_getElem (by simp [length_mapM]) (by simp)
  rw [run_mapM_noted, all]

def loop (as : List α) (s : σ) : Calls (α × β) σ :=
  ⟨as.zip ((as.mapM f).run s).1, ((as.mapM f).run s).2⟩

theorem run_mapM_loop (as : List α) (s : σ) :
    (as.mapM (noted Prod.mk f)).run (.start s) = (((as.mapM f).run s).1, loop f as s) :=
  run_mapM_noted Prod.mk f as [] s

theorem arguments_loop (as : List α) (s : σ) : (loop f as s).arguments = as :=
  List.map_fst_zip (Nat.le_of_eq (length_mapM f as s).symm)

theorem answers_loop (as : List α) (s : σ) : (loop f as s).answers = ((as.mapM f).run s).1 :=
  List.map_snd_zip (Nat.le_of_eq (length_mapM f as s))

theorem loop_repeats (as : List α) (s : σ) :
    ((loop f as s).arguments.mapM f).run s = ((loop f as s).answers, (loop f as s).state) := by
  rw [arguments_loop, answers_loop]
  rfl

theorem run_forM_eq (as : List α) (s : σ) :
    (as.forM fun a => do let _ ← f a).run s = ((), ((as.mapM f).run s).2) := by
  induction as generalizing s with
  | nil => rfl
  | cons a as ih =>
    rw [List.mapM_cons, StateT.run_bind]
    exact ih ((f a).run s).2

end

end TreeRules
