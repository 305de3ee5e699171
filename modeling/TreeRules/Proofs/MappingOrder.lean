import TreeRules.Proofs.Calls
import TreeRules.Proofs.Shape
set_option autoImplicit false

namespace TreeRules.Tree

variable {α β γ σ : Type}

section

variable {m : Type → Type} [Monad m] [LawfulMonad m]

mutual
theorem values_mapM (f : α → m β) (t : Tree α) : values <$> t.mapM f = t.values.mapM f := by
  cases t with
  | node v ts =>
    rw [mapM, values_node, List.mapM_cons, ← values_mapAllM f ts]
    simp [values_node]
theorem values_mapAllM (f : α → m β) (ts : List (Tree α)) :
    (List.flatMap values) <$> mapAllM f ts = (ts.flatMap values).mapM f := by
  cases ts with
  | nil => simp [mapAllM]
  | cons t ts =>
    rw [mapAllM, List.flatMap_cons, List.mapM_append, ← values_mapM f t, ← values_mapAllM f ts]
    simp
end

end

theorem run_values_mapM (f : α → StateM σ β) (t : Tree α) (s : σ) :
    (t.values.mapM f).run s = (((t.mapM f).run s).1.values, ((t.mapM f).run s).2) := by
  rw [← values_mapM, StateT.run_map]
  rfl

mutual
theorem sameShape_mapM (f : α → StateM σ β) (t : Tree α) (s : σ) :
    SameShape t ((t.mapM f).run s).1 := by
  cases t with
  | node v ts => exact sameShape_node.2 (sameShape_mapAllM f ts ((f v).run s).2)
theorem sameShape_mapAllM (f : α → StateM σ β) (ts : List (Tree α)) (s : σ) :
    List.Forall₂ SameShape ts ((mapAllM f ts).run s).1 := by
  cases ts with
  | nil => exact .nil
  | cons t ts =>
    exact .cons (sameShape_mapM f t s) (sameShape_mapAllM f ts ((t.mapM f).run s).2)
end

def runMap (f : α → StateM σ β) (t : Tree α) (s : σ) : Tree β × Calls (α × β) σ :=
  (t.mapM (noted Prod.mk f)).run (.start s)

theorem runMap_eq (f : α → StateM σ β) (t : Tree α) (s : σ) :
    runMap f t s = (((t.mapM f).run s).1, loop f t.values s) := by
  have noting := run_values_mapM (noted Prod.mk f) t (.start s)
  rw [run_mapM_loop, run_values_mapM] at noting
  obtain ⟨values, calls⟩ := Prod.mk.inj noting
  -- both runs keep the shape of the tree, so equal values make equal trees
  have shape : SameShape ((t.mapM f).run s).1 (runMap f t s).1 := fun p =>
    (sameShape_mapM f t s p).symm.trans (sameShape_mapM (noted Prod.mk f) t (.start s) p)
  exact Prod.ext (shape.eq_of_values values).symm calls.symm

theorem state_loop (f : α → StateM σ β) (t : Tree α) (s : σ) :
    (loop f t.values s).state = ((t.mapM f).run s).2 := by
  rw [loop, run_values_mapM]

theorem answers_loop_values (f : α → StateM σ β) (t : Tree α) (s : σ) :
    (loop f t.values s).answers = ((t.mapM f).run s).1.values := by
  rw [answers_loop, run_values_mapM]

/-- The callback is called once for each node, on the values in pre-order. The result has the shape
of the tree and the answers as its values in pre-order. Two mappings without effects are one with
the composite. -/
theorem mapping_in_preorder (t : Tree α) (f : α → StateM σ β) (s : σ) :
    (∃ u calls, runMap f t s = (u, calls) ∧ (t.mapM f).run s = (u, calls.state) ∧
      calls.arguments = t.values ∧ calls.arguments.length = t.size ∧ calls.answers = u.values ∧
      (t.values.mapM f).run s = (calls.answers, calls.state) ∧
      SameShape t u ∧ t.size = u.size ∧ t.depth = u.depth) ∧
    ∀ (g : α → β) (h : β → γ),
      t.mapM (fun v => (pure (g v) : StateM σ β)) = pure (t.map g) ∧
      (do let u ← t.mapM fun v => (pure (g v) : StateM σ β)
          u.mapM fun w => pure (h w)) = t.mapM fun v => pure (h (g v)) := by
  have shape := sameShape_mapM f t s
  have asked := arguments_loop f t.values s
  have told := answers_loop_values f t s
  refine ⟨⟨_, _, runMap_eq f t s, ?_, asked, ?_, told, ?_, shape, shape.size_eq, shape.depth_eq⟩,
    fun g h => ⟨mapM_pure g t, ?_⟩⟩
  · rw [state_loop]
    rfl
  · rw [asked, length_values]
  · rw [told, state_loop, run_values_mapM]
  · rw [mapM_pure, pure_bind, mapM_pure, mapM_pure fun v => h (g v), map_map]
    rfl

end TreeRules.Tree
