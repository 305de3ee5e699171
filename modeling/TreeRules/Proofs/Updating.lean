import TreeRules.Tree.Update
import TreeRules.Proofs.Positions
set_option autoImplicit false

namespace TreeRules.Tree

variable {α : Type} {m : Type → Type} [Monad m]

def searchM (f : Tree α → m (Option (Tree α))) :
    List (Path × Tree α) → m (Option (Path × Tree α))
  | [] => pure none
  | n :: ns => do
    match ← f n.2 with
    | some new => pure (some (n.1, new))
    | none => searchM f ns

def replaceAmong (new : Tree α) : Path → List (Tree α) → List (Tree α)
  | [], ts => ts
  | i :: p, ts => ts.modify i (replaceAt new p)

theorem replaceAmong_shift (new : Tree α) (p : Path) (t : Tree α) (ts : List (Tree α)) :
    replaceAmong new (shift p) (t :: ts) = t :: replaceAmong new p ts := by
  cases p with
  | nil => rfl
  | cons i p => exact List.modify_succ_cons ..

variable [LawfulMonad m] (f : Tree α → m (Option (Tree α)))

theorem searchM_map (g : Path → Path) (ns : List (Path × Tree α)) :
    searchM f (ns.map fun n => (g n.1, n.2)) = (do
      let hit? ← searchM f ns
      pure (hit?.map fun hit => (g hit.1, hit.2))) := by
  induction ns with
  | nil => simp [searchM]
  | cons n ns ih =>
    simp only [List.map_cons, searchM, bind_assoc]
    refine congrArg _ (funext fun new? => ?_)
    cases new? with
    | none => exact ih
    | some new => simp

theorem searchM_append (ns ks : List (Path × Tree α)) :
    searchM f (ns ++ ks) = (do
      match ← searchM f ns with
      | some hit => pure (some hit)
      | none => searchM f ks) := by
  induction ns with
  | nil => simp [searchM]
  | cons n ns ih =>
    simp only [List.cons_append, searchM, bind_assoc]
    refine congrArg _ (funext fun new? => ?_)
    cases new? with
    | none => exact ih
    | some new => simp

theorem searchM_bind_congr {β : Type} {ns : List (Path × Tree α)}
    {k k' : Option (Path × Tree α) → m β} (miss : k none = k' none)
    (hit : ∀ n ∈ ns, ∀ new, k (some (n.1, new)) = k' (some (n.1, new))) :
    searchM f ns >>= k = searchM f ns >>= k' := by
  induction ns with
  | nil => simp [searchM, miss]
  | cons n ns ih =>
    simp only [searchM, bind_assoc]
    refine congrArg _ (funext fun new? => ?_)
    cases new? with
    | none => exact ih fun u hu => hit u (List.mem_cons_of_mem n hu)
    | some new => simpa using hit n List.mem_cons_self new

theorem updateFirstAllM_eq_searchM (ts : List (Tree α))
    (ih : ∀ t ∈ ts, updateFirstM f t = (do
      let hit? ← searchM f t.nodes
      pure (hit?.map fun hit => replaceAt hit.2 hit.1 t))) :
    updateFirstAllM f ts = (do
      let hit? ← searchM f (nodesFrom 0 ts)
      pure (hit?.map fun hit => replaceAmong hit.2 hit.1 ts)) := by
  induction ts with
  | nil => simp [updateFirstAllM, nodesFrom, searchM]
  | cons t ts ihs =>
    rw [updateFirstAllM, nodesFrom_cons, searchM_append, searchM_map f (0 :: ·), nodesFrom_succ,
      searchM_map, ih t List.mem_cons_self, ihs fun u hu => ih u (List.mem_cons_of_mem t hu)]
    simp only [bind_assoc, pure_bind]
    refine congrArg _ (funext fun hit? => ?_)
    cases hit? with
    | none => simp [replaceAmong_shift, Function.comp_def]
    | some hit => simp [replaceAmong]

theorem updateFirstM_eq_searchM (t : Tree α) :
    updateFirstM f t = (do
      let hit? ← searchM f t.nodes
      pure (hit?.map fun hit => replaceAt hit.2 hit.1 t)) := by
  induction t using induction with
  | node v ts ih =>
    rw [updateFirstM, nodes_node, searchM, updateFirstAllM_eq_searchM f ts ih]
    simp only [bind_assoc, pure_bind]
    refine congrArg _ (funext fun new? => ?_)
    cases new? with
    | some new => simp
    | none =>
      refine searchM_bind_congr f rfl ?_
      intro n hn new
      obtain ⟨j, _, q, _, _, here⟩ := mem_nodesFrom.1 hn
      rw [here]
      rfl

end TreeRules.Tree
