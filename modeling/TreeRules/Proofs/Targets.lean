import TreeRules.Proofs.UpdateVisits
set_option autoImplicit false

namespace TreeRules.Tree

variable {α : Type}

theorem reverse_take_succ {us : List (Tree α)} {k : Nat} {u : Tree α} (h : us[k]? = some u) :
    (us.take (k + 1)).reverse = u :: (us.take k).reverse := by
  rw [List.take_add_one, h]
  simp

variable [BEq α]

/-- The callback of the edit. Its state holds the nodes visited so far, the latest first. -/
def edit (target : Target α) (make : Tree α → Tree α) (u : Tree α) :
    StateM (List (Tree α)) (Option (Tree α)) :=
  fun visited => (if target.hits (u :: visited) u then some (make u) else none, u :: visited)

def Missed (target : Target α) (us : List (Tree α)) : Prop :=
  ∀ k u, us[k]? = some u → target.hits (us.take (k + 1)).reverse u = false

variable {target : Target α} {make : Tree α → Tree α}

theorem replaceTarget_eq (t : Tree α) :
    t.replaceTarget target make = t.updateFirstM (edit target make) := rfl

theorem run_edit (u : Tree α) (visited : List (Tree α)) :
    (edit target make u).run visited =
      (if target.hits (u :: visited) u then some (make u) else none, u :: visited) := rfl

theorem Missed.unanswered {us : List (Tree α)} (h : Missed target us) (j : Nat) :
    Unanswered (edit target make) (us.drop j) (us.take j).reverse us.reverse := by
  -- from each visit on, with the nodes visited before it as the state
  induction hd : us.drop j generalizing j with
  | nil =>
    rw [List.take_of_length_le (List.drop_eq_nil_iff.1 hd)]
    exact .nil _
  | cons u later ih =>
    have here : us[j]? = some u := by rw [← List.head?_drop, hd]; rfl
    have visited := reverse_take_succ here
    have miss := h j u here
    rw [visited] at miss
    have call : (edit target make u).run (us.take j).reverse = (none, u :: (us.take j).reverse) := by
      rw [run_edit, miss]
      rfl
    have rest : us.drop (j + 1) = later := by
      rw [← List.drop_drop, hd]
      rfl
    have after := ih (j + 1) rest
    rw [visited] at after
    exact .cons call after

theorem replaceTarget_missed {t : Tree α} (h : Missed target t.subtrees) :
    (t.replaceTarget target make).run [] = (none, t.subtrees.reverse) :=
  run_updateFirstM_unanswered (h.unanswered 0)

/-- The edit replaces the first node in pre-order that is the target, and visits no node after it. -/
theorem replaceTarget_hit {t : Tree α} {k : Nat} {p : Path} {u : Tree α}
    (visit : t.nodes[k]? = some (p, u)) (early : Missed target (t.subtrees.take k))
    (hit : target.hits (t.subtrees.take (k + 1)).reverse u = true) :
    (t.replaceTarget target make).run [] =
      (some (replaceAt (make u) p t), (t.subtrees.take (k + 1)).reverse) := by
  have last : t.subtrees[k]? = some u := by
    rw [subtrees, List.getElem?_map, visit]
    rfl
  rw [reverse_take_succ last] at hit
  rw [reverse_take_succ last, replaceTarget_eq]
  refine run_updateFirstM_answered visit (early.unanswered 0) ?_
  rw [run_edit, hit]
  rfl

theorem replaceTarget_visit {t : Tree α} {k : Nat} {p : Path} {u : Tree α}
    (visit : t.nodes[k]? = some (p, u)) :
    (t.replaceTarget (.visit (k + 1)) make).run [] =
      (some (replaceAt (make u) p t), (t.subtrees.take (k + 1)).reverse) := by
  have inside : k < t.subtrees.length := by
    rw [subtrees, List.length_map]
    exact (List.getElem?_eq_some_iff.1 visit).1
  refine replaceTarget_hit visit (fun j v hv => ?_) ?_
  · have early := (List.getElem?_eq_some_iff.1 hv).1
    simp only [List.length_take] at early
    simp only [Target.hits, List.length_reverse, List.length_take, beq_eq_false_iff_ne]
    omega
  · simp only [Target.hits, List.length_reverse, List.length_take, beq_iff_eq]
    omega

end TreeRules.Tree
