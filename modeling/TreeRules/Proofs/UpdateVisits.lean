import TreeRules.Proofs.Calls
import TreeRules.Proofs.Updating
set_option autoImplicit false

namespace TreeRules.Tree

variable {α σ : Type}

def runUpdate (f : Tree α → StateM σ (Option (Tree α))) (t : Tree α) (s : σ) :
    Option (Tree α) × Calls (Tree α) σ :=
  (t.updateFirstM (noted (fun u _ => u) f)).run (.start s)

/-- Calls on the trees in order, none of which answers, lead from one state to another. -/
inductive Unanswered (f : Tree α → StateM σ (Option (Tree α))) : List (Tree α) → σ → σ → Prop
  | nil (s : σ) : Unanswered f [] s s
  | cons {u : Tree α} {us : List (Tree α)} {s s' s'' : σ} (call : (f u).run s = (none, s'))
      (rest : Unanswered f us s' s'') : Unanswered f (u :: us) s s''

section

variable {f : Tree α → StateM σ (Option (Tree α))} {s s' s'' : σ}

theorem Unanswered.noted {us : List (Tree α)} (h : Unanswered f us s s') (log : List (Tree α)) :
    Unanswered (noted (fun u _ => u) f) us ⟨log, s⟩ ⟨log ++ us, s'⟩ := by
  induction h generalizing log with
  | nil s =>
    rw [List.append_nil]
    exact .nil _
  | @cons u us _ _ _ call _ ih =>
    have later := ih (log ++ [u])
    rw [List.append_assoc, List.singleton_append] at later
    exact .cons (run_noted _ f call log) later

theorem unanswered_or_answered (f : Tree α → StateM σ (Option (Tree α))) (us : List (Tree α))
    (s : σ) :
    (∃ s', Unanswered f us s s') ∨
      ∃ k u new s' s'', us[k]? = some u ∧ Unanswered f (us.take k) s s' ∧
        (f u).run s' = (some new, s'') := by
  induction us generalizing s with
  | nil => exact Or.inl ⟨s, .nil s⟩
  | cons u us ih =>
    cases call : (f u).run s with
    | mk answer s₁ =>
      cases answer with
      | some new => exact Or.inr ⟨0, u, new, s, s₁, rfl, .nil s, call⟩
      | none =>
        rcases ih s₁ with ⟨s', rest⟩ | ⟨k, v, new, s', s'', hv, rest, hit⟩
        · exact Or.inl ⟨s', .cons call rest⟩
        · exact Or.inr ⟨k + 1, v, new, s', s'', hv, .cons call rest, hit⟩

theorem run_searchM_unanswered {ns : List (Path × Tree α)}
    (h : Unanswered f (ns.map (·.2)) s s') : (searchM f ns).run s = (none, s') := by
  induction ns generalizing s with
  | nil =>
    cases h
    rfl
  | cons n ns ih =>
    cases h with
    | cons call rest =>
      rw [searchM, StateT.run_bind, call]
      exact ih rest

theorem run_searchM_answered {before after : List (Path × Tree α)} {n : Path × Tree α}
    {new : Tree α} (h : Unanswered f (before.map (·.2)) s s')
    (hit : (f n.2).run s' = (some new, s'')) :
    (searchM f (before ++ n :: after)).run s = (some (n.1, new), s'') := by
  have here : (searchM f (n :: after)).run s' = (some (n.1, new), s'') := by
    rw [searchM, StateT.run_bind, hit]
    rfl
  rw [searchM_append, StateT.run_bind, run_searchM_unanswered h]
  exact here

theorem run_updateFirstM_unanswered {t : Tree α} (h : Unanswered f t.subtrees s s') :
    (t.updateFirstM f).run s = (none, s') := by
  rw [updateFirstM_eq_searchM, StateT.run_bind, run_searchM_unanswered h]
  rfl

theorem run_updateFirstM_answered {t : Tree α} {k : Nat} {p : Path} {u new : Tree α}
    (visit : t.nodes[k]? = some (p, u)) (h : Unanswered f (t.subtrees.take k) s s')
    (hit : (f u).run s' = (some new, s'')) :
    (t.updateFirstM f).run s = (some (replaceAt new p t), s'') := by
  obtain ⟨inside, here⟩ := List.getElem?_eq_some_iff.1 visit
  have split : t.nodes = t.nodes.take k ++ (p, u) :: t.nodes.drop (k + 1) := by
    rw [← here, List.getElem_cons_drop, List.take_append_drop]
  rw [subtrees, ← List.map_take] at h
  have found : (searchM f t.nodes).run s = (some (p, new), s'') := by
    rw [split]
    exact run_searchM_answered h hit
  rw [updateFirstM_eq_searchM, StateT.run_bind, found]
  rfl

end

/-- On the way down to `p` each node keeps its value and all of its children but the next one. -/
def KeepsAlong (new : Tree α) (p : Path) (t result : Tree α) : Prop :=
  ∀ q i r, p = q ++ i :: r → ∃ v left child right, left.length = i ∧
    t.subtree? q = some (node v (left ++ child :: right)) ∧
    result.subtree? q = some (node v (left ++ replaceAt new r child :: right))

theorem keepsAlong (new : Tree α) {p : Path} {t : Tree α} (h : (t.subtree? p).isSome = true) :
    KeepsAlong new p t (replaceAt new p t) := by
  rintro q i r rfl
  obtain ⟨u, hu⟩ := Option.isSome_iff_exists.1 h
  rw [subtree?_append] at hu
  obtain ⟨⟨v, ts⟩, hq, below⟩ := Option.bind_eq_some_iff.1 hu
  obtain ⟨child, here, _⟩ := Option.bind_eq_some_iff.1 below
  have inside : i < ts.length := (List.getElem?_eq_some_iff.1 here).1
  obtain ⟨left, child, right, rfl, at_i, exchanged⟩ :=
    List.exists_of_modify (replaceAt new r) inside
  refine ⟨v, left, child, right, at_i, hq, ?_⟩
  rw [subtree?_replaceAt_above, hq, Option.map_some, replaceAt_cons, exchanged]

/-- The callback is called on the subtrees in pre-order up to the first one for which it answers,
and on nothing else. The answer takes the place of that subtree, and the rest of the tree is kept. If
no call answers, each subtree was visited once. -/
theorem update_visits_in_preorder (t : Tree α) (f : Tree α → StateM σ (Option (Tree α))) (s : σ) :
    (∀ s', Unanswered f t.subtrees s s' →
      (t.updateFirstM f).run s = (none, s') ∧ runUpdate f t s = (none, ⟨t.subtrees, s'⟩)) ∧
    (∀ k p u new s' s'', t.nodes[k]? = some (p, u) → Unanswered f (t.subtrees.take k) s s' →
      (f u).run s' = (some new, s'') →
      ∃ result, (t.updateFirstM f).run s = (some result, s'') ∧
        runUpdate f t s = (some result, ⟨t.subtrees.take (k + 1), s''⟩) ∧
        Replaced new p t result ∧ KeepsAlong new p t result) ∧
    ((∃ s', Unanswered f t.subtrees s s') ∨
      ∃ k p u new s' s'', t.nodes[k]? = some (p, u) ∧ Unanswered f (t.subtrees.take k) s s' ∧
        (f u).run s' = (some new, s'')) := by
  refine ⟨fun s' silent => ?_, fun k p u new s' s'' visit silent hit => ?_, ?_⟩
  · have noted := silent.noted []
    exact ⟨run_updateFirstM_unanswered silent, run_updateFirstM_unanswered noted⟩
  · have last : t.subtrees[k]? = some u := by
      rw [subtrees, List.getElem?_map, visit]
      rfl
    have calls : t.subtrees.take (k + 1) = t.subtrees.take k ++ [u] := by
      rw [List.take_add_one, last]
      rfl
    have inside : (t.subtree? p).isSome = true := by
      rw [mem_nodes.1 (List.mem_of_getElem? visit)]
      rfl
    refine ⟨replaceAt new p t, run_updateFirstM_answered visit silent hit, ?_,
      replaced new inside, keepsAlong new inside⟩
    rw [calls]
    exact run_updateFirstM_answered visit (silent.noted []) (run_noted _ f hit _)
  · rcases unanswered_or_answered f t.subtrees s with silent | ⟨k, u, new, s', s'', hu, silent, hit⟩
    · exact Or.inl silent
    · rw [subtrees, List.getElem?_map] at hu
      obtain ⟨⟨p, u⟩, visit, rfl⟩ := Option.map_eq_some_iff.1 hu
      exact Or.inr ⟨k, p, u, new, s', s'', visit, silent, hit⟩

end TreeRules.Tree
