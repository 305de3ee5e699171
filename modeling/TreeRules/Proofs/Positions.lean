import TreeRules.Tree.Position
set_option autoImplicit false

namespace TreeRules.Tree

variable {α : Type}

theorem nodes_node (v : α) (ts : List (Tree α)) :
    (node v ts).nodes = ([], node v ts) :: nodesFrom 0 ts := rfl

theorem nodesFrom_cons (i : Nat) (t : Tree α) (ts : List (Tree α)) :
    nodesFrom i (t :: ts) = t.nodes.map (fun n => (i :: n.1, n.2)) ++ nodesFrom (i + 1) ts := rfl

/-- The position of the same node with one more sibling on its left. -/
def shift : Path → Path
  | [] => []
  | i :: p => (i + 1) :: p

theorem nodesFrom_succ (i : Nat) (ts : List (Tree α)) :
    nodesFrom (i + 1) ts = (nodesFrom i ts).map fun n => (shift n.1, n.2) := by
  induction ts generalizing i with
  | nil => rfl
  | cons t ts ih =>
    rw [nodesFrom_cons, nodesFrom_cons, List.map_append, List.map_map, ih (i + 1)]
    rfl

theorem mem_nodesFrom {i : Nat} {ts : List (Tree α)} {n : Path × Tree α} :
    n ∈ nodesFrom i ts ↔ ∃ j t q, ts[j]? = some t ∧ (q, n.2) ∈ t.nodes ∧ n.1 = (i + j) :: q := by
  induction ts generalizing i with
  | nil => simp [nodesFrom]
  | cons t ts ih =>
    rw [nodesFrom_cons, List.mem_append, List.mem_map, ih]
    constructor
    · rintro (⟨m, hm, rfl⟩ | ⟨j, u, q, hu, hq, hn⟩)
      · exact ⟨0, t, m.1, rfl, hm, rfl⟩
      · exact ⟨j + 1, u, q, hu, hq, by rw [hn]; congr 1; omega⟩
    · rintro ⟨j, u, q, hu, hq, hn⟩
      cases j with
      | zero =>
        have same : t = u := Option.some.inj hu
        subst same
        exact Or.inl ⟨(q, n.2), hq, Prod.ext hn.symm rfl⟩
      | succ j => exact Or.inr ⟨j, u, q, hu, hq, by rw [hn]; congr 1; omega⟩

theorem mem_nodes {t u : Tree α} {p : Path} : (p, u) ∈ t.nodes ↔ t.subtree? p = some u := by
  induction t using induction generalizing p with
  | node v ts ih =>
    rw [nodes_node, List.mem_cons, mem_nodesFrom]
    cases p with
    | nil => simp [eq_comm]
    | cons i p =>
      rw [subtree?_cons, Option.bind_eq_some_iff]
      constructor
      · rintro (h | ⟨j, t, q, ht, hq, h⟩)
        · simp at h
        · simp only [Nat.zero_add, List.cons.injEq] at h
          obtain ⟨rfl, rfl⟩ := h
          exact ⟨t, ht, (ih t (List.mem_of_getElem? ht)).1 hq⟩
      · rintro ⟨t, ht, hp⟩
        refine Or.inr ⟨i, t, p, ht, (ih t (List.mem_of_getElem? ht)).2 hp, ?_⟩
        rw [Nat.zero_add]

theorem subtree?_of_split {t u : Tree α} {p : Path} {before after : List (Path × Tree α)}
    (split : t.nodes = before ++ (p, u) :: after) : t.subtree? p = some u :=
  mem_nodes.1 (split ▸ List.mem_append_right before List.mem_cons_self)

theorem nodes_map {β : Type} (f : α → β) (t : Tree α) :
    (t.map f).nodes = t.nodes.map fun n => (n.1, n.2.map f) := by
  have siblings (i : Nat) (ts : List (Tree α))
      (h : ∀ t ∈ ts, (t.map f).nodes = t.nodes.map fun n => (n.1, n.2.map f)) :
      nodesFrom i (ts.map (map f)) = (nodesFrom i ts).map fun n => (n.1, n.2.map f) := by
    induction ts generalizing i with
    | nil => rfl
    | cons t ts ih =>
      rw [List.map_cons, nodesFrom_cons, nodesFrom_cons, h t List.mem_cons_self,
        ih (i + 1) fun u hu => h u (List.mem_cons_of_mem t hu), List.map_append, List.map_map,
        List.map_map]
      rfl
  induction t using induction with
  | node v ts ih => rw [map_node, nodes_node, siblings 0 ts ih, nodes_node, List.map_cons, map_node]

theorem subtree?_map {β : Type} (f : α → β) (t : Tree α) (p : Path) :
    (t.map f).subtree? p = (t.subtree? p).map (map f) := by
  induction p generalizing t with
  | nil => simp
  | cons i p ih =>
    cases t with
    | node v ts =>
      rw [map_node, subtree?_cons, subtree?_cons, List.getElem?_map, Option.bind_map,
        Option.map_bind]
      exact congrArg _ (funext ih)

/-- A node comes before its children, and a child with all below it before the next child. -/
theorem nodes_ascending (t : Tree α) : (t.nodes.map (·.1)).Pairwise (· < ·) := by
  -- within a child the order is its own; different children differ in their number
  have siblings (i : Nat) (ts : List (Tree α))
      (h : ∀ t ∈ ts, (t.nodes.map (·.1)).Pairwise (· < ·)) :
      ((nodesFrom i ts).map (·.1)).Pairwise (· < ·) := by
    induction ts generalizing i with
    | nil => exact List.Pairwise.nil
    | cons t ts ih =>
      rw [nodesFrom_cons, List.map_append, List.map_map, List.pairwise_append]
      refine ⟨?_, ih (i + 1) fun u hu => h u (List.mem_cons_of_mem t hu), ?_⟩
      · have own := h t List.mem_cons_self
        rw [List.pairwise_map] at own ⊢
        exact own.imp fun hab => List.cons_lt_cons_iff.2 (Or.inr ⟨rfl, hab⟩)
      · intro p hp q hq
        obtain ⟨m, _, rfl⟩ := List.mem_map.1 hp
        obtain ⟨n, hn, rfl⟩ := List.mem_map.1 hq
        obtain ⟨j, _, r, _, _, he⟩ := mem_nodesFrom.1 hn
        simp only [Function.comp_apply]
        rw [he, List.cons_lt_cons_iff]
        exact Or.inl (by omega)
  induction t using induction with
  | node v ts ih =>
    rw [nodes_node, List.map_cons, List.pairwise_cons]
    refine ⟨?_, siblings 0 ts ih⟩
    intro p hp
    obtain ⟨n, hn, rfl⟩ := List.mem_map.1 hp
    obtain ⟨j, _, q, _, _, he⟩ := mem_nodesFrom.1 hn
    rw [he]
    exact List.nil_lt_cons (0 + j) q

theorem lt_concat (p : Path) (i : Nat) : p < p ++ [i] := by
  induction p with
  | nil => exact List.nil_lt_cons i []
  | cons j p ih => exact List.cons_lt_cons_iff.2 (Or.inr ⟨rfl, ih⟩)

theorem mem_before_iff {t : Tree α} {before after : List (Path × Tree α)} {n k : Path × Tree α}
    (split : t.nodes = before ++ n :: after) (hk : k ∈ t.nodes) : k ∈ before ↔ k.1 < n.1 := by
  have ascending := nodes_ascending t
  rw [split, List.map_append, List.map_cons, List.pairwise_append, List.pairwise_cons] at ascending
  obtain ⟨_, ⟨later, _⟩, earlier⟩ := ascending
  constructor
  · exact fun h => earlier k.1 (List.mem_map_of_mem h) n.1 List.mem_cons_self
  · intro h
    rw [split, List.mem_append, List.mem_cons] at hk
    rcases hk with hk | rfl | hk
    · exact hk
    · exact absurd h (List.lt_irrefl k.1)
    · exact absurd h (List.lt_asymm (later k.1 (List.mem_map_of_mem hk)))

theorem positions_nodup (t : Tree α) : (t.nodes.map (·.1)).Nodup :=
  (nodes_ascending t).imp fun {p q} h (e : p = q) => List.lt_irrefl q (e ▸ h)

theorem nodes_values (t : Tree α) : t.nodes.map (·.2.value) = t.values := by
  have siblings (i : Nat) (ts : List (Tree α))
      (h : ∀ t ∈ ts, t.nodes.map (·.2.value) = t.values) :
      (nodesFrom i ts).map (·.2.value) = ts.flatMap values := by
    induction ts generalizing i with
    | nil => rfl
    | cons t ts ih =>
      have rest := ih (i + 1) fun u hu => h u (List.mem_cons_of_mem t hu)
      rw [nodesFrom_cons, List.map_append, List.map_map, List.flatMap_cons,
        ← h t List.mem_cons_self, rest]
      rfl
  induction t using induction with
  | node v ts ih => rw [nodes_node, List.map_cons, siblings 0 ts ih, values_node, value_node]

theorem mem_values {t : Tree α} {v : α} :
    v ∈ t.values ↔ ∃ q u, t.subtree? q = some u ∧ u.value = v := by
  rw [← nodes_values, List.mem_map]
  constructor
  · rintro ⟨⟨q, u⟩, hn, rfl⟩
    exact ⟨q, u, mem_nodes.1 hn, rfl⟩
  · rintro ⟨q, u, hq, rfl⟩
    exact ⟨(q, u), mem_nodes.2 hq, rfl⟩

theorem subtree?_append (t : Tree α) (p q : Path) :
    t.subtree? (p ++ q) = (t.subtree? p).bind fun u => u.subtree? q := by
  induction p generalizing t with
  | nil => simp
  | cons i p ih =>
    cases t with
    | node v ts =>
      rw [List.cons_append, subtree?_cons, subtree?_cons, Option.bind_assoc]
      exact congrArg _ (funext ih)

theorem subtree?_concat (t : Tree α) (p : Path) (i : Nat) :
    t.subtree? (p ++ [i]) = (t.subtree? p).bind fun u => u.children[i]? := by
  rw [subtree?_append]
  refine congrArg _ (funext fun u => ?_)
  cases u with
  | node v ts => simp

theorem subtree?_replaceAt_disjoint (new : Tree α) {p q : Path} (t : Tree α)
    (above : ¬ p <+: q) (below : ¬ q <+: p) :
    (replaceAt new p t).subtree? q = t.subtree? q := by
  induction p generalizing q t with
  | nil => exact absurd List.nil_prefix above
  | cons i p ih =>
    cases q with
    | nil => exact absurd List.nil_prefix below
    | cons j q =>
      cases t with
      | node v ts =>
        rw [replaceAt_cons, subtree?_cons, subtree?_cons]
        by_cases hij : i = j
        · subst hij
          rw [List.getElem?_modify_eq, Option.map_eq_map, Option.bind_map]
          refine congrArg _ (funext fun t => ih t ?_ ?_)
          · exact fun h => above (List.cons_prefix_cons.2 ⟨rfl, h⟩)
          · exact fun h => below (List.cons_prefix_cons.2 ⟨rfl, h⟩)
        · rw [List.getElem?_modify_ne _ _ hij]

theorem header_replaceAt (new : Tree α) {p q : Path} (t : Tree α) (above : ¬ p <+: q) :
    ((replaceAt new p t).subtree? q).map (fun u => (u.value, u.children.length)) =
      (t.subtree? q).map fun u => (u.value, u.children.length) := by
  induction p generalizing q t with
  | nil => exact absurd List.nil_prefix above
  | cons i p ih =>
    cases t with
    | node v ts =>
      cases q with
      | nil => simp
      | cons j q =>
        rw [replaceAt_cons, subtree?_cons, subtree?_cons]
        by_cases hij : i = j
        · subst hij
          rw [List.getElem?_modify_eq, Option.map_eq_map, Option.bind_map, Option.map_bind,
            Option.map_bind]
          refine congrArg _ (funext fun t => ih t ?_)
          exact fun h => above (List.cons_prefix_cons.2 ⟨rfl, h⟩)
        · rw [List.getElem?_modify_ne _ _ hij]

theorem subtree?_replaceAt_above (new : Tree α) (q r : Path) (t : Tree α) :
    (replaceAt new (q ++ r) t).subtree? q = (t.subtree? q).map (replaceAt new r) := by
  induction q generalizing t with
  | nil => simp
  | cons i q ih =>
    cases t with
    | node v ts =>
      rw [List.cons_append, replaceAt_cons, subtree?_cons, subtree?_cons, List.getElem?_modify_eq,
        Option.map_eq_map, Option.bind_map, Option.map_bind]
      exact congrArg _ (funext ih)

/-- `u` is `t` with the subtree at `p` exchanged for `new`. -/
structure Replaced (new : Tree α) (p : Path) (t u : Tree α) : Prop where
  eq : u = replaceAt new p t
  here : u.subtree? p = some new
  /-- A position that is neither `p` nor below it keeps its value and its number of children. -/
  headers : ∀ q, ¬ p <+: q → (u.subtree? q).map (fun x => (x.value, x.children.length)) =
    (t.subtree? q).map fun x => (x.value, x.children.length)
  disjoint : ∀ q, ¬ p <+: q → ¬ q <+: p → u.subtree? q = t.subtree? q

theorem replaced (new : Tree α) {p : Path} {t : Tree α} (h : (t.subtree? p).isSome) :
    Replaced new p t (replaceAt new p t) :=
  ⟨rfl, subtree?_replaceAt new p t h, fun _ above => header_replaceAt new t above,
    fun _ above below => subtree?_replaceAt_disjoint new t above below⟩

end TreeRules.Tree
