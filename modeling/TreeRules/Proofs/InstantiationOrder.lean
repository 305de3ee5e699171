import TreeRules.Proofs.Instantiating
set_option autoImplicit false

/-!
# Instantiation as a walk over the template

Instantiation takes the nodes of the template in pre-order. A literal is mapped, a variable is looked
up, and the walk ends at the first variable that nothing is bound to. The effects are those of
mapping the literals up to there. The tree that is made holds their values at the positions of the
literals and the bound trees at those of the variables, so it is known once the values are.
-/

namespace TreeRules

namespace Pattern

variable {α : Type}

/-- What the nodes `ns` of a template call for is found at their positions: at a variable the tree
bound to it, at a literal a node with as many children. The values there are `vs`, in order. -/
inductive Filled (b : Bindings (Tree α)) (look : Path → Option (Tree α)) :
    List (Path × Tree Symbol) → List α → Prop
  | nil : Filled b look [] []
  | var {q : Path} {name : String} {ss : List (Tree Symbol)} {t : Tree α}
      {ns : List (Path × Tree Symbol)} {vs : List α} (bound : b.find? name = some t)
      (here : look q = some t) (rest : Filled b look ns vs) :
      Filled b look ((q, .node (.var name) ss) :: ns) vs
  | literal {q : Path} {text : String} {ss : List (Tree Symbol)} {v : α} {ts : List (Tree α)}
      {ns : List (Path × Tree Symbol)} {vs : List α} (here : look q = some (.node v ts))
      (arity : ts.length = ss.length) (rest : Filled b look ns vs) :
      Filled b look ((q, .node (.literal text) ss) :: ns) (v :: vs)

/-- The tree is the template with the bound trees for its variables and the values `vs` for its
literals. -/
def Instance (b : Bindings (Tree α)) (p : Pattern) (vs : List α) (u : Tree α) : Prop :=
  Filled b u.subtree? p.symbols.nodes vs

section

variable {b : Bindings (Tree α)} {look look' : Path → Option (Tree α)}
  {ns ks : List (Path × Tree Symbol)} {vs ws : List α}

theorem Filled.append (h : Filled b look ns vs) (h' : Filled b look ks ws) :
    Filled b look (ns ++ ks) (vs ++ ws) := by
  induction h with
  | nil => exact h'
  | var bound here _ ih => exact .var bound here ih
  | literal here arity _ ih => exact .literal here arity ih

theorem Filled.inChild {i : Nat} (h : Filled b (fun q => look (i :: q)) ns vs) :
    Filled b look (ns.map fun n => (i :: n.1, n.2)) vs := by
  induction h with
  | nil => exact .nil
  | var bound here _ ih => exact .var bound here ih
  | literal here arity _ ih => exact .literal here arity ih

theorem instance_var {name : String} {t : Tree α} (h : b.find? name = some t) :
    Instance b (var name) [] t :=
  .var h (Tree.subtree?_nil t) .nil

def FilledFrom (b : Bindings (Tree α)) (ps : List Pattern) (vs : List α) (us : List (Tree α)) :
    Prop :=
  us.length = ps.length ∧ ∀ (look : Path → Option (Tree α)) (i : Nat),
    (∀ j q, look ((i + j) :: q) = us[j]?.bind fun u => u.subtree? q) →
    Filled b look (Tree.nodesFrom i (ps.map symbols)) vs

theorem filledFrom_cons {p : Pattern} {ps : List Pattern} {u : Tree α} {us : List (Tree α)}
    (h : Instance b p vs u) (h' : FilledFrom b ps ws us) :
    FilledFrom b (p :: ps) (vs ++ ws) (u :: us) := by
  refine ⟨by rw [List.length_cons, h'.1, List.length_cons], fun look i hlook => ?_⟩
  have here : (fun q => look (i :: q)) = u.subtree? := by
    funext q
    simpa using hlook 0 q
  have later : ∀ j q, look ((i + 1 + j) :: q) = us[j]?.bind fun u => u.subtree? q := by
    intro j q
    rw [Nat.add_assoc, Nat.add_comm 1 j, hlook (j + 1) q, List.getElem?_cons_succ]
  rw [List.map_cons, Tree.nodesFrom_cons]
  refine Filled.append (Filled.inChild ?_) (h'.2 look (i + 1) later)
  rw [here]
  exact h

theorem instance_node {text : String} {ps : List Pattern} {v : α} {us : List (Tree α)}
    (h : FilledFrom b ps vs us) : Instance b (node text ps) (v :: vs) (.node v us) := by
  rw [Instance, symbols_node, Tree.nodes_node]
  refine .literal (Tree.subtree?_nil _) (by rw [h.1, List.length_map]) (h.2 _ 0 fun j q => ?_)
  rw [Nat.zero_add, Tree.subtree?_cons]

def SameAt (look look' : Path → Option (Tree α)) (n : Path × Tree Symbol) : Prop :=
  match n.2.value with
  | .var _ => look n.1 = look' n.1
  | .literal _ => ∃ v ts ts', look n.1 = some (.node v ts) ∧ look' n.1 = some (.node v ts') ∧
      ts.length = n.2.children.length ∧ ts'.length = n.2.children.length

theorem Filled.same (h : Filled b look ns vs) (h' : Filled b look' ns vs) :
    ∀ n ∈ ns, SameAt look look' n := by
  induction h with
  | nil => exact fun n hn => absurd hn List.not_mem_nil
  | var bound here _ ih =>
    cases h' with
    | var bound' here' rest' =>
      refine List.forall_mem_cons.2 ⟨?_, ih rest'⟩
      exact here.trans (bound.symm.trans bound' ▸ here'.symm)
  | literal here arity _ ih =>
    cases h' with
    | literal here' arity' rest' =>
      exact List.forall_mem_cons.2 ⟨⟨_, _, _, here, here', arity, arity'⟩, ih rest'⟩

theorem eq_of_sameAt {p : Pattern} {u u' : Tree α}
    (h : ∀ n ∈ p.symbols.nodes, SameAt u.subtree? u'.subtree? n) : u = u' := by
  induction p using Pattern.induction generalizing u u' with
  | var name =>
    have root := h ([], .leaf (.var name)) List.mem_cons_self
    change u.subtree? [] = u'.subtree? [] at root
    rwa [Tree.subtree?_nil, Tree.subtree?_nil, Option.some.injEq] at root
  | node text ps ih =>
    rw [symbols_node] at h
    obtain ⟨v, ts, ts', hu, hu', arity, arity'⟩ :=
      h ([], .node (.literal text) (ps.map symbols)) List.mem_cons_self
    rw [Tree.subtree?_nil, Option.some.injEq] at hu hu'
    subst hu hu'
    rw [Tree.children_node, List.length_map] at arity arity'
    refine congrArg _ (List.ext_getElem (arity.trans arity'.symm) fun i hi hi' => ?_)
    have inside : i < ps.length := arity ▸ hi
    refine ih ps[i] (List.getElem_mem inside) fun n hn => ?_
    have below : (i :: n.1, n.2) ∈ (Tree.node (.literal text) (ps.map symbols)).nodes := by
      rw [Tree.mem_nodes, Tree.subtree?_cons, List.getElem?_map, List.getElem?_eq_getElem inside]
      exact Tree.mem_nodes.1 hn
    have same := h _ below
    simp only [SameAt, Tree.subtree?_cons, List.getElem?_eq_getElem hi,
      List.getElem?_eq_getElem hi', Option.bind_some] at same
    exact same

theorem Instance.unique {p : Pattern} {u u' : Tree α} (h : Instance b p vs u)
    (h' : Instance b p vs u') : u = u' :=
  eq_of_sameAt (Filled.same h h')

end

section

variable {m : Type → Type} [Monad m] (mapper : String → m α) (b : Bindings (Tree α))

theorem bind_congr_except {ε β γ : Type} {make : m (Except ε β)} {f g : Except ε β → m γ}
    (ok : ∀ x, f (.ok x) = g (.ok x)) (error : ∀ e, f (.error e) = g (.error e)) :
    make >>= f = make >>= g := by
  refine congrArg _ (funext fun r => ?_)
  cases r with
  | ok x => exact ok x
  | error e => exact error e

/-- The values of the literals among the symbols, unless one of the variables is unbound. -/
def mapLiteralsM : List Symbol → m (Except Unbound (List α))
  | [] => pure (.ok [])
  | .var name :: ss =>
    if (b.find? name).isSome then mapLiteralsM ss else pure (.error ⟨name⟩)
  | .literal text :: ss => do
    let v ← mapper text
    let vs ← mapLiteralsM ss
    pure (vs.map (v :: ·))

variable [LawfulMonad m]

theorem mapLiteralsM_append (ss ks : List Symbol) :
    mapLiteralsM mapper b (ss ++ ks) = (do
      match ← mapLiteralsM mapper b ss with
      | .ok vs =>
        let ws ← mapLiteralsM mapper b ks
        pure (ws.map (vs ++ ·))
      | .error e => pure (.error e)) := by
  induction ss with
  | nil =>
    simp only [List.nil_append, mapLiteralsM, pure_bind]
    exact (bind_pure _).symm.trans (bind_congr_except (fun _ => rfl) fun _ => rfl)
  | cons s ss ih =>
    cases s with
    | var name =>
      rw [List.cons_append, mapLiteralsM, mapLiteralsM, ih]
      cases (b.find? name).isSome <;> simp
    | literal text =>
      simp only [List.cons_append, mapLiteralsM, ih, bind_assoc, pure_bind]
      refine congrArg _ (funext fun v => bind_congr_except (fun vs => ?_) fun e => ?_)
      · simp only [Except.map, bind_assoc, pure_bind]
        exact bind_congr_except (fun _ => rfl) fun _ => rfl
      · simp [Except.map]

theorem mapLiteralsM_bound {ss : List Symbol}
    (h : ∀ name, .var name ∈ ss → (b.find? name).isSome = true) :
    mapLiteralsM mapper b ss = (do
      let vs ← (ss.filterMap Symbol.literal?).mapM mapper
      pure (.ok vs)) := by
  induction ss with
  | nil => simp [mapLiteralsM]
  | cons s ss ih =>
    have later := ih fun name hn => h name (List.mem_cons_of_mem s hn)
    cases s with
    | var name =>
      rw [mapLiteralsM, if_pos (h name List.mem_cons_self), later]
      rfl
    | literal text =>
      rw [mapLiteralsM, later, List.filterMap_cons]
      simp [Symbol.literal?, Except.map]

theorem mapLiteralsM_unbound {before after : List Symbol} {name : String}
    (h : ∀ other, .var other ∈ before → (b.find? other).isSome = true)
    (unbound : b.find? name = none) :
    mapLiteralsM mapper b (before ++ .var name :: after) = (do
      let _ ← (before.filterMap Symbol.literal?).mapM mapper
      pure (.error ⟨name⟩)) := by
  rw [mapLiteralsM_append, mapLiteralsM_bound mapper b h]
  simp [mapLiteralsM, unbound, Except.map]

mutual
/-- Instantiation is an action that finds the values of the literals, or the first variable that is
unbound, and makes the instance with these values. -/
theorem instantiateM_eq (p : Pattern) :
    ∃ make : m (Except Unbound {x : List α × Tree α // Instance b p x.1 x.2}),
      p.instantiateM mapper b = (do let r ← make; pure (r.map (·.1.2))) ∧
        mapLiteralsM mapper b p.symbols.values = (do let r ← make; pure (r.map (·.1.1))) := by
  cases p with
  | var name =>
    have values : (var name).symbols.values = [.var name] := rfl
    cases found : b.find? name with
    | none =>
      refine ⟨pure (.error ⟨name⟩), ?_, ?_⟩
      · simp [instantiateM, found, Except.map]
      · rw [values]
        simp [mapLiteralsM, found, Except.map]
    | some t =>
      refine ⟨pure (.ok ⟨([], t), instance_var found⟩), ?_, ?_⟩
      · simp [instantiateM, found, Except.map]
      · rw [values]
        simp [mapLiteralsM, found, Except.map]
  | node text ps =>
    obtain ⟨make, hmake, hvalues⟩ := instantiateAllM_eq ps
    have values : (node text ps).symbols.values =
        .literal text :: ps.flatMap fun p => p.symbols.values := by
      rw [symbols_node, Tree.values_node, List.flatMap_map]
    -- the mapper runs on the literal before anything below it
    refine ⟨do
      let v ← mapper text
      let r ← make
      pure (r.map fun x => ⟨(v :: x.1.1, .node v x.1.2), instance_node x.2⟩), ?_, ?_⟩
    · simp only [instantiateM, hmake, bind_assoc, pure_bind]
      exact congrArg _ (funext fun v => bind_congr_except (fun _ => rfl) fun _ => rfl)
    · simp only [values, mapLiteralsM, hvalues, bind_assoc, pure_bind]
      exact congrArg _ (funext fun v => bind_congr_except (fun _ => rfl) fun _ => rfl)
theorem instantiateAllM_eq (ps : List Pattern) :
    ∃ make : m (Except Unbound {x : List α × List (Tree α) // FilledFrom b ps x.1 x.2}),
      instantiateAllM mapper b ps = (do let r ← make; pure (r.map (·.1.2))) ∧
        mapLiteralsM mapper b (ps.flatMap fun p => p.symbols.values) =
          (do let r ← make; pure (r.map (·.1.1))) := by
  cases ps with
  | nil =>
    refine ⟨pure (.ok ⟨([], []), rfl, fun _ _ _ => .nil⟩), ?_, ?_⟩
    · simp [instantiateAllM, Except.map]
    · simp [mapLiteralsM, Except.map]
  | cons p ps =>
    obtain ⟨make, hmake, hvalues⟩ := instantiateM_eq p
    obtain ⟨makeAll, hmakeAll, hvaluesAll⟩ := instantiateAllM_eq ps
    refine ⟨do
      match ← make with
      | .error e => pure (.error e)
      | .ok x =>
        let r ← makeAll
        pure (r.map fun y => ⟨(x.1.1 ++ y.1.1, x.1.2 :: y.1.2), filledFrom_cons x.2 y.2⟩), ?_, ?_⟩
    · simp only [instantiateAllM, hmake, hmakeAll, bind_assoc, pure_bind]
      refine bind_congr_except (fun x => ?_) fun e => ?_
      · simp only [Except.map, bind_assoc, pure_bind]
        exact bind_congr_except (fun _ => rfl) fun _ => rfl
      · simp [Except.map]
    · rw [List.flatMap_cons, mapLiteralsM_append, hvalues, hvaluesAll]
      simp only [bind_assoc, pure_bind]
      refine bind_congr_except (fun x => ?_) fun e => ?_
      · simp only [Except.map, bind_assoc, pure_bind]
        exact bind_congr_except (fun _ => rfl) fun _ => rfl
      · simp [Except.map]
end

end

section

variable {σ : Type} (mapper : String → StateM σ α) {b : Bindings (Tree α)} {p : Pattern} {s s' : σ}

theorem run_instantiateM_ok {vs : List α}
    (h : (mapLiteralsM mapper b p.symbols.values).run s = (.ok vs, s')) :
    ∃ u, (p.instantiateM mapper b).run s = (.ok u, s') ∧ Instance b p vs u := by
  obtain ⟨make, hmake, hvalues⟩ := instantiateM_eq mapper b p
  rw [hvalues, StateT.run_bind] at h
  rw [hmake, StateT.run_bind]
  generalize make.run s = done at h ⊢
  obtain ⟨e | x, s₁⟩ := done
  · cases h
  · cases h
    exact ⟨x.1.2, rfl, x.2⟩

theorem run_instantiateM_error {e : Unbound}
    (h : (mapLiteralsM mapper b p.symbols.values).run s = (.error e, s')) :
    (p.instantiateM mapper b).run s = (.error e, s') := by
  obtain ⟨make, hmake, hvalues⟩ := instantiateM_eq mapper b p
  rw [hvalues, StateT.run_bind] at h
  rw [hmake, StateT.run_bind]
  generalize make.run s = done at h ⊢
  obtain ⟨e | x, s₁⟩ := done
  · cases h
    rfl
  · cases h

theorem run_instantiateM_bound (h : Bound b p) (s : σ) :
    ∃ vs s' u, (p.literals.mapM mapper).run s = (vs, s') ∧
      (p.instantiateM mapper b).run s = (.ok u, s') ∧ Instance b p vs u := by
  have walk := mapLiteralsM_bound mapper b fun name hn => h name (mem_names.2 hn)
  rw [← literals_eq_filterMap] at walk
  have run : (mapLiteralsM mapper b p.symbols.values).run s =
      (.ok ((p.literals.mapM mapper).run s).1, ((p.literals.mapM mapper).run s).2) := by
    rw [walk]
    rfl
  obtain ⟨u, made, inst⟩ := run_instantiateM_ok mapper run
  exact ⟨_, _, u, rfl, made, inst⟩

theorem run_instantiateM_unbound {before after : List Symbol} {name : String}
    (split : p.symbols.values = before ++ .var name :: after)
    (h : ∀ other, .var other ∈ before → (b.find? other).isSome = true)
    (unbound : b.find? name = none) (s : σ) :
    (p.instantiateM mapper b).run s =
      (.error ⟨name⟩, (((before.filterMap Symbol.literal?).mapM mapper).run s).2) := by
  refine run_instantiateM_error mapper ?_
  rw [split, mapLiteralsM_unbound mapper b h unbound]
  rfl

end

end Pattern
end TreeRules
