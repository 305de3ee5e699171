import TreeRules.Matching
import TreeRules.Proofs.Positions
set_option autoImplicit false

/-!
# Matching as a walk over the pattern

Matching is a walk over the nodes of the pattern in pre-order. Each node asks something of the tree
at its own position only, and the walk ends with the first node that is refused. The walk is stated
for a test with effects; if these do not depend on the answers, the calls form a list that a pure
walk computes.
-/

namespace TreeRules.Pattern

variable {α : Type} [BEq α]

section
variable {m : Type → Type} [Monad m]

/-- What one node of the pattern asks of the tree that `look` finds at its position. -/
def checkM (test : α → String → m Bool) (look : Path → Option (Tree α)) (n : Path × Tree Symbol)
    (b : Bindings (Tree α)) : m (Option (Bindings (Tree α))) :=
  match n.2.value, look n.1 with
  | _, none => pure none
  | .var name, some t => pure (b.admit? name t)
  | .literal text, some t => do
    if ← test t.value text then
      pure (if t.children.length = n.2.children.length then some b else none)
    else pure none

def checkAllM (test : α → String → m Bool) (look : Path → Option (Tree α)) :
    List (Path × Tree Symbol) → Bindings (Tree α) → m (Option (Bindings (Tree α)))
  | [], b => pure (some b)
  | n :: ns, b => do
    match ← checkM test look n b with
    | some b => checkAllM test look ns b
    | none => pure none

theorem checkAllM_below (test : α → String → m Bool) (look : Path → Option (Tree α)) (i : Nat)
    (ns : List (Path × Tree Symbol)) (b : Bindings (Tree α)) :
    checkAllM test look (ns.map fun n => (i :: n.1, n.2)) b =
      checkAllM test (fun q => look (i :: q)) ns b := by
  induction ns generalizing b with
  | nil => rfl
  | cons n ns ih =>
    simp only [List.map_cons, checkAllM, ih]
    rfl

variable [LawfulMonad m]

theorem checkAllM_append (test : α → String → m Bool) (look : Path → Option (Tree α))
    (ns ks : List (Path × Tree Symbol)) (b : Bindings (Tree α)) :
    checkAllM test look (ns ++ ks) b = (do
      match ← checkAllM test look ns b with
      | some b => checkAllM test look ks b
      | none => pure none) := by
  induction ns generalizing b with
  | nil => simp [checkAllM]
  | cons n ns ih =>
    simp only [List.cons_append, checkAllM, bind_assoc]
    refine congrArg _ (funext fun b? => ?_)
    cases b? with
    | none => simp
    | some b => exact ih b

theorem extendAllM_eq_checkAllM (test : α → String → m Bool) (look : Path → Option (Tree α)) (i : Nat)
    (ps : List Pattern) (ts : List (Tree α)) (b : Bindings (Tree α)) (h : ts.length = ps.length)
    (hlook : ∀ j q, look ((i + j) :: q) = ts[j]?.bind fun t => t.subtree? q)
    (ih : ∀ p ∈ ps, ∀ t b, extendM test p t b = checkAllM test t.subtree? p.symbols.nodes b) :
    extendAllM test ps ts b = checkAllM test look (Tree.nodesFrom i (ps.map symbols)) b := by
  induction ps generalizing i ts b with
  | nil => simp [extendAllM, Tree.nodesFrom, checkAllM]
  | cons p ps ihs =>
    cases ts with
    | nil => simp at h
    | cons t ts =>
      -- `look` is shared by all siblings; child number `i` sees the part that starts with `i`
      have here : (fun q => look (i :: q)) = t.subtree? := by
        funext q
        simpa using hlook 0 q
      have later : ∀ j q, look ((i + 1 + j) :: q) = ts[j]?.bind fun t => t.subtree? q := by
        intro j q
        rw [Nat.add_assoc, Nat.add_comm 1 j, hlook (j + 1) q, List.getElem?_cons_succ]
      rw [List.map_cons, Tree.nodesFrom_cons, checkAllM_append, checkAllM_below, here, extendAllM,
        ih p List.mem_cons_self t b]
      refine congrArg _ (funext fun b? => ?_)
      cases b? with
      | none => rfl
      | some b =>
        exact ihs (i + 1) ts b (by simpa using h) later fun q hq => ih q (List.mem_cons_of_mem p hq)

theorem extendM_eq_checkAllM (test : α → String → m Bool) (p : Pattern) (t : Tree α)
    (b : Bindings (Tree α)) :
    extendM test p t b = checkAllM test t.subtree? p.symbols.nodes b := by
  induction p using Pattern.induction generalizing t b with
  | var name =>
    rw [symbols_var, Tree.leaf, Tree.nodes_node]
    simp only [Tree.nodesFrom, checkAllM, checkM, Tree.value_node, Tree.subtree?_nil, extendM,
      pure_bind]
    cases b.admit? name t <;> rfl
  | node text ps ih =>
    cases t with
    | node v ts =>
      rw [symbols_node, Tree.nodes_node]
      simp only [checkAllM, checkM, Tree.value_node, Tree.children_node, Tree.subtree?_nil, extendM,
        List.length_map, bind_assoc]
      refine congrArg _ (funext fun passed => ?_)
      cases passed with
      | false => simp
      | true =>
        by_cases h : ts.length = ps.length
        · simp only [h, ↓reduceIte, pure_bind]
          refine extendAllM_eq_checkAllM test _ 0 ps ts b h (fun j q => ?_) ih
          rw [Nat.zero_add, Tree.subtree?_cons]
        · simp [h]

theorem captureM_eq_checkAllM (p : Pattern) (test : α → String → m Bool) (t : Tree α) :
    p.captureM test t = checkAllM test t.subtree? p.symbols.nodes .empty :=
  extendM_eq_checkAllM test p t .empty

end

variable (test : α → String → Bool) (look : Path → Option (Tree α))

def check? (n : Path × Tree Symbol) (b : Bindings (Tree α)) : Option (Bindings (Tree α)) :=
  match n.2.value, look n.1 with
  | _, none => none
  | .var name, some t => b.admit? name t
  | .literal text, some t =>
    if test t.value text = true ∧ t.children.length = n.2.children.length then some b else none

def checkAll? : List (Path × Tree Symbol) → Bindings (Tree α) → Option (Bindings (Tree α))
  | [], b => some b
  | n :: ns, b => (check? test look n b).bind (checkAll? ns)

def asked (n : Path × Tree Symbol) : List (α × String) :=
  match n.2.value, look n.1 with
  | .literal text, some t => [(t.value, text)]
  | _, _ => []

/-- The calls of the test on a walk, in order. -/
def askedAll : List (Path × Tree Symbol) → Bindings (Tree α) → List (α × String)
  | [], _ => []
  | n :: ns, b => asked look n ++ ((check? test look n b).map (askedAll ns)).getD []

section
variable {m : Type → Type} [Monad m] [LawfulMonad m] (observe : α → String → m Unit)

def watched (v : α) (text : String) : m Bool := do
  observe v text
  pure (test v text)

omit [BEq α] in
theorem watched_silent : watched test (fun _ _ => (pure () : m Unit)) = fun v text =>
    pure (test v text) := by
  funext v text
  rw [watched, pure_bind]

omit [BEq α] in
theorem forM_silent (calls : List (α × String)) :
    (forM calls fun _ => (pure () : m Unit)) = pure () := by
  induction calls with
  | nil => rfl
  | cons c cs ih => rw [List.forM_cons, pure_bind, ih]

theorem checkM_watched (n : Path × Tree Symbol) (b : Bindings (Tree α)) :
    checkM (watched test observe) look n b = (do
      forM (asked look n) fun c => observe c.1 c.2
      pure (check? test look n b)) := by
  unfold checkM check? asked
  cases look n.1 with
  | none => cases n.2.value <;> simp
  | some t =>
    cases n.2.value with
    | var name => simp
    | literal text =>
      simp only [watched, bind_assoc, pure_bind, List.forM_cons, List.forM_nil]
      refine congrArg _ (funext fun _ => ?_)
      cases test t.value text <;> simp

theorem checkAllM_watched (ns : List (Path × Tree Symbol)) (b : Bindings (Tree α)) :
    checkAllM (watched test observe) look ns b = (do
      forM (askedAll test look ns b) fun c => observe c.1 c.2
      pure (checkAll? test look ns b)) := by
  induction ns generalizing b with
  | nil => simp [checkAllM, askedAll, checkAll?]
  | cons n ns ih =>
    rw [checkAllM, checkM_watched, askedAll, List.forM_append, bind_assoc, bind_assoc]
    refine congrArg _ (funext fun _ => ?_)
    rw [pure_bind, checkAll?]
    cases check? test look n b with
    | none => simp
    | some b => exact ih b

end

theorem captureWith?_eq_checkAll? (p : Pattern) (t : Tree α) :
    p.captureWith? test t = checkAll? test t.subtree? p.symbols.nodes .empty := by
  rw [captureWith?, ← watched_silent, captureM_eq_checkAllM, checkAllM_watched]
  rfl

theorem captureM_watched {m : Type → Type} [Monad m] [LawfulMonad m] (observe : α → String → m Unit)
    (p : Pattern) (t : Tree α) :
    p.captureM (watched test observe) t = (do
      forM (askedAll test t.subtree? p.symbols.nodes .empty) fun c => observe c.1 c.2
      pure (p.captureWith? test t)) := by
  rw [captureM_eq_checkAllM, checkAllM_watched, captureWith?_eq_checkAll?]

end TreeRules.Pattern
