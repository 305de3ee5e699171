import TreeRules.Tree.Basic
set_option autoImplicit false

namespace TreeRules

/-- The child indices on the way down from the root. -/
abbrev Path := List Nat

namespace Tree

variable {α : Type}

def subtree? : Tree α → Path → Option (Tree α)
  | t, [] => some t
  | node _ ts, i :: p => ts[i]?.bind fun t => subtree? t p

/-- The tree with `new` in place of the subtree at the position. A position outside the tree changes
nothing. -/
def replaceAt (new : Tree α) : Path → Tree α → Tree α
  | [], _ => new
  | i :: p, node v ts => node v (ts.modify i (replaceAt new p))

mutual
/-- All positions in pre-order, each with its subtree. -/
def nodes : Tree α → List (Path × Tree α)
  | node v ts => ([], node v ts) :: nodesFrom 0 ts
def nodesFrom : Nat → List (Tree α) → List (Path × Tree α)
  | _, [] => []
  | i, t :: ts => (nodes t).map (fun n => (i :: n.1, n.2)) ++ nodesFrom (i + 1) ts
end

def subtrees (t : Tree α) : List (Tree α) := t.nodes.map (·.2)

@[simp] theorem subtree?_nil (t : Tree α) : t.subtree? [] = some t := by cases t; rfl

@[simp] theorem subtree?_cons (v : α) (ts : List (Tree α)) (i : Nat) (p : Path) :
    (node v ts).subtree? (i :: p) = ts[i]?.bind fun t => t.subtree? p := rfl

@[simp] theorem replaceAt_nil (new t : Tree α) : replaceAt new [] t = new := by cases t; rfl

@[simp] theorem replaceAt_cons (new : Tree α) (v : α) (ts : List (Tree α)) (i : Nat) (p : Path) :
    replaceAt new (i :: p) (node v ts) = node v (ts.modify i (replaceAt new p)) := rfl

theorem subtree?_replaceAt (new : Tree α) (p : Path) (t : Tree α) (h : (t.subtree? p).isSome) :
    (replaceAt new p t).subtree? p = some new := by
  induction p generalizing t with
  | nil => simp
  | cons i p ih =>
    cases t with
    | node v ts =>
      simp only [subtree?_cons] at h
      cases ht : ts[i]? with
      | none => simp [ht] at h
      | some t =>
        simp only [ht, Option.bind_some] at h
        simp [ht, ih t h]

end Tree
end TreeRules
