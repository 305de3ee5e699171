import TreeRules.Tree.Basic
set_option autoImplicit false

namespace TreeRules
namespace Tree

variable {α : Type} {m : Type → Type} [Monad m]

mutual
@[specialize]
def updateFirstM (f : Tree α → m (Option (Tree α))) : Tree α → m (Option (Tree α))
  | node v ts => do
    match ← f (node v ts) with
    | some new => pure (some new)
    | none =>
      let us? ← updateFirstAllM f ts
      pure (us?.map (node v))
@[specialize]
def updateFirstAllM (f : Tree α → m (Option (Tree α))) : List (Tree α) → m (Option (List (Tree α)))
  | [] => pure none
  | t :: ts => do
    match ← updateFirstM f t with
    | some new => pure (some (new :: ts))
    | none =>
      let us? ← updateFirstAllM f ts
      pure (us?.map (t :: ·))
end

def updateFirst (f : Tree α → Option (Tree α)) (t : Tree α) : Option (Tree α) :=
  Id.run (updateFirstM (fun u => pure (f u)) t)

inductive Target (α : Type)
  | value (v : α)
  /-- The node visited as number `n`, counted from one. -/
  | visit (n : Nat)
  /-- The first node whose subtree has `n` nodes. -/
  | size (n : Nat)
  | nowhere

def Target.hits [BEq α] (target : Target α) (visited : List (Tree α)) (t : Tree α) : Bool :=
  match target with
  | .value v => t.value == v
  | .visit k => visited.length == k
  | .size k => t.size == k
  | .nowhere => false

/-- Puts `make t` in place of the target `t`. The state holds the nodes visited so far, the latest
first. -/
def replaceTarget [BEq α] (target : Target α) (make : Tree α → Tree α) (t : Tree α) :
    StateM (List (Tree α)) (Option (Tree α)) :=
  updateFirstM (fun u => do
    modify (u :: ·)
    pure (if target.hits (← get) u then some (make u) else none)) t

end Tree
end TreeRules
