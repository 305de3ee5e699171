import TreeRules.Bindings
import TreeRules.Pattern.Basic
set_option autoImplicit false

namespace TreeRules

structure Unbound where
  name : String
deriving DecidableEq

def Unbound.message (e : Unbound) : String := "template variable <" ++ e.name ++ "> is not bound"

namespace Pattern

variable {α : Type} {m : Type → Type} [Monad m]

mutual
@[specialize]
def instantiateM (mapper : String → m α) (b : Bindings (Tree α)) :
    Pattern → m (Except Unbound (Tree α))
  | var name =>
    pure (match b.find? name with
      | some t => .ok t
      | none => .error ⟨name⟩)
  | node text ps => do
    let v ← mapper text
    match ← instantiateAllM mapper b ps with
    | .ok ts => pure (.ok (.node v ts))
    | .error e => pure (.error e)
@[specialize]
def instantiateAllM (mapper : String → m α) (b : Bindings (Tree α)) :
    List Pattern → m (Except Unbound (List (Tree α)))
  | [] => pure (.ok [])
  | p :: ps => do
    match ← instantiateM mapper b p with
    | .error e => pure (.error e)
    | .ok t =>
      match ← instantiateAllM mapper b ps with
      | .ok ts => pure (.ok (t :: ts))
      | .error e => pure (.error e)
end

def instantiate (mapper : String → α) (b : Bindings (Tree α)) (p : Pattern) :
    Except Unbound (Tree α) :=
  Id.run (instantiateM (fun text => pure (mapper text)) b p)

end Pattern
end TreeRules
