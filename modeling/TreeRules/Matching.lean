import TreeRules.Bindings
import TreeRules.Pattern.Basic
set_option autoImplicit false

/-!
# Matching

A pattern matches a tree if every literal passes a test against the value at its place, with the
same number of children, and every variable stands for equal subtrees wherever it occurs. Literals
and variables are taken in pre-order, and the first one that fails ends the attempt. `captureM` lets
the test run in a monad, so that its calls can be observed; the test of `capture?` is pure.
-/

namespace TreeRules

variable {α : Type}

/-- Binds the name, or compares with the tree that it is bound to already. -/
def Bindings.admit? [BEq α] (b : Bindings (Tree α)) (name : String) (t : Tree α) :
    Option (Bindings (Tree α)) :=
  match b.find? name with
  | none => some (b.insert name t)
  | some bound => if bound.agrees t then some b else none

namespace Pattern

def captured (p : Pattern) (b : Bindings (Tree α)) : List (String × Tree α) :=
  p.vars.filterMap fun name => (b.find? name).map fun t => (name, t)

variable [BEq α]

section
variable {m : Type → Type} [Monad m]

mutual
@[specialize]
def extendM (test : α → String → m Bool) :
    Pattern → Tree α → Bindings (Tree α) → m (Option (Bindings (Tree α)))
  | var name, t, b => pure (b.admit? name t)
  | node text ps, .node v ts, b => do
    if ← test v text then
      if ts.length = ps.length then extendAllM test ps ts b else pure none
    else pure none
@[specialize]
def extendAllM (test : α → String → m Bool) :
    List Pattern → List (Tree α) → Bindings (Tree α) → m (Option (Bindings (Tree α)))
  | p :: ps, t :: ts, b => do
    match ← extendM test p t b with
    | some b => extendAllM test ps ts b
    | none => pure none
  | _, _, b => pure (some b)
end

@[specialize]
def captureM (p : Pattern) (test : α → String → m Bool) (t : Tree α) :
    m (Option (Bindings (Tree α))) :=
  extendM test p t .empty

end

def captureWith? (p : Pattern) (test : α → String → Bool) (t : Tree α) :
    Option (Bindings (Tree α)) :=
  Id.run (p.captureM (fun v text => pure (test v text)) t)

def matchesWith (p : Pattern) (test : α → String → Bool) (t : Tree α) : Bool :=
  (p.captureWith? test t).isSome

def displays [ToString α] (v : α) (text : String) : Bool := toString v == text

def capture? [ToString α] (p : Pattern) (t : Tree α) : Option (Bindings (Tree α)) :=
  p.captureWith? displays t

end Pattern
end TreeRules
