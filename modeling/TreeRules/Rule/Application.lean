import TreeRules.Instantiation
import TreeRules.Matching
import TreeRules.Rule.Basic
import TreeRules.Tree.Update
set_option autoImplicit false

namespace TreeRules
namespace Rule

variable {α : Type} [BEq α] {m : Type → Type} [Monad m]

@[specialize]
def applyM (r : Rule) (test : α → String → m Bool) (mapper : String → m α) (t : Tree α) :
    m (Option (Tree α)) := do
  match ← r.pattern.captureM test t with
  | none => pure none
  | some b =>
    let made ← r.template.instantiateM mapper b
    pure made.toOption

@[specialize]
def applyFirstM (r : Rule) (test : α → String → m Bool) (mapper : String → m α) (t : Tree α) :
    m (Option (Tree α)) :=
  t.updateFirstM (r.applyM test mapper)

def applyWith (r : Rule) (test : α → String → Bool) (mapper : String → α) (t : Tree α) :
    Option (Tree α) :=
  Id.run (r.applyM (fun v text => pure (test v text)) (fun text => pure (mapper text)) t)

def applyFirstWith (r : Rule) (test : α → String → Bool) (mapper : String → α) (t : Tree α) :
    Option (Tree α) :=
  Id.run (r.applyFirstM (fun v text => pure (test v text)) (fun text => pure (mapper text)) t)

/-- Applies the rule to a tree of texts, whose literals stand for themselves. -/
def apply (r : Rule) (t : Tree String) : Option (Tree String) :=
  r.applyWith Pattern.displays id t

def applyFirst (r : Rule) (t : Tree String) : Option (Tree String) :=
  r.applyFirstWith Pattern.displays id t

end Rule
end TreeRules
