import TreeRules.Pattern.Reading
set_option autoImplicit false

namespace TreeRules

inductive Side
  | pattern
  | template
deriving DecidableEq

def Side.name : Side → String
  | .pattern => "pattern"
  | .template => "template"

inductive RuleError
  /-- The text does not split at exactly one arrow. -/
  | form
  | invalid (side : Side) (error : PatternError)
  /-- The template variables that the pattern lacks, in the order of their first occurrences. -/
  | missing (names : List String)
deriving DecidableEq

def RuleError.message : RuleError → String
  | .form => "a rule must have the form `pattern -> template`"
  | .invalid side e => "invalid " ++ side.name ++ ": " ++ e.message
  | .missing names => "template uses unbound variables: " ++ ", ".intercalate names

structure Rule where
  pattern : Pattern
  template : Pattern
  bound : ∀ name ∈ template.vars, name ∈ pattern.vars

namespace Rule

def without (bound names : List String) : List String :=
  names.filter fun name => !bound.contains name

def missing (pattern template : Pattern) : List String :=
  without pattern.vars template.vars

theorem bound_of_missing {pattern template : Pattern} (h : missing pattern template = []) :
    ∀ name ∈ template.vars, name ∈ pattern.vars := by
  intro name hn
  have := List.filter_eq_nil_iff.1 h name hn
  simpa using this

def ofPatterns (pattern template : Pattern) : Except RuleError Rule :=
  if h : missing pattern template = [] then .ok ⟨pattern, template, bound_of_missing h⟩
  else .error (.missing (missing pattern template))

theorem ext {r s : Rule} (hp : r.pattern = s.pattern) (ht : r.template = s.template) : r = s := by
  cases r; cases s
  simp only at hp ht
  subst hp ht
  rfl

instance : DecidableEq Rule := fun r s =>
  decidable_of_iff (r.pattern = s.pattern ∧ r.template = s.template)
    ⟨fun h => ext h.1 h.2, fun h => h ▸ ⟨rfl, rfl⟩⟩

instance : Hashable Rule := ⟨fun r => mixHash (hash r.pattern) (hash r.template)⟩

def render (r : Rule) : String := r.pattern.render ++ " -> " ++ r.template.render

instance : ToString Rule := ⟨render⟩

end Rule
end TreeRules
