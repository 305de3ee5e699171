import TreeRules.Rule.Reading
import TreeRules.Rule.Application
set_option autoImplicit false

/-!
# The command line

One subcommand takes a pattern and trees, and tells for each tree what the variables stand for. The
other takes a rule and trees, and applies the rule to the root of each tree, or with `--anywhere` to
its first subtree that matches. There is one line of output for each tree, or an error and no line.
-/

namespace TreeRules

open Text

inductive Command
  | matching (pattern : String) (trees : List String)
  | applying (rule : String) (trees : List String) (anywhere : Bool)

inductive CommandError
  | pattern (error : PatternError)
  | rule (error : RuleError)
  | tree (text : String) (error : ParseError)

def CommandError.message : CommandError → String
  | .pattern e => e.message
  | .rule e => e.message
  | .tree text e => "invalid tree " ++ quoteText text ++ ": " ++ e.message

namespace Command

def readTrees : List String → Except CommandError (List (Tree String))
  | [] => .ok []
  | text :: texts =>
    match Tree.parse text with
    | .error e => .error (.tree text e)
    | .ok t =>
      match readTrees texts with
      | .ok ts => .ok (t :: ts)
      | .error e => .error e

def describeCaptured (entries : List (String × Tree String)) : String :=
  ", ".intercalate (entries.map fun e => e.1 ++ " = " ++ e.2.render)

def describeMatch (pattern : Pattern) (t : Tree String) : String :=
  match pattern.capture? t with
  | none => t.render ++ ": no match"
  | some b =>
    if b.isEmpty then t.render ++ ": match"
    else t.render ++ ": " ++ describeCaptured (pattern.captured b)

def describeResult (rule : Rule) (anywhere : Bool) (t : Tree String) : String :=
  match if anywhere then rule.applyFirst t else rule.apply t with
  | some new => new.render
  | none => t.render ++ " (unchanged)"

def run : Command → Except CommandError (List String)
  | matching text trees =>
    match Pattern.parse text with
    | .error e => .error (.pattern e)
    | .ok pattern => (readTrees trees).map fun ts => ts.map (describeMatch pattern)
  | applying text trees anywhere =>
    match Rule.parse text with
    | .error e => .error (.rule e)
    | .ok rule => (readTrees trees).map fun ts => ts.map (describeResult rule anywhere)

end Command
end TreeRules
