import TreeRules.Pattern.Basic
import TreeRules.Tree.Position
import TreeRules.Tree.Reading
set_option autoImplicit false

namespace TreeRules

inductive PatternError
  | malformed (error : ParseError)
  | varWithChildren (name : String) (path : Path)
deriving DecidableEq

namespace PatternError

def message : PatternError → String
  | .malformed e => "malformed pattern: " ++ e.message
  | .varWithChildren name path =>
    "variable <" ++ name ++ "> has children (child path [" ++
      ", ".intercalate (path.map toString) ++ "])"

/-- The error as seen from the parent, of which the faulty tree is child number `i`. -/
def below (i : Nat) : PatternError → PatternError
  | .malformed e => .malformed e
  | .varWithChildren name path => .varWithChildren name (i :: path)

end PatternError

namespace Pattern

mutual
def ofSymbols : Tree Symbol → Except PatternError Pattern
  | .node (.var name) [] => .ok (var name)
  | .node (.var name) (_ :: _) => .error (.varWithChildren name [])
  | .node (.literal text) ts =>
    match ofSymbolsFrom 0 ts with
    | .ok ps => .ok (node text ps)
    | .error e => .error e
def ofSymbolsFrom : Nat → List (Tree Symbol) → Except PatternError (List Pattern)
  | _, [] => .ok []
  | i, t :: ts =>
    match ofSymbols t with
    | .error e => .error (e.below i)
    | .ok p =>
      match ofSymbolsFrom (i + 1) ts with
      | .ok ps => .ok (p :: ps)
      | .error e => .error e
end

def parse (text : String) : Except PatternError Pattern :=
  match Tree.parse text with
  | .ok t => ofSymbols (t.map Symbol.ofToken)
  | .error e => .error (.malformed e)

end Pattern
end TreeRules
