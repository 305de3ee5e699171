import TreeRules.Label
set_option autoImplicit false

namespace TreeRules

open Text

inductive LiteralTest
  | displayed
  | caseless
  | beginning
  | sameLength
  | always
  | never
  | different
  /-- The integers are equal if both denote one, otherwise the texts. -/
  | integer

def LiteralTest.holds (test : LiteralTest) (shown text : String) : Bool :=
  match test with
  | .displayed => shown == text
  | .caseless => sameUpToCase shown text
  | .beginning => text.toList.isPrefixOf shown.toList
  | .sameLength => shown.utf8ByteSize == text.utf8ByteSize
  | .always => true
  | .never => false
  | .different => shown != text
  | .integer =>
    match word? shown, word? text with
    | some m, some n => m == n
    | _, _ => shown == text

inductive LiteralMapper
  | identity
  | upper
  | numbered
  | number
  | constant (text : String)

def LiteralMapper.text (mapper : LiteralMapper) (seen : List String) (literal : String) : String :=
  match mapper with
  | .identity => literal
  | .upper => String.ofList (literal.toList.map Char.toUpper)
  | .numbered => literal ++ "#" ++ toString seen.length
  | .number => toString seen.length
  | .constant text => text

/-- Maps literals to labels. The state holds the literals mapped so far, the latest first. -/
def LiteralMapper.mapM {α : Type} [Label α] (mapper : LiteralMapper) (literal : String) :
    StateM (List String) α := do
  modify (literal :: ·)
  pure (Label.ofText (mapper.text (← get) literal))

end TreeRules
