import TreeRules.Text.Combining
import TreeRules.Text.Unprintable
set_option autoImplicit false

namespace TreeRules.Text

/-- The code point between braces behind `\u`, in lower case and without leading zeros. -/
def escapeCode (c : Char) : List Char :=
  ['\\', 'u', '\x7b'] ++ Nat.toDigits 16 c.toNat ++ ['\x7d']

def escape (quote c : Char) : List Char :=
  if c == '\x00' then ['\\', '0']
  else if c == '\t' then ['\\', 't']
  else if c == '\n' then ['\\', 'n']
  else if c == '\r' then ['\\', 'r']
  else if c == '\\' || c == quote then ['\\', c]
  else if isCombining c || isUnprintable c then escapeCode c
  else [c]

def quoteChar (c : Char) : String := String.ofList ('\'' :: escape '\'' c ++ ['\''])

def quoteText (text : String) : String :=
  String.ofList ('"' :: text.toList.flatMap (escape '"') ++ ['"'])

end TreeRules.Text
