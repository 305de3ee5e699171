import TreeRules.Rule.Basic
set_option autoImplicit false

/-!
# Reading rules

A rule is written as a pattern, an arrow and a template. The arrow is the token `->` outside all
parentheses, and there must be one of it. Parentheses that close nothing are passed over here; the
side that holds them is refused afterwards.
-/

namespace TreeRules

open Text

structure ArrowSearch where
  depth : Nat
  /-- The characters before the token in progress, the latest first. -/
  before : List Char
  word : List Char
  /-- The two sides of each arrow found, the latest first. -/
  found : List (List Char × List Char)

namespace ArrowSearch

def start : ArrowSearch := ⟨0, [], [], []⟩

def arrow : List Char := ['-', '>']

def endWord (s : ArrowSearch) (rest : List Char) : List (List Char × List Char) :=
  if s.depth = 0 ∧ s.word = arrow.reverse then (s.before.reverse, rest) :: s.found else s.found

def depthAfter (depth : Nat) (c : Char) : Nat :=
  if c = '(' then depth + 1 else if c = ')' then depth - 1 else depth

def run (s : ArrowSearch) : List Char → List (List Char × List Char)
  | [] => (s.endWord []).reverse
  | c :: cs =>
    if isTokenChar c then run { s with word := c :: s.word } cs
    else run ⟨depthAfter s.depth c, c :: (s.word ++ s.before), [], s.endWord (c :: cs)⟩ cs

end ArrowSearch

/-- What stands before and after each arrow of the text. -/
def arrowSplits (text : String) : List (String × String) :=
  (ArrowSearch.start.run text.toList).map fun p => (String.ofList p.1, String.ofList p.2)

namespace Rule

def parse (text : String) : Except RuleError Rule :=
  match arrowSplits text with
  | [(left, right)] =>
    match Pattern.parse left with
    | .error e => .error (.invalid .pattern e)
    | .ok pattern =>
      match Pattern.parse right with
      | .error e => .error (.invalid .template e)
      | .ok template => ofPatterns pattern template
  | _ => .error .form

end Rule
end TreeRules
