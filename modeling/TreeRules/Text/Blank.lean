import TreeRules.Text.CodePoints
set_option autoImplicit false

namespace TreeRules.Text

/-- The Unicode property White_Space. -/
def blankRanges : List (Nat × Nat) :=
  [(0x09, 0x0D), (0x20, 0x20), (0x85, 0x85), (0xA0, 0xA0), (0x1680, 0x1680), (0x2000, 0x200A),
    (0x2028, 0x2029), (0x202F, 0x202F), (0x205F, 0x205F), (0x3000, 0x3000)]

def isBlank (c : Char) : Bool := inRanges c.toNat blankRanges

def isMark (c : Char) : Bool := c == '(' || c == ')' || c == ','

def isTokenChar (c : Char) : Bool := !isBlank c && !isMark c

def isToken (text : String) : Bool := !text.isEmpty && text.toList.all isTokenChar

theorem isBlank_mark {c : Char} (h : isMark c = true) : isBlank c = false := by
  simp only [isMark, Bool.or_eq_true, beq_iff_eq] at h
  rcases h with (h | h) | h <;> subst h <;> decide

theorem isTokenChar_blank {c : Char} (h : isBlank c = true) : isTokenChar c = false := by
  simp [isTokenChar, h]

theorem isTokenChar_mark {c : Char} (h : isMark c = true) : isTokenChar c = false := by
  simp [isTokenChar, h]

end TreeRules.Text
