import TreeRules.Text.Decimal
set_option autoImplicit false

namespace TreeRules

open Text

/-- The equality of labels need not be reflexive, nor tell apart what is displayed differently. -/
class Label (α : Type) extends ToString α where
  [equality : BEq α]
  ofText : String → α

-- where a type has an equality of its own, such as that of texts, that one is meant
instance (priority := low) {α : Type} [Label α] : BEq α := Label.equality

instance : Label String where
  ofText text := text

/-- An integer of 64 bits. What denotes none becomes `-1`. -/
structure WordLabel where
  word : Int64
deriving DecidableEq

instance : Label WordLabel where
  toString v := toString v.word.toInt
  ofText text := ⟨Int64.ofInt ((word? text).getD (-1))⟩

def sameUpToCase (a b : String) : Bool := a.toList.map Char.toLower == b.toList.map Char.toLower

structure CaselessLabel where
  text : String

instance : BEq CaselessLabel := ⟨fun v w => sameUpToCase v.text w.text⟩

instance : Label CaselessLabel where
  toString v := v.text
  ofText text := ⟨text⟩

/-- A text of which `NaN` is equal to nothing, itself included. -/
structure PartialLabel where
  text : String

instance : BEq PartialLabel := ⟨fun v w => v.text != "NaN" && v.text == w.text⟩

instance : Label PartialLabel where
  toString v := v.text
  ofText text := ⟨text⟩

end TreeRules
