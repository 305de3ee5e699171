import TreeRules.Tree.Basic
set_option autoImplicit false

namespace TreeRules

/-- A window on the children of a node: those from `front` to `back` are left. -/
structure Children (α : Type) where
  items : List (Tree α)
  front : Nat
  back : Nat
  front_le_back : front ≤ back
  back_le_length : back ≤ items.length

namespace Children

variable {α : Type}

def ofTree (t : Tree α) : Children α := ⟨t.children, 0, t.children.length, by omega, by omega⟩

def remaining (c : Children α) : List (Tree α) := (c.items.take c.back).drop c.front

def length (c : Children α) : Nat := c.back - c.front

def next (c : Children α) : Option (Tree α) × Children α :=
  if h : c.front = c.back then (none, c)
  else (c.items[c.front]?,
    { c with
      front := c.front + 1
      front_le_back := by have := c.front_le_back; omega })

def nextBack (c : Children α) : Option (Tree α) × Children α :=
  if h : c.front = c.back then (none, c)
  else (c.items[c.back - 1]?,
    { c with
      back := c.back - 1
      front_le_back := by have := c.front_le_back; omega
      back_le_length := by have := c.back_le_length; omega })

theorem remaining_ofTree (t : Tree α) : (ofTree t).remaining = t.children := by
  simp [ofTree, remaining]

theorem length_remaining (c : Children α) : c.remaining.length = c.length := by
  have := c.back_le_length
  simp only [remaining, length, List.length_drop, List.length_take]
  omega

/-- What may be asked of a window, or of the node behind it. -/
inductive Request
  | next
  | nextBack
  | length
  /-- Child number `index` of the node, whatever was taken before. -/
  | child (index : Nat)

inductive Answer (α : Type)
  | tree (found : Option (Tree α))
  | count (n : Nat)

def answer (c : Children α) : Request → Answer α × Children α
  | .next => (.tree c.next.1, c.next.2)
  | .nextBack => (.tree c.nextBack.1, c.nextBack.2)
  | .length => (.count c.length, c)
  | .child i => (.tree c.items[i]?, c)

def run (c : Children α) : List Request → List (Answer α)
  | [] => []
  | r :: rs => (c.answer r).1 :: run (c.answer r).2 rs

end Children
end TreeRules
