import TreeRules.Text.Blank
set_option autoImplicit false

namespace TreeRules

/-- The text closes no parenthesis that it does not open. -/
def Nested (cs : List Char) : Prop :=
  ∀ early late, cs = early ++ late → early.count ')' ≤ early.count '('

structure Balanced (cs : List Char) : Prop where
  nested : Nested cs
  even : cs.count '(' = cs.count ')'

section

variable {cs ds : List Char}

theorem Nested.append (hcs : Nested cs)
    (hds : ∀ early late, ds = early ++ late →
      cs.count ')' + early.count ')' ≤ cs.count '(' + early.count '(') : Nested (cs ++ ds) := by
  intro early late split
  rcases List.append_eq_append_iff.1 split with ⟨gap, rfl, hgap⟩ | ⟨gap, hcs', _⟩
  · rw [List.count_append, List.count_append]
    exact hds gap late hgap
  · exact hcs early gap hcs'

theorem nested_nil : Nested [] := by
  intro early late split
  simp [(List.append_eq_nil_iff.1 split.symm).1]

theorem balanced_nil : Balanced [] := ⟨nested_nil, rfl⟩

theorem Nested.concat (h : Nested cs) {c : Char}
    (hc : (cs ++ [c]).count ')' ≤ (cs ++ [c]).count '(') : Nested (cs ++ [c]) := by
  intro early late split
  rcases List.prefix_concat_iff.1 ⟨late, split.symm⟩ with rfl | ⟨gap, hcs⟩
  · exact hc
  · exact h early gap hcs.symm

theorem count_open_cons (cs : List Char) :
    ('(' :: cs).count '(' = cs.count '(' + 1 ∧ ('(' :: cs).count ')' = cs.count ')' :=
  ⟨List.count_cons_self, List.count_cons_of_ne (by decide)⟩

theorem count_concat_close (cs : List Char) :
    (cs ++ [')']).count '(' = cs.count '(' ∧ (cs ++ [')']).count ')' = cs.count ')' + 1 := by
  rw [List.count_append, List.count_append]
  exact ⟨rfl, rfl⟩

theorem Balanced.concat (h : Balanced cs) {c : Char} (hopen : c ≠ '(') (hclose : c ≠ ')') :
    Balanced (cs ++ [c]) := by
  have even : (cs ++ [c]).count '(' = (cs ++ [c]).count ')' := by
    simp [List.count_append, hopen, hclose, h.even]
  exact ⟨h.nested.concat (Nat.le_of_eq even.symm), even⟩

theorem Balanced.wrap (hcs : Balanced cs) (hds : Balanced ds) :
    Balanced (cs ++ '(' :: ds ++ [')']) := by
  have even := hcs.even
  have even' := hds.even
  have whole := count_open_cons ds
  have inside : Nested (cs ++ '(' :: ds) := by
    refine hcs.nested.append fun early late split => ?_
    cases early with
    | nil => simp only [List.count_nil]; omega
    | cons c early =>
      obtain ⟨rfl, hds'⟩ := List.cons.inj split
      have nested := hds.nested early late hds'
      have part := count_open_cons early
      omega
  have closed : (cs ++ '(' :: ds ++ [')']).count '(' = (cs ++ '(' :: ds ++ [')']).count ')' := by
    have counts := count_concat_close (cs ++ '(' :: ds)
    simp only [List.count_append] at counts ⊢
    omega
  exact ⟨inside.concat (Nat.le_of_eq closed.symm), closed⟩

theorem Balanced.closes (h : Balanced cs) {inner later : List Char}
    (split : cs = inner ++ '(' :: later) : ¬ Nested later := by
  intro unclosed
  have before := h.nested inner _ split
  have after := unclosed later [] (List.append_nil later).symm
  have even := h.even
  have one := count_open_cons later
  rw [split, List.count_append, List.count_append] at even
  omega

end

/-- The number of bytes of the UTF-8 form. -/
def byteSize (cs : List Char) : Nat := (String.ofList cs).utf8ByteSize

theorem byteSize_append (cs ds : List Char) : byteSize (cs ++ ds) = byteSize cs + byteSize ds := by
  rw [byteSize, String.ofList_append, String.utf8ByteSize_append]
  rfl

theorem byteSize_concat (cs : List Char) (c : Char) :
    byteSize (cs ++ [c]) = byteSize cs + c.utf8Size := by
  rw [byteSize_append, byteSize, byteSize, ← String.singleton_eq_ofList,
    String.utf8ByteSize_singleton]

theorem byteSize_pos {cs : List Char} (h : cs ≠ []) : 0 < byteSize cs := by
  obtain ⟨cs, c, rfl⟩ := List.eq_nil_or_concat cs |>.resolve_left h
  rw [List.concat_eq_append, byteSize_concat]
  have wide := c.utf8Size_pos
  omega

/-- The text holds open parentheses at the offsets, of which the innermost comes first. -/
inductive Encloses : List Char → List Nat → Prop
  | nil {cs : List Char} (balanced : Balanced cs) : Encloses cs []
  | cons {before inside : List Char} {offsets : List Nat} (outer : Encloses before offsets)
      (balanced : Balanced inside) :
      Encloses (before ++ '(' :: inside) (byteSize before :: offsets)

namespace Encloses

variable {cs : List Char} {offsets : List Nat}

theorem concat (h : Encloses cs offsets) {c : Char} (hopen : c ≠ '(') (hclose : c ≠ ')') :
    Encloses (cs ++ [c]) offsets := by
  cases h with
  | nil balanced => exact .nil (balanced.concat hopen hclose)
  | cons outer balanced =>
    rw [List.append_assoc]
    exact .cons outer (balanced.concat hopen hclose)

theorem opening (h : Encloses cs offsets) : Encloses (cs ++ ['(']) (byteSize cs :: offsets) :=
  .cons h balanced_nil

theorem closing {offset : Nat} (h : Encloses cs (offset :: offsets)) :
    Encloses (cs ++ [')']) offsets := by
  cases h with
  | cons outer balanced =>
    -- what stands before the parenthesis since the next outer one takes in the closed part
    cases outer with
    | nil balanced' => exact .nil (balanced'.wrap balanced)
    | cons outer balanced' =>
      have joined := Encloses.cons outer (balanced'.wrap balanced)
      simpa using joined

end Encloses

end TreeRules
