import TreeRules.Proofs.GrammarReading
import TreeRules.Proofs.Nesting
set_option autoImplicit false

namespace TreeRules

open Text

/-- `d` may be the next character after `c` with the blanks `gap` between them. -/
structure MayFollow (c : Char) (gap : List Char) (d : Char) : Prop where
  after_mark : c = '(' ∨ c = ',' → isTokenChar d = true
  after_close : c = ')' → d = ',' ∨ d = ')'
  in_token : isTokenChar c = true → isTokenChar d = true → gap = []

structure WellPlaced (text : List Char) : Prop where
  first : ∀ gap d rest, text = gap ++ d :: rest → Blank gap → isBlank d = false →
    isTokenChar d = true
  adjacent : ∀ before c gap d rest, text = before ++ c :: (gap ++ d :: rest) → Blank gap →
    isBlank c = false → isBlank d = false → MayFollow c gap d
  balanced : text.count '(' = text.count ')'
  nested : ∀ before rest, text = before ++ rest → before.count ')' ≤ before.count '('
  inside : ∀ before rest, text = before ++ ',' :: rest → before.count ')' < before.count '('
  /-- The parenthesis that matches the outermost one ends the tree. -/
  last : ∀ before rest, text = before ++ ')' :: rest → before.count '(' = before.count ')' + 1 →
    Blank rest

def Focus.Takes : Focus → Char → Prop
  | awaiting, c => isTokenChar c = true
  | token _, _ => True
  | named _, c => isTokenChar c = false
  | closed _, c => c = ',' ∨ c = ')'

def Focus.EndsWith : Focus → Char → Prop
  | awaiting, c => c = '(' ∨ c = ','
  | token _, c => isTokenChar c = true
  | named _, _ => False
  | closed _, c => c = ')'

theorem Focus.mayFollow {focus : Focus} {c d : Char} {gap : List Char} (before : focus.EndsWith c)
    (after : (focus.afterBlank gap).Takes d) : MayFollow c gap d := by
  cases focus with
  | awaiting =>
    have after : isTokenChar d = true := by cases gap <;> exact after
    refine ⟨fun _ => after, fun h => ?_, fun h => ?_⟩
    · rcases before with rfl | rfl <;> simp at h
    · rcases before with rfl | rfl <;> exact absurd h (by decide)
  | token rev =>
    have before : isTokenChar c = true := before
    refine ⟨fun h => ?_, fun h => ?_, fun _ h => ?_⟩
    · rcases h with rfl | rfl <;> exact absurd before (by decide)
    · exact absurd (h ▸ before) (by decide)
    · cases gap with
      | nil => rfl
      | cons c gap =>
        have after : isTokenChar d = false := after
        simp [after] at h
  | named name => exact before.elim
  | closed t =>
    have before : c = ')' := before
    have after : d = ',' ∨ d = ')' := by cases gap <;> exact after
    subst before
    exact ⟨fun h => by simp at h, fun _ => after, fun h => absurd h (by decide)⟩

theorem Focus.takes_of_name? {focus : Focus} {name : String} (h : focus.name? = some name) {c : Char}
    (hc : isTokenChar c = false) : focus.Takes c := by
  cases focus with
  | awaiting => simp [name?] at h
  | token rev => trivial
  | named name => exact hc
  | closed t => simp [name?] at h

theorem Focus.takes_of_tree? {focus : Focus} {t : Tree String} (h : focus.tree? = some t) {c : Char}
    (hc : c = ',' ∨ c = ')') : focus.Takes c := by
  cases focus with
  | awaiting => simp [tree?] at h
  | token rev => trivial
  | named name =>
    change isTokenChar c = false
    rcases hc with rfl | rfl <;> decide
  | closed t => exact hc

theorem blank_or_split (cs : List Char) :
    Blank cs ∨ ∃ gap d rest, cs = gap ++ d :: rest ∧ Blank gap ∧ isBlank d = false := by
  induction cs with
  | nil => exact Or.inl blank_nil
  | cons c cs ih =>
    by_cases hc : isBlank c = true
    · rcases ih with hcs | ⟨gap, d, rest, rfl, hgap, hd⟩
      · exact Or.inl (List.forall_mem_cons.2 ⟨hc, hcs⟩)
      · exact Or.inr ⟨c :: gap, d, rest, rfl, List.forall_mem_cons.2 ⟨hc, hgap⟩, hd⟩
    · exact Or.inr ⟨[], c, cs, rfl, blank_nil, by simpa using hc⟩

namespace Reading

variable {r s : Reading} {c : Char}

theorem Moves.takes (h : r.Moves c s) (hc : isBlank c = false) : r.focus.Takes c := by
  cases h with
  | blank h => simp [h] at hc
  | opens h hname => exact Focus.takes_of_name? hname (by rw [h]; decide)
  | separates h ht _ => exact Focus.takes_of_tree? ht (Or.inl h)
  | closes h ht _ => exact Focus.takes_of_tree? ht (Or.inr h)
  | begins h hr => rwa [hr]
  | continues h hr =>
    rw [hr]
    trivial

theorem Moves.endsWith (h : r.Moves c s) (hc : isBlank c = false) : s.focus.EndsWith c := by
  cases h with
  | blank h => simp [h] at hc
  | opens h _ => exact Or.inl h
  | separates h _ _ => exact Or.inr h
  | closes h _ _ => exact h
  | begins h _ => exact h
  | continues h _ => exact h

theorem Moves.frames_ne_nil (h : r.Moves c s) (hc : c = ',' ∨ c = ')') : r.frames ≠ [] := by
  have mark : isMark c = true := by rcases hc with rfl | rfl <;> decide
  cases h with
  | blank h => simp [isBlank_mark mark] at h
  | opens h _ => rcases hc with rfl | rfl <;> simp at h
  | separates _ _ hf => simp [hf]
  | closes _ _ hf => simp [hf]
  | begins h _ => simp [isTokenChar_mark mark] at h
  | continues h _ => simp [isTokenChar_mark mark] at h

theorem Runs.depth {cs : List Char} (h : Runs .start cs s) :
    cs.count '(' = s.frames.length + cs.count ')' := by
  refine h.invariant (fun r cs => cs.count '(' = r.frames.length + cs.count ')') ?_ [] rfl
  intro r s c cs hr hs
  -- a character of a kind that has no parentheses in it changes neither count
  have plain (kind : Char → Bool) (hc : kind c = true) (h : kind '(' = false)
      (h' : kind ')' = false) :
      (cs ++ [c]).count '(' = r.frames.length + (cs ++ [c]).count ')' := by
    have ne : c ≠ '(' := by
      rintro rfl
      simp [hc] at h
    have ne' : c ≠ ')' := by
      rintro rfl
      simp [hc] at h'
    simp [List.count_append, ne, ne', hr]
  cases hs with
  | blank hc => exact plain isBlank hc (by decide) (by decide)
  | opens hc _ =>
    subst hc
    simp only [List.count_append, List.length_cons]
    have none : List.count ')' ['('] = 0 := by decide
    have one : List.count '(' ['('] = 1 := by decide
    omega
  | separates hc _ hf =>
    have kept := plain (· == ',') (beq_iff_eq.2 hc) (by decide) (by decide)
    rw [hf] at kept
    exact kept
  | closes hc _ hf =>
    subst hc
    rw [hf, List.length_cons] at hr
    rw [(count_concat_close cs).1, (count_concat_close cs).2, hr]
    exact Nat.succ_add_eq_add_succ _ _
  | begins hc _ => exact plain isTokenChar hc (by decide) (by decide)
  | continues hc _ => exact plain isTokenChar hc (by decide) (by decide)

theorem Moves.mayFollow {gap : List Char} {d : Char} {r r' u u' : Reading} (hc : r.Moves c r')
    (between : Runs r' gap u) (hd : u.Moves d u') (blank : Blank gap) (nonblank : isBlank c = false)
    (nonblank' : isBlank d = false) : MayFollow c gap d := by
  refine Focus.mayFollow (hc.endsWith nonblank) ?_
  rw [← (between.blank blank).2]
  exact hd.takes nonblank'

theorem wellPlaced {text : List Char} (h : Runs .start text s) (hs : s.frames = []) :
    WellPlaced text where
  first gap d rest split blank nonblank := by
    rw [split] at h
    obtain ⟨u, early, late⟩ := h.split
    cases late with
    | cons head tail =>
      have awaiting : u.focus = .awaiting := by
        refine Focus.eq_awaiting ?_
        rw [(early.blank blank).2, Focus.tree?_afterBlank]
        rfl
      have takes := head.takes nonblank
      rw [awaiting] at takes
      exact takes
  adjacent before c gap d rest split blank nonblank nonblank' := by
    rw [split] at h
    obtain ⟨u, _, late⟩ := h.split
    cases late with
    | cons hc tail =>
      obtain ⟨v, between, later⟩ := tail.split
      cases later with
      | cons hd _ => exact hc.mayFollow between hd blank nonblank nonblank'
  balanced := by
    rw [h.depth, hs]
    exact Nat.zero_add _
  nested before rest split := by
    rw [split] at h
    obtain ⟨u, early, _⟩ := h.split
    have depth := early.depth
    omega
  inside before rest split := by
    rw [split] at h
    obtain ⟨u, early, late⟩ := h.split
    cases late with
    | cons head tail =>
      have some := List.length_pos_iff.2 (head.frames_ne_nil (Or.inl rfl))
      have depth := early.depth
      omega
  last before rest split one := by
    rw [split] at h
    obtain ⟨u, early, late⟩ := h.split
    cases late with
    | cons head tail =>
      rename_i v
      -- this parenthesis closes the outermost one, so only blanks can be taken behind it
      have none : v.frames = [] := by
        have depth := (early.trans (.cons head (.nil v))).depth
        have counts := count_concat_close before
        exact List.length_eq_zero_iff.1 (by omega)
      rcases blank_or_split rest with blank | ⟨gap, d, more, rfl, blank, nonblank⟩
      · exact blank
      · obtain ⟨w, between, later⟩ := tail.split
        cases later with
        | cons hd _ =>
          have follows := head.mayFollow between hd blank (by decide) nonblank
          have frames := hd.frames_ne_nil (follows.after_close rfl)
          rw [(between.blank blank).1, none] at frames
          exact absurd rfl frames

end Reading

/-- The texts that read as trees are those that the grammar derives, each with the tree that it
derives. That is one tree at most, and the characters of the text are well placed. -/
theorem parse_iff_derives (text : String) (t : Tree String) :
    (Tree.parse text = .ok t ↔ Derives [] text.toList [] t) ∧
      (Derives [] text.toList [] t →
        (∀ u, Derives [] text.toList [] u → u = t) ∧ WellPlaced text.toList) := by
  refine ⟨⟨parse_sound, parse_complete⟩, fun h => ⟨fun u hu => ?_, ?_⟩⟩
  · have same := (parse_complete hu).symm.trans (parse_complete h)
    exact Except.ok.inj same
  · obtain ⟨r, runs, _, frames⟩ := Tree.parse_ok.1 (parse_complete h)
    exact Reading.wellPlaced runs frames

end TreeRules
