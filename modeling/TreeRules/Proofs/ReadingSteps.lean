import TreeRules.Tree.Reading
set_option autoImplicit false

namespace TreeRules

open Text

namespace Reading

/-- What a character makes of a reading that takes it. -/
inductive Moves (r : Reading) (c : Char) : Reading → Prop
  | blank : isBlank c = true → Moves r c ⟨r.offset + c.utf8Size, r.frames, r.focus.endToken⟩
  | opens {name : String} : c = '(' → r.focus.name? = some name →
      Moves r c ⟨r.offset + c.utf8Size, ⟨r.offset, name, []⟩ :: r.frames, .awaiting⟩
  | separates {t : Tree String} {f : Frame} {fs : List Frame} : c = ',' →
      r.focus.tree? = some t → r.frames = f :: fs →
      Moves r c ⟨r.offset + c.utf8Size, f.push t :: fs, .awaiting⟩
  | closes {t : Tree String} {f : Frame} {fs : List Frame} : c = ')' →
      r.focus.tree? = some t → r.frames = f :: fs →
      Moves r c ⟨r.offset + c.utf8Size, fs, .closed (f.push t).close⟩
  | begins : isTokenChar c = true → r.focus = .awaiting →
      Moves r c ⟨r.offset + c.utf8Size, r.frames, .token [c]⟩
  | continues {rev : List Char} : isTokenChar c = true → r.focus = .token rev →
      Moves r c ⟨r.offset + c.utf8Size, r.frames, .token (c :: rev)⟩

theorem step_blank {c : Char} (h : isBlank c = true) (r : Reading) :
    r.step c = .ok ⟨r.offset + c.utf8Size, r.frames, r.focus.endToken⟩ := by
  rw [step, if_pos h]

theorem step_open (r : Reading) : r.step '(' =
    r.opening.map fun frames => ⟨r.offset + '('.utf8Size, frames, .awaiting⟩ := rfl

theorem step_comma (r : Reading) : r.step ',' =
    r.separating.map fun frames => ⟨r.offset + ','.utf8Size, frames, .awaiting⟩ := rfl

theorem step_close (r : Reading) : r.step ')' =
    r.closing.map fun p => ⟨r.offset + ')'.utf8Size, p.2, .closed p.1⟩ := rfl

theorem step_token {c : Char} (h : isTokenChar c = true) (r : Reading) :
    r.step c = (r.extend c).map fun focus => ⟨r.offset + c.utf8Size, r.frames, focus⟩ := by
  simp only [isTokenChar, isMark, Bool.and_eq_true, Bool.not_eq_true', Bool.or_eq_false_iff,
    beq_eq_false_iff_ne] at h
  obtain ⟨hblank, ⟨hopen, hclose⟩, hcomma⟩ := h
  rw [step, if_neg (by simp [hblank]), if_neg hopen, if_neg hcomma, if_neg hclose]

theorem char_cases (c : Char) :
    isBlank c = true ∨ c = '(' ∨ c = ',' ∨ c = ')' ∨ isTokenChar c = true := by
  by_cases hblank : isBlank c = true
  · exact Or.inl hblank
  · by_cases hmark : isMark c = true
    · simp only [isMark, Bool.or_eq_true, beq_iff_eq] at hmark
      rcases hmark with (h | h) | h <;> simp [h]
    · simp [isTokenChar, hblank, hmark]

theorem opening_ok {r : Reading} {fs : List Frame} :
    r.opening = .ok fs ↔
      ∃ name, r.focus.name? = some name ∧ ⟨r.offset, name, []⟩ :: r.frames = fs := by
  unfold opening
  cases r.focus.name? with
  | some name => simp
  | none => cases r.focus.tree? <;> simp

theorem separating_ok {r : Reading} {gs : List Frame} :
    r.separating = .ok gs ↔
      ∃ t f fs, r.focus.tree? = some t ∧ r.frames = f :: fs ∧ f.push t :: fs = gs := by
  unfold separating
  cases r.focus.tree? with
  | none => simp
  | some t => cases r.frames <;> simp [and_assoc]

theorem closing_ok {r : Reading} {p : Tree String × List Frame} :
    r.closing = .ok p ↔
      ∃ t f fs, r.focus.tree? = some t ∧ r.frames = f :: fs ∧ ((f.push t).close, fs) = p := by
  unfold closing
  cases r.focus.tree? with
  | none => simp
  | some t => cases r.frames <;> simp [and_assoc]

theorem extend_ok {r : Reading} {c : Char} {focus : Focus} :
    r.extend c = .ok focus ↔ (r.focus = .awaiting ∧ .token [c] = focus) ∨
      ∃ rev, r.focus = .token rev ∧ .token (c :: rev) = focus := by
  unfold extend
  cases r.focus <;> simp

theorem map_ok {ε α β : Type} {f : α → β} {x : Except ε α} {b : β} :
    x.map f = .ok b ↔ ∃ a, x = .ok a ∧ f a = b := by
  cases x <;> simp [Except.map]

theorem map_error {ε α β : Type} {f : α → β} {x : Except ε α} {e : ε} :
    x.map f = .error e ↔ x = .error e := by
  cases x <;> simp [Except.map]

theorem mapError_ok {ε ε' α : Type} {f : ε → ε'} {x : Except ε α} {a : α} :
    x.mapError f = .ok a ↔ x = .ok a := by
  cases x with
  | error e =>
    change (.error (f e) : Except ε' α) = .ok a ↔ _
    simp
  | ok b =>
    change (.ok b : Except ε' α) = .ok a ↔ _
    simp

theorem mapError_error {ε ε' α : Type} {f : ε → ε'} {x : Except ε α} {e' : ε'} :
    x.mapError f = .error e' ↔ ∃ e, x = .error e ∧ f e = e' := by
  cases x with
  | error e =>
    change (.error (f e) : Except ε' α) = .error e' ↔ _
    simp
  | ok b =>
    change (.ok b : Except ε' α) = .error e' ↔ _
    simp

theorem step_ok {r r' : Reading} {c : Char} : r.step c = .ok r' ↔ r.Moves c r' := by
  constructor
  · intro h
    rcases char_cases c with hc | rfl | rfl | rfl | hc
    · rw [step_blank hc] at h
      exact Except.ok.inj h ▸ .blank hc
    · rw [step_open, map_ok] at h
      obtain ⟨_, hfs, rfl⟩ := h
      obtain ⟨name, hname, rfl⟩ := opening_ok.1 hfs
      exact .opens rfl hname
    · rw [step_comma, map_ok] at h
      obtain ⟨_, hfs, rfl⟩ := h
      obtain ⟨t, f, fs, ht, hf, rfl⟩ := separating_ok.1 hfs
      exact .separates rfl ht hf
    · rw [step_close, map_ok] at h
      obtain ⟨_, hfs, rfl⟩ := h
      obtain ⟨t, f, fs, ht, hf, rfl⟩ := closing_ok.1 hfs
      exact .closes rfl ht hf
    · rw [step_token hc, map_ok] at h
      obtain ⟨_, hfocus, rfl⟩ := h
      rcases extend_ok.1 hfocus with ⟨hr, rfl⟩ | ⟨rev, hr, rfl⟩
      · exact .begins hc hr
      · exact .continues hc hr
  · intro h
    cases h with
    | blank hc => exact step_blank hc r
    | opens hc hname =>
      rw [hc, step_open, map_ok]
      exact ⟨_, opening_ok.2 ⟨_, hname, rfl⟩, rfl⟩
    | separates hc ht hf =>
      rw [hc, step_comma, map_ok]
      exact ⟨_, separating_ok.2 ⟨_, _, _, ht, hf, rfl⟩, rfl⟩
    | closes hc ht hf =>
      rw [hc, step_close, map_ok]
      exact ⟨_, closing_ok.2 ⟨_, _, _, ht, hf, rfl⟩, rfl⟩
    | begins hc hr =>
      rw [step_token hc, map_ok]
      exact ⟨_, extend_ok.2 (Or.inl ⟨hr, rfl⟩), rfl⟩
    | continues hc hr =>
      rw [step_token hc, map_ok]
      exact ⟨_, extend_ok.2 (Or.inr ⟨_, hr, rfl⟩), rfl⟩

/-- The reading after several characters, none of which is refused. -/
inductive Runs : Reading → List Char → Reading → Prop
  | nil (r : Reading) : Runs r [] r
  | cons {r u s : Reading} {c : Char} {cs : List Char} (head : r.Moves c u) (tail : Runs u cs s) :
      Runs r (c :: cs) s

theorem Runs.trans {r u s : Reading} {cs ds : List Char} (h : Runs r cs u) (h' : Runs u ds s) :
    Runs r (cs ++ ds) s := by
  induction h with
  | nil _ => exact h'
  | cons head _ ih => exact .cons head (ih h')

theorem Moves.unique {r s s' : Reading} {c : Char} (h : r.Moves c s) (h' : r.Moves c s') :
    s = s' :=
  Except.ok.inj ((step_ok.2 h).symm.trans (step_ok.2 h'))

theorem Runs.unique {r s s' : Reading} {cs : List Char} (h : Runs r cs s) (h' : Runs r cs s') :
    s = s' := by
  induction h with
  | nil _ =>
    cases h'
    rfl
  | cons head _ ih =>
    cases h' with
    | cons head' tail =>
      have same := head.unique head'
      subst same
      exact ih tail

theorem Runs.split {r s : Reading} {cs ds : List Char} (h : Runs r (cs ++ ds) s) :
    ∃ u, Runs r cs u ∧ Runs u ds s := by
  induction cs generalizing r with
  | nil => exact ⟨r, .nil r, h⟩
  | cons c cs ih =>
    cases h with
    | cons head tail =>
      obtain ⟨u, early, late⟩ := ih tail
      exact ⟨u, .cons head early, late⟩

/-- What holds at first, and which each step keeps, holds at the end of a run. -/
theorem Runs.invariant {r s : Reading} {cs : List Char} (I : Reading → List Char → Prop)
    (step : ∀ r s c cs, I r cs → r.Moves c s → I s (cs ++ [c])) (h : Runs r cs s) (ds : List Char)
    (start : I r ds) : I s (ds ++ cs) := by
  induction h generalizing ds with
  | nil _ =>
    rw [List.append_nil]
    exact start
  | cons head _ ih =>
    rw [List.append_cons]
    exact ih _ (step _ _ _ _ start head)

theorem run_ok {r : Reading} {cs : List Char} {t : Tree String} :
    r.run cs = .ok t ↔ ∃ s, Runs r cs s ∧ s.finish = .ok t := by
  induction cs generalizing r with
  | nil =>
    rw [run, mapError_ok]
    constructor
    · exact fun h => ⟨r, .nil r, h⟩
    · rintro ⟨s, hrun, hs⟩
      cases hrun
      exact hs
  | cons c cs ih =>
    rw [run]
    constructor
    · intro h
      cases hc : r.step c with
      | error e => simp [hc] at h
      | ok u =>
        rw [hc] at h
        obtain ⟨s, hrun, hs⟩ := ih.1 h
        exact ⟨s, .cons (step_ok.1 hc) hrun, hs⟩
    · rintro ⟨s, hrun, hs⟩
      cases hrun with
      | cons head tail =>
        rw [step_ok.2 head]
        exact ih.2 ⟨s, tail, hs⟩

theorem finish_ok {r : Reading} {t : Tree String} :
    r.finish = .ok t ↔ r.focus.tree? = some t ∧ r.frames = [] := by
  unfold finish
  cases r.focus.tree? with
  | none => cases r.frames <;> simp
  | some u => cases r.frames <;> simp

end Reading

theorem Tree.parse_ok {text : String} {t : Tree String} :
    Tree.parse text = .ok t ↔
      ∃ r, Reading.Runs .start text.toList r ∧ r.focus.tree? = some t ∧ r.frames = [] := by
  rw [Tree.parse, Reading.mapError_ok, Tree.read, Reading.run_ok]
  simp only [Reading.finish_ok]

end TreeRules
