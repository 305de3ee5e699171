import TreeRules.Proofs.GrammarReading
set_option autoImplicit false

/-!
# Viable texts

A text is viable if some text that starts with it reads as a tree. A reading that has refused
nothing so far can be brought to an end: it gets a token if it awaits one, and then a closing
parenthesis for each open one. Hence the viable texts are those of which no character is refused, and
a text that is not viable splits at its first refused character, behind its longest viable prefix.
-/

namespace TreeRules

def Sentence (text : String) : Prop := ∃ t, Tree.parse text = .ok t

def Viable (text : String) : Prop := ∃ more, Sentence (text ++ more)

structure LongestViable (text start : String) : Prop where
  initial : ∃ rest, text = start ++ rest
  viable : Viable start
  longest : ∀ other rest, text = other ++ rest → Viable other → other.length ≤ start.length

namespace Reading

/-- A text that ends the reading with a tree. -/
def completion (r : Reading) : List Char :=
  match r.focus.tree? with
  | some _ => List.replicate r.frames.length ')'
  | none => 'x' :: List.replicate r.frames.length ')'

theorem runs_closing {r : Reading} {t : Tree String} (ht : r.focus.tree? = some t) :
    ∃ s u, Runs r (List.replicate r.frames.length ')') s ∧ s.focus.tree? = some u ∧
      s.frames = [] := by
  obtain ⟨offset, frames, focus⟩ := r
  induction frames generalizing offset focus t with
  | nil => exact ⟨_, t, .nil _, ht, rfl⟩
  | cons f fs ih =>
    let next : Reading := ⟨offset + ')'.utf8Size, fs, .closed (f.push t).close⟩
    obtain ⟨s, u, runs, hu, hs⟩ := ih next.offset next.focus (t := (f.push t).close) rfl
    have closes : Moves ⟨offset, f :: fs, focus⟩ ')' next := .closes rfl ht rfl
    exact ⟨s, u, .cons closes runs, hu, hs⟩

theorem runs_completion (r : Reading) :
    ∃ s t, Runs r r.completion s ∧ s.focus.tree? = some t ∧ s.frames = [] := by
  cases ht : r.focus.tree? with
  | some t =>
    rw [completion, ht]
    exact runs_closing ht
  | none =>
    rw [completion, ht]
    let next : Reading := ⟨r.offset + 'x'.utf8Size, r.frames, .token ['x']⟩
    obtain ⟨s, u, runs, hu, hs⟩ := runs_closing (r := next) rfl
    exact ⟨s, u, .cons (.begins (by decide) (Focus.eq_awaiting ht)) runs, hu, hs⟩

theorem finish_error {r : Reading} {e : ParseError} :
    r.finish = .error e ↔
      (r.focus.tree? = none ∧ r.frames = [] ∧ e = .empty) ∨
      (r.focus.tree? = none ∧ r.frames ≠ [] ∧ e = .emptyToken r.offset) ∨
      ∃ t f fs, r.focus.tree? = some t ∧ r.frames = f :: fs ∧ e = .unclosed f.offset := by
  unfold finish
  cases r.focus.tree? <;> cases r.frames <;> simp [eq_comm]

theorem run_error {r : Reading} {cs : List Char} {refusal : Refusal}
    (h : r.run cs = .error refusal) :
    (∃ s, Runs r cs s ∧ s.finish = .error refusal.error ∧ refusal.tokens = s.tokens) ∨
      ∃ early c late s, cs = early ++ c :: late ∧ Runs r early s ∧
        s.step c = .error refusal.error ∧ refusal.tokens = s.tokens := by
  induction cs generalizing r with
  | nil =>
    rw [run, mapError_error] at h
    obtain ⟨e, hr, rfl⟩ := h
    exact Or.inl ⟨r, .nil r, hr, rfl⟩
  | cons c cs ih =>
    rw [run] at h
    cases hc : r.step c with
    | error e =>
      rw [hc] at h
      obtain rfl := Except.error.inj h
      exact Or.inr ⟨[], c, cs, r, rfl, .nil r, hc, rfl⟩
    | ok next =>
      rw [hc] at h
      have head := step_ok.1 hc
      rcases ih h with ⟨s, runs, stop⟩ | ⟨early, d, late, s, split, runs, stop⟩
      · exact Or.inl ⟨s, .cons head runs, stop⟩
      · exact Or.inr ⟨c :: early, d, late, s, congrArg _ split, .cons head runs, stop⟩

end Reading

open Reading

theorem sentence_iff {text : String} {r : Reading} (h : Runs .start text.toList r) :
    Sentence text ↔ r.focus.tree? ≠ none ∧ r.frames = [] := by
  constructor
  · rintro ⟨t, ht⟩
    obtain ⟨s, runs, tree, frames⟩ := Tree.parse_ok.1 ht
    obtain rfl := h.unique runs
    simp [tree, frames]
  · rintro ⟨tree, frames⟩
    obtain ⟨t, ht⟩ := Option.ne_none_iff_exists'.1 tree
    exact ⟨t, Tree.parse_ok.2 ⟨r, h, ht, frames⟩⟩

/-- The viable texts are those of which no character is refused. -/
theorem viable_iff_runs {text : String} : Viable text ↔ ∃ r, Runs .start text.toList r := by
  constructor
  · rintro ⟨more, t, ht⟩
    obtain ⟨s, runs, _⟩ := Tree.parse_ok.1 ht
    rw [String.toList_append] at runs
    obtain ⟨r, early, _⟩ := runs.split
    exact ⟨r, early⟩
  · rintro ⟨r, runs⟩
    obtain ⟨s, t, later, ht, hs⟩ := r.runs_completion
    refine ⟨.ofList r.completion, t, Tree.parse_ok.2 ⟨s, ?_, ht, hs⟩⟩
    rw [String.toList_append, String.toList_ofList]
    exact runs.trans later

/-- The first refused character stands behind the longest viable prefix. -/
theorem longestViable_of_step {text : String} {early late : List Char} {c : Char} {r : Reading}
    {e : ParseError} (split : text.toList = early ++ c :: late) (runs : Runs .start early r)
    (refused : r.step c = .error e) : LongestViable text (.ofList early) where
  initial := ⟨.ofList (c :: late), by rw [← String.ofList_append, ← split, String.ofList_toList]⟩
  viable := viable_iff_runs.2 ⟨r, by rwa [String.toList_ofList]⟩
  longest := by
    intro other rest whole viable
    obtain ⟨s, hs⟩ := viable_iff_runs.1 viable
    have pieces : other.toList ++ rest.toList = early ++ c :: late := by
      rw [← split, whole, String.toList_append]
    rw [← String.length_toList, ← String.length_toList, String.toList_ofList]
    rcases List.append_eq_append_iff.1 pieces with ⟨gap, hearly, _⟩ | ⟨gap, hother, hgap⟩
    · rw [hearly, List.length_append]
      omega
    · cases gap with
      | nil => simp [hother]
      | cons d gap =>
        -- the other prefix would hold the refused character
        obtain ⟨rfl, _⟩ := List.cons.inj hgap
        rw [hother] at hs
        obtain ⟨u, before, after⟩ := hs.split
        obtain rfl := runs.unique before
        cases after with
        | cons head _ =>
          rw [step_ok.2 head] at refused
          simp at refused

end TreeRules
