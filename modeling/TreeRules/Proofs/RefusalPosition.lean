import TreeRules.Proofs.Nesting
import TreeRules.Proofs.Viability
set_option autoImplicit false

/-!
# Where a text is refused

The error of a refused text follows from the text alone. It stands at the end of the text or at the
innermost open parenthesis if the text could go on to a tree, and otherwise behind the longest viable
prefix. The last character of that prefix other than a blank, and whether the prefix is a tree
itself, tell which error it is.
-/

namespace TreeRules

open Text

def ParseError.offset? : ParseError → Option Nat
  | .empty => none
  | .emptyToken n => some n
  | .unclosed n => some n
  | .unopened n => some n
  | .trailing n => some n
  | .unexpected n _ => some n

def lastNonblank? (cs : List Char) : Option Char := (withoutBlanks cs).getLast?

/-- A node has to come next, as the text ends with an opening parenthesis or a comma. -/
def AwaitsNode (cs : List Char) : Prop :=
  lastNonblank? cs = some '(' ∨ lastNonblank? cs = some ','

/-- The last parenthesis that nothing behind it closes. -/
structure InnermostOpen (text before rest : String) : Prop where
  whole : text = before ++ "(" ++ rest
  unclosed : Nested rest.toList
  innermost : ∀ inner later, rest.toList = inner ++ '(' :: later → ¬ Nested later

/-- The error at the character `c` behind the longest viable prefix `start`. -/
structure Hopeless (start : String) (c : Char) (e : ParseError) : Prop where
  unopened : Sentence start → c = ')' → e = .unopened start.utf8ByteSize
  trailing : Sentence start → c ≠ ')' → e = .trailing start.utf8ByteSize
  awaiting : Blank start.toList ∨ AwaitsNode start.toList → e = .emptyToken start.utf8ByteSize
  unexpected : ¬ Sentence start → ¬ (Blank start.toList ∨ AwaitsNode start.toList) →
    e = .unexpected start.utf8ByteSize c

/-- The error of a text that is no tree. -/
structure Located (text : String) (e : ParseError) : Prop where
  empty : Blank text.toList → e = .empty
  awaiting : ¬ Blank text.toList → Viable text → AwaitsNode text.toList →
    e = .emptyToken text.utf8ByteSize
  unclosed : ¬ Blank text.toList → Viable text → ¬ AwaitsNode text.toList →
    ∃ before rest, InnermostOpen text before rest ∧ e = .unclosed before.utf8ByteSize
  hopeless : ¬ Viable text → ∃ start c rest, text = start ++ String.singleton c ++ rest ∧
    LongestViable text start ∧ Hopeless start c e

section

variable {cs : List Char} {c : Char}

theorem lastNonblank?_blank (hc : isBlank c = true) : lastNonblank? (cs ++ [c]) = lastNonblank? cs := by
  simp [lastNonblank?, withoutBlanks, hc]

theorem lastNonblank?_concat (hc : isBlank c = false) : lastNonblank? (cs ++ [c]) = some c := by
  simp [lastNonblank?, withoutBlanks, hc]

theorem lastNonblank?_eq_none : lastNonblank? cs = none ↔ Blank cs := by
  rw [lastNonblank?, List.getLast?_eq_none_iff, withoutBlanks_eq_nil]

end

namespace Reading

/-- How the text so far shows in a reading. -/
structure Places (r : Reading) (cs : List Char) : Prop where
  offset : r.offset = byteSize cs
  frames : Encloses cs (r.frames.map Frame.offset)
  focus : r.focus.tree? = none ↔ Blank cs ∨ AwaitsNode cs

theorem places_start : start.Places [] := by
  refine ⟨?_, .nil balanced_nil, ?_⟩
  · rfl
  · exact ⟨fun _ => Or.inl blank_nil, fun _ => rfl⟩

theorem Places.step {r s : Reading} {cs : List Char} {c : Char} (h : r.Places cs)
    (hs : r.Moves c s) : s.Places (cs ++ [c]) := by
  obtain ⟨offset, frames, focus⟩ := h
  have shifted : r.offset + c.utf8Size = byteSize (cs ++ [c]) := by rw [byteSize_concat, offset]
  have ends (hc : isBlank c = false) :
      Blank (cs ++ [c]) ∨ AwaitsNode (cs ++ [c]) ↔ c = '(' ∨ c = ',' := by
    rw [← lastNonblank?_eq_none, AwaitsNode, lastNonblank?_concat hc]
    simp
  -- whether a token begins or goes on, the reading is within one
  have token (hc : isTokenChar c = true) (rev : List Char) :
      Places ⟨r.offset + c.utf8Size, r.frames, .token rev⟩ (cs ++ [c]) := by
    have other {d : Char} (hd : isTokenChar d = false) : c ≠ d := ne_of_kind hc hd
    refine ⟨shifted, frames.concat (other (by decide)) (other (by decide)), ?_⟩
    rw [ends (isBlank_token hc)]
    simp [Focus.tree?, other (d := '(') (by decide), other (d := ',') (by decide)]
  cases hs with
  | blank hc =>
    have other {d : Char} (hd : isBlank d = false) : c ≠ d := ne_of_kind hc hd
    refine ⟨shifted, frames.concat (other (by decide)) (other (by decide)), ?_⟩
    rw [← lastNonblank?_eq_none, AwaitsNode, lastNonblank?_blank hc, lastNonblank?_eq_none,
      ← AwaitsNode, ← focus]
    cases r.focus <;> rfl
  | opens hc hname =>
    subst hc
    refine ⟨shifted, ?_, ?_⟩
    · rw [List.map_cons, offset]
      exact frames.opening
    · rw [ends (by decide)]
      exact ⟨fun _ => Or.inl rfl, fun _ => rfl⟩
  | separates hc ht hf =>
    subst hc
    refine ⟨shifted, ?_, ?_⟩
    · rw [hf] at frames
      exact frames.concat (by decide) (by decide)
    · rw [ends (by decide)]
      exact ⟨fun _ => Or.inr rfl, fun _ => rfl⟩
  | closes hc ht hf =>
    subst hc
    refine ⟨shifted, ?_, ?_⟩
    · rw [hf] at frames
      exact frames.closing
    · rw [ends (by decide)]
      simp [Focus.tree?]
  | begins hc _ => exact token hc _
  | continues hc _ => exact token hc _

theorem Runs.places {r : Reading} {cs : List Char} (h : Runs .start cs r) : r.Places cs :=
  h.invariant Places (fun _ _ _ _ hr hs => hr.step hs) [] places_start

inductive Refuses (r : Reading) (c : Char) : ParseError → Prop
  | awaiting : r.focus.tree? = none → Refuses r c (.emptyToken r.offset)
  | unopened : r.focus.tree? ≠ none → r.frames = [] → c = ')' → Refuses r c (.unopened r.offset)
  | trailing : r.focus.tree? ≠ none → r.frames = [] → c ≠ ')' → Refuses r c (.trailing r.offset)
  | unexpected : r.focus.tree? ≠ none → r.frames ≠ [] → Refuses r c (.unexpected r.offset c)

theorem refuses_misplaced {r : Reading} {c : Char} (ht : r.focus.tree? ≠ none) (hc : c ≠ ')') :
    r.Refuses c (r.misplaced c) := by
  unfold misplaced
  cases hf : r.frames with
  | nil => exact .trailing ht hf hc
  | cons f fs => exact .unexpected ht (by simp [hf])

theorem refuses_of_opening {r : Reading} {e : ParseError} (h : r.opening = .error e) :
    r.Refuses '(' e := by
  unfold opening at h
  split at h
  · simp at h
  · next ht => exact Except.error.inj h ▸ refuses_misplaced (by simp [ht]) (by decide)
  · next ht => exact Except.error.inj h ▸ .awaiting ht

theorem refuses_of_separating {r : Reading} {e : ParseError} (h : r.separating = .error e) :
    r.Refuses ',' e := by
  unfold separating at h
  split at h
  · next ht => exact Except.error.inj h ▸ .awaiting ht
  · next ht hf => exact Except.error.inj h ▸ .trailing (by simp [ht]) hf (by decide)
  · simp at h

theorem refuses_of_closing {r : Reading} {e : ParseError} (h : r.closing = .error e) :
    r.Refuses ')' e := by
  unfold closing at h
  split at h
  · next ht => exact Except.error.inj h ▸ .awaiting ht
  · next ht hf => exact Except.error.inj h ▸ .unopened (by simp [ht]) hf rfl
  · simp at h

theorem refuses_of_extend {r : Reading} {c : Char} {e : ParseError} (hc : c ≠ ')')
    (h : r.extend c = .error e) : r.Refuses c e := by
  unfold extend at h
  split at h
  · simp at h
  · simp at h
  · next hawaiting htoken =>
    refine Except.error.inj h ▸ refuses_misplaced (fun ht => ?_) hc
    exact hawaiting (Focus.eq_awaiting ht)

theorem refuses_of_step {r : Reading} {c : Char} {e : ParseError} (h : r.step c = .error e) :
    r.Refuses c e := by
  rcases char_cases c with hc | rfl | rfl | rfl | hc
  · rw [step_blank hc] at h
    simp at h
  · rw [step_open, map_error] at h
    exact refuses_of_opening h
  · rw [step_comma, map_error] at h
    exact refuses_of_separating h
  · rw [step_close, map_error] at h
    exact refuses_of_closing h
  · rw [step_token hc, map_error] at h
    refine refuses_of_extend ?_ h
    rintro rfl
    exact absurd hc (by decide)

end Reading

open Reading

variable {text : String}

theorem InnermostOpen.of_balanced {before inside : List Char}
    (split : text.toList = before ++ '(' :: inside) (balanced : Balanced inside) :
    InnermostOpen text (.ofList before) (.ofList inside) where
  whole := by
    rw [← String.toList_inj, split]
    simp
  unclosed := by
    rw [String.toList_ofList]
    exact balanced.nested
  innermost inner later hinside := by
    rw [String.toList_ofList] at hinside
    exact balanced.closes hinside

theorem Reading.Refuses.hopeless {start : String} {c : Char} {r : Reading} {e : ParseError}
    (h : r.Refuses c e) (runs : Runs .start start.toList r) : Hopeless start c e := by
  have sentence := sentence_iff runs
  have focus := runs.places.focus
  have offset : r.offset = start.utf8ByteSize := by
    rw [runs.places.offset, byteSize, String.ofList_toList]
  cases h with
  | awaiting ht =>
    exact ⟨fun h => absurd ht (sentence.1 h).1, fun h => absurd ht (sentence.1 h).1,
      fun _ => congrArg _ offset, fun _ h => absurd (focus.1 ht) h⟩
  | unopened ht hf hc =>
    exact ⟨fun _ _ => congrArg _ offset, fun _ h => absurd hc h, fun h => absurd (focus.2 h) ht,
      fun h => absurd (sentence.2 ⟨ht, hf⟩) h⟩
  | trailing ht hf hc =>
    exact ⟨fun _ h => absurd h hc, fun _ _ => congrArg _ offset, fun h => absurd (focus.2 h) ht,
      fun h => absurd (sentence.2 ⟨ht, hf⟩) h⟩
  | unexpected ht hf =>
    exact ⟨fun h => absurd (sentence.1 h).2 hf, fun h => absurd (sentence.1 h).2 hf,
      fun h => absurd (focus.2 h) ht, fun _ _ => congrArg (ParseError.unexpected · c) offset⟩

theorem located_of_finish {r : Reading} {e : ParseError} (runs : Runs .start text.toList r)
    (h : r.finish = .error e) : Located text e := by
  have viable : Viable text := viable_iff_runs.2 ⟨r, runs⟩
  have places := runs.places
  have outermost (blank : Blank text.toList) : r.frames = [] := (runs.blank blank).1
  -- a node is missing, outside or inside parentheses, or only a closing parenthesis is
  rcases finish_error.1 h with ⟨ht, hf, rfl⟩ | ⟨ht, hf, rfl⟩ | ⟨t, f, fs, ht, hf, rfl⟩
  · have blank := runs.blank_of_awaiting ht hf
    exact ⟨fun _ => rfl, fun h => absurd blank h, fun h => absurd blank h, fun h => absurd viable h⟩
  · refine ⟨fun blank => absurd (outermost blank) hf, fun _ _ _ => ?_, fun h _ h' => ?_,
      fun h => absurd viable h⟩
    · rw [places.offset, byteSize, String.ofList_toList]
    · exact absurd (places.focus.1 ht) (not_or.2 ⟨h, h'⟩)
  · have frames := places.frames
    rw [hf, List.map_cons] at frames
    refine ⟨fun blank => ?_, fun _ _ awaits => ?_, fun _ _ _ => ?_, fun h => absurd viable h⟩
    · rw [outermost blank] at hf
      simp at hf
    · have none := places.focus.2 (Or.inr awaits)
      rw [ht] at none
      simp at none
    · generalize htext : text.toList = cs at frames
      generalize hoffset : f.offset = offset at frames
      cases frames with
      | cons outer balanced => exact ⟨_, _, .of_balanced htext balanced, rfl⟩

theorem located_of_step {r : Reading} {early late : List Char} {c : Char} {e : ParseError}
    (split : text.toList = early ++ c :: late) (runs : Runs .start early r)
    (h : r.step c = .error e) : Located text e := by
  have longest := longestViable_of_step split runs h
  have hopeless : ¬ Viable text := by
    intro viable
    have shorter := longest.longest text "" String.append_empty.symm viable
    rw [← String.length_toList, ← String.length_toList, split, String.toList_ofList,
      List.length_append, List.length_cons] at shorter
    omega
  have viable (P : Prop) (h : Viable text) : P := absurd h hopeless
  have nonblank : ¬ Blank text.toList := by
    intro blank
    obtain ⟨s, all, _⟩ := runs_blank blank .start
    exact hopeless (viable_iff_runs.2 ⟨s, all⟩)
  have runs' : Runs .start (String.ofList early).toList r := by rwa [String.toList_ofList]
  have whole : text = .ofList early ++ String.singleton c ++ .ofList late := by
    rw [← String.toList_inj, split]
    simp
  refine ⟨fun blank => absurd blank nonblank, fun _ => viable _, fun _ => viable _,
    fun _ => ⟨.ofList early, c, .ofList late, whole, longest, (refuses_of_step h).hopeless runs'⟩⟩

theorem boundary_of_start {start rest : String} (h : text = start ++ rest) :
    String.Pos.Raw.IsValid text ⟨start.utf8ByteSize⟩ :=
  String.Pos.Raw.isValid_iff_exists_append.2 ⟨start, rest, h, rfl⟩

theorem Hopeless.boundary {start : String} {c : Char} {rest : String} {e : ParseError}
    (h : Hopeless start c e) (whole : text = start ++ String.singleton c ++ rest) {k : Nat}
    (hk : e.offset? = some k) : String.Pos.Raw.IsValid text ⟨k⟩ := by
  have boundary := boundary_of_start (whole.trans (String.append_assoc ..))
  by_cases sentence : Sentence start
  · by_cases hc : c = ')'
    · rw [h.unopened sentence hc] at hk
      exact Option.some.inj hk ▸ boundary
    · rw [h.trailing sentence hc] at hk
      exact Option.some.inj hk ▸ boundary
  · by_cases awaits : Blank start.toList ∨ AwaitsNode start.toList
    · rw [h.awaiting awaits] at hk
      exact Option.some.inj hk ▸ boundary
    · rw [h.unexpected sentence awaits] at hk
      exact Option.some.inj hk ▸ boundary

theorem Located.boundary {e : ParseError} (h : Located text e) {k : Nat}
    (hk : e.offset? = some k) : String.Pos.Raw.IsValid text ⟨k⟩ := by
  by_cases viable : Viable text
  · by_cases blank : Blank text.toList
    · rw [h.empty blank] at hk
      simp [ParseError.offset?] at hk
    · by_cases awaits : AwaitsNode text.toList
      · rw [h.awaiting blank viable awaits] at hk
        exact Option.some.inj hk ▸ boundary_of_start String.append_empty.symm
      · obtain ⟨before, rest, open_, he⟩ := h.unclosed blank viable awaits
        rw [he] at hk
        exact Option.some.inj hk ▸ boundary_of_start (open_.whole.trans (String.append_assoc ..))
  · obtain ⟨start, c, rest, whole, _, hopeless⟩ := h.hopeless viable
    exact hopeless.boundary whole hk

/-- What is done with the tokens has no influence on the error. -/
theorem parseM_error {α σ : Type} (token : String → StateM σ α) (s : σ) {e : ParseError} :
    ((Tree.parseM token text).run s).1 = .error e ↔ Tree.parse text = .error e := by
  rw [Tree.parseM, Tree.parse]
  cases Tree.read text with
  | ok t =>
    rw [StateT.run_bind]
    simp [mapError_error]
  | error refusal =>
    change (Except.error refusal.error : Except ParseError (Tree α)) = .error e ↔ _
    simp [mapError_error]

/-- A refused text tells its error: where the text can still become a tree, the node or the
parenthesis that is missing, and otherwise the first character that no tree can go on with. -/
theorem refusal_located {e : ParseError} (h : Tree.parse text = .error e) :
    Located text e ∧ (∀ k, e.offset? = some k → String.Pos.Raw.IsValid text ⟨k⟩) ∧
      ∀ {α σ : Type} (token : String → StateM σ α) (s : σ),
        ((Tree.parseM token text).run s).1 = .error e := by
  have located : Located text e := by
    rw [Tree.parse, mapError_error, Tree.read] at h
    obtain ⟨refusal, hrun, rfl⟩ := h
    rcases run_error hrun with ⟨s, runs, stop, _⟩ | ⟨early, c, late, s, split, runs, stop, _⟩
    · exact located_of_finish runs stop
    · exact located_of_step split runs stop
  exact ⟨located, fun k => located.boundary, fun token s => (parseM_error token s).2 h⟩

/-- The character `b` follows a child, behind ten characters of which `ü` takes two bytes. -/
theorem refusal_located_wide :
    Tree.parse "f(ü, g(a) b)" = .error (.unexpected 11 'b') ∧
      Located "f(ü, g(a) b)" (.unexpected 11 'b') :=
  have refused : Tree.parse "f(ü, g(a) b)" = .error (.unexpected 11 'b') := rfl
  ⟨refused, (refusal_located refused).1⟩

end TreeRules
