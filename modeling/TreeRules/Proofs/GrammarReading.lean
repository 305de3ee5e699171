import TreeRules.Proofs.Grammar
import TreeRules.Proofs.ReadingSteps
set_option autoImplicit false

/-!
# Reading by the grammar

A text is read as a tree if and only if the grammar derives it with that tree. In one direction, a
reading keeps account of the text so far: the open parentheses stand for the start of a derivation,
and the focus for the node in progress. In the other direction, the text of a tree leads a reading
that awaits one back to the same open parentheses.
-/

namespace TreeRules

open Text

/-- Children in progress, the latest first, each with the comma after it. -/
inductive Listed (before : List Char) : List Char → List (Tree String) → Prop
  | nil : Listed before [] []
  | cons {cs ds : List Char} {t : Tree String} {ts : List (Tree String)}
      (early : Listed before cs ts)
      (tree : ∀ after, Derives (before ++ cs) ds (',' :: after) t) :
      Listed before (cs ++ ds ++ [',']) (t :: ts)

/-- The text up to the node in progress accounts for the open parentheses. -/
inductive Opened : List Char → List Frame → Prop
  | nil : Opened [] []
  | cons {before head body : List Char} {f : Frame} {fs : List Frame} (outer : Opened before fs)
      (named : ∀ after, Named before head ('(' :: after) f.name)
      (children : Listed (before ++ head ++ ['(']) body f.done) :
      Opened (before ++ head ++ ['('] ++ body) (f :: fs)

/-- The text since then accounts for the node in progress, however the text may go on. -/
inductive Focus.Reads (before : List Char) : List Char → Focus → Prop
  | awaiting {cs : List Char} (blank : Blank cs) : Reads before cs .awaiting
  | token {pre rev : List Char} (blank : Blank pre) (nonempty : rev ≠ [])
      (token : ∀ c ∈ rev, isTokenChar c = true) : Reads before (pre ++ rev.reverse) (.token rev)
  | named {cs : List Char} {name : String} (named : ∀ after, Named before cs after name) :
      Reads before cs (.named name)
  | closed {cs : List Char} {t : Tree String} (tree : ∀ after, Derives before cs after t) :
      Reads before cs (.closed t)

def Reading.Covers (r : Reading) (text : List Char) : Prop :=
  ∃ before cs, text = before ++ cs ∧ Opened before r.frames ∧ r.focus.Reads before cs

theorem Listed.derivesAll {before cs ds after : List Char} {ts us : List (Tree String)}
    (h : Listed before cs ts) (h' : DerivesAll (before ++ cs) ds after us) :
    DerivesAll before (cs ++ ds) after (ts.reverse ++ us) := by
  induction h generalizing ds us with
  | nil => simpa using h'
  | cons _ tree ih =>
    rename_i cs es t ts _
    have joined := ih (.more (tree (ds ++ after)) (by simpa using h'))
    simpa using joined

theorem Listed.starts {before cs : List Char} {ts : List (Tree String)} (h : Listed before cs ts)
    (hb : Starts before) : Starts (before ++ cs) := by
  cases h with
  | nil =>
    rw [List.append_nil]
    exact hb
  | cons early tree =>
    rw [← List.append_assoc]
    exact starts_concat _ (by decide)

theorem Opened.starts {before : List Char} {fs : List Frame} (h : Opened before fs) :
    Starts before := by
  cases h with
  | nil => exact starts_nil
  | cons outer named children => exact children.starts (starts_concat _ (by decide))

namespace Focus.Reads

variable {before cs : List Char} {focus : Focus}

theorem named_of_token {pre rev : List Char} (starts : Starts before) (blank : Blank pre)
    (nonempty : rev ≠ []) (token : ∀ c ∈ rev, isTokenChar c = true) {after : List Char}
    (stops : Stops after) : Named before (pre ++ rev.reverse) after (.ofList rev.reverse) := by
  have run : MaximalRun (before ++ pre) rev.reverse ([] ++ after) :=
    ⟨by simpa using nonempty, fun c hc => token c (List.mem_reverse.1 hc),
      starts_append_blank starts blank, stops⟩
  simpa using Named.intro blank run blank_nil

theorem named_of_name? (h : focus.Reads before cs) (starts : Starts before) {name : String}
    (hname : focus.name? = some name) {after : List Char} (stops : Stops after) :
    Named before cs after name := by
  cases h with
  | awaiting blank => simp [name?] at hname
  | token blank nonempty token =>
    rw [← Option.some.inj hname]
    exact named_of_token starts blank nonempty token stops
  | named named =>
    rw [← Option.some.inj hname]
    exact named after
  | closed tree => simp [name?] at hname

theorem derives_of_tree? (h : focus.Reads before cs) (starts : Starts before) {t : Tree String}
    (ht : focus.tree? = some t) {after : List Char} (stops : Stops after) :
    Derives before cs after t := by
  cases h with
  | awaiting blank => simp [tree?] at ht
  | token blank nonempty token =>
    rw [← Option.some.inj ht]
    exact .leaf (named_of_token starts blank nonempty token stops)
  | named named =>
    rw [← Option.some.inj ht]
    exact .leaf (named after)
  | closed tree =>
    rw [← Option.some.inj ht]
    exact tree after

theorem endToken (h : focus.Reads before cs) (starts : Starts before) {c : Char}
    (hc : isBlank c = true) : focus.endToken.Reads before (cs ++ [c]) := by
  cases h with
  | awaiting blank => exact .awaiting (blank_concat blank hc)
  | token blank nonempty token =>
    refine .named fun after => Named.blank_after ?_ hc
    exact named_of_token starts blank nonempty token (stops_cons (isTokenChar_blank hc) after)
  | named named => exact .named fun after => (named (c :: after)).blank_after hc
  | closed tree => exact .closed fun after => (tree (c :: after)).blank_after hc

end Focus.Reads

theorem Reading.covers_step {r s : Reading} {c : Char} {text : List Char} (h : r.Covers text)
    (hs : r.Moves c s) : s.Covers (text ++ [c]) := by
  obtain ⟨before, cs, rfl, opened, reads⟩ := h
  have starts := opened.starts
  cases hs with
  | blank hc => exact ⟨before, cs ++ [c], by simp, opened, reads.endToken starts hc⟩
  | opens hc hname =>
    subst hc
    -- the node so far becomes the head of a new frame, with no children yet
    refine ⟨before ++ cs ++ ['('] ++ [], [], by simp, .cons opened ?_ .nil, .awaiting ?_⟩
    · exact fun after => reads.named_of_name? starts hname (stops_cons (by decide) after)
    · exact blank_nil
  | separates hc ht hf =>
    subst hc
    rw [hf] at opened
    cases opened with
    | cons outer named children =>
      rename_i t f fs before head body
      refine ⟨before ++ head ++ ['('] ++ (body ++ cs ++ [',']), [], by simp, ?_, .awaiting ?_⟩
      · refine .cons outer named (.cons children fun after => ?_)
        exact reads.derives_of_tree? starts ht (stops_cons (by decide) after)
      · exact blank_nil
  | closes hc ht hf =>
    subst hc
    rw [hf] at opened
    cases opened with
    | cons outer named children =>
      rename_i t f fs before head body
      -- `body` is the text of the earlier children with their commas, `cs` that of the last one
      refine ⟨before, head ++ '(' :: (body ++ cs) ++ ')' :: [], by simp, outer, .closed ?_⟩
      intro after
      have last := reads.derives_of_tree? starts ht (stops_cons (c := ')') (by decide) after)
      have all := children.derivesAll (.one last)
      rw [← List.reverse_cons] at all
      exact .node (named _) all blank_nil
  | begins hc hr =>
    rw [hr] at reads
    cases reads with
    | awaiting blank =>
      exact ⟨before, cs ++ [c].reverse, by simp, opened, .token blank (by simp) (by simpa using hc)⟩
  | continues hc hr =>
    rw [hr] at reads
    cases reads with
    | token blank nonempty token =>
      rename_i rev pre
      refine ⟨before, pre ++ (c :: rev).reverse, by simp, opened, .token blank (by simp) ?_⟩
      exact List.forall_mem_cons.2 ⟨hc, token⟩

namespace Focus

theorem eq_awaiting {focus : Focus} (h : focus.tree? = none) : focus = .awaiting := by
  cases focus <;> simp_all [tree?]

def afterBlank (focus : Focus) : List Char → Focus
  | [] => focus
  | _ :: _ => focus.endToken

theorem afterBlank_cons (focus : Focus) (c : Char) (gap : List Char) :
    focus.endToken.afterBlank gap = focus.afterBlank (c :: gap) := by
  cases gap <;> cases focus <;> rfl

theorem tree?_afterBlank (focus : Focus) (gap : List Char) :
    (focus.afterBlank gap).tree? = focus.tree? := by
  cases gap <;> cases focus <;> rfl

theorem name?_afterBlank (focus : Focus) (gap : List Char) :
    (focus.afterBlank gap).name? = focus.name? := by
  cases gap <;> cases focus <;> rfl

end Focus

namespace Reading

theorem runs_blank {cs : List Char} (h : Blank cs) (r : Reading) :
    ∃ s, Runs r cs s ∧ s.frames = r.frames ∧ s.focus = r.focus.afterBlank cs := by
  induction cs generalizing r with
  | nil => exact ⟨r, .nil r, rfl, rfl⟩
  | cons c cs ih =>
    obtain ⟨hc, hcs⟩ := List.forall_mem_cons.1 h
    obtain ⟨s, runs, frames, focus⟩ := ih hcs ⟨r.offset + c.utf8Size, r.frames, r.focus.endToken⟩
    exact ⟨s, .cons (.blank hc) runs, frames, focus.trans (r.focus.afterBlank_cons c cs)⟩

theorem Runs.blank {r s : Reading} {cs : List Char} (h : Runs r cs s) (hcs : Blank cs) :
    s.frames = r.frames ∧ s.focus = r.focus.afterBlank cs := by
  obtain ⟨s', runs, same⟩ := runs_blank hcs r
  rw [h.unique runs]
  exact same

theorem Runs.covers {r : Reading} {cs : List Char} (h : Runs .start cs r) : r.Covers cs :=
  h.invariant Covers (fun _ _ _ _ hr hs => covers_step hr hs) []
    ⟨[], [], rfl, .nil, .awaiting blank_nil⟩

theorem Runs.blank_of_awaiting {r : Reading} {cs : List Char} (h : Runs .start cs r)
    (hr : r.focus.tree? = none) (hf : r.frames = []) : Blank cs := by
  obtain ⟨before, ds, rfl, opened, reads⟩ := h.covers
  rw [hf] at opened
  rw [Focus.eq_awaiting hr] at reads
  cases opened
  cases reads with
  | awaiting blank => exact blank

theorem runs_continue {cs : List Char} (h : ∀ c ∈ cs, isTokenChar c = true) {r : Reading}
    {rev : List Char} (hr : r.focus = .token rev) :
    ∃ s, Runs r cs s ∧ s.frames = r.frames ∧ s.focus = .token (cs.reverse ++ rev) := by
  induction cs generalizing r rev with
  | nil => exact ⟨r, .nil r, rfl, hr⟩
  | cons c cs ih =>
    obtain ⟨hc, hcs⟩ := List.forall_mem_cons.1 h
    obtain ⟨s, runs, frames, focus⟩ :=
      ih hcs (r := ⟨r.offset + c.utf8Size, r.frames, .token (c :: rev)⟩) rfl
    refine ⟨s, .cons (.continues hc hr) runs, frames, ?_⟩
    rw [focus, List.reverse_cons, List.append_assoc]
    rfl

theorem runs_token {cs : List Char} (h : ∀ c ∈ cs, isTokenChar c = true) (nonempty : cs ≠ [])
    {r : Reading} (hr : r.focus = .awaiting) :
    ∃ s, Runs r cs s ∧ s.frames = r.frames ∧ s.focus = .token cs.reverse := by
  cases cs with
  | nil => exact absurd rfl nonempty
  | cons c cs =>
    obtain ⟨hc, hcs⟩ := List.forall_mem_cons.1 h
    obtain ⟨s, runs, frames, focus⟩ :=
      runs_continue hcs (r := ⟨r.offset + c.utf8Size, r.frames, .token [c]⟩) rfl
    refine ⟨s, .cons (.begins hc hr) runs, frames, ?_⟩
    rw [focus, List.reverse_cons]

end Reading

open Reading

theorem Named.runs {before cs after : List Char} {name : String} (h : Named before cs after name)
    {r : Reading} (hr : r.focus = .awaiting) :
    ∃ s, Runs r cs s ∧ s.frames = r.frames ∧ s.focus.tree? = some (.leaf name) ∧
      s.focus.name? = some name := by
  cases h with
  | intro blankPre run blankPost =>
    obtain ⟨s, pre, frames, focus⟩ := runs_blank blankPre r
    have awaiting : s.focus = .awaiting := by
      refine Focus.eq_awaiting ?_
      rw [focus, Focus.tree?_afterBlank, hr]
      rfl
    obtain ⟨u, token, frames', focus'⟩ := runs_token run.token run.nonempty awaiting
    obtain ⟨v, post, frames'', focus''⟩ := runs_blank blankPost u
    refine ⟨v, (pre.trans token).trans post, frames''.trans (frames'.trans frames), ?_, ?_⟩
    · rw [focus'', Focus.tree?_afterBlank, focus', Focus.tree?, List.reverse_reverse]
    · rw [focus'', Focus.name?_afterBlank, focus', Focus.name?, List.reverse_reverse]

mutual
/-- The text of a tree leads a reading that awaits one to the end of that tree. -/
theorem Derives.runs : ∀ {before cs after : List Char} {t : Tree String},
    Derives before cs after t → ∀ {r : Reading}, r.focus = .awaiting →
      ∃ s, Runs r cs s ∧ s.frames = r.frames ∧ s.focus.tree? = some t
  | _, _, _, _, .leaf named, _, hr => by
    obtain ⟨s, runs, frames, tree, _⟩ := named.runs hr
    exact ⟨s, runs, frames, tree⟩
  | _, _, _, _, .node named children blankLast, r, hr => by
    rename_i before head inner last after name ts
    obtain ⟨s, first, frames, _, hname⟩ := named.runs hr
    let inside : Reading := ⟨s.offset + '('.utf8Size, ⟨s.offset, name, []⟩ :: s.frames, .awaiting⟩
    have opens : Moves s '(' inside := .opens rfl hname
    obtain ⟨u, t, done, between, frames', ht, all⟩ := children.runs (r := inside) rfl rfl
    let made : Tree String := (Frame.push ⟨s.offset, name, done⟩ t).close
    have closes : Moves u ')' ⟨u.offset + ')'.utf8Size, s.frames, .closed made⟩ :=
      .closes rfl ht frames'
    obtain ⟨v, trailing, frames'', focus⟩ :=
      runs_blank blankLast ⟨u.offset + ')'.utf8Size, s.frames, .closed made⟩
    have whole : made = .node name ts := by
      change Tree.node name (t :: done).reverse = _
      rw [all, List.append_nil, List.reverse_reverse]
    refine ⟨v, (first.trans (.cons opens between)).trans (.cons closes trailing), ?_, ?_⟩
    · exact frames''.trans frames
    · rw [focus, Focus.tree?_afterBlank, ← whole]
      rfl
theorem DerivesAll.runs : ∀ {before cs after : List Char} {ts : List (Tree String)},
    DerivesAll before cs after ts → ∀ {r : Reading} {f : Frame} {fs : List Frame},
      r.focus = .awaiting → r.frames = f :: fs →
      ∃ s t done, Runs r cs s ∧ s.frames = { f with done := done } :: fs ∧
        s.focus.tree? = some t ∧ t :: done = ts.reverse ++ f.done
  | _, _, _, _, .one tree, r, f, fs, hr, hf => by
    obtain ⟨s, runs, frames, ht⟩ := tree.runs hr
    exact ⟨s, _, f.done, runs, frames.trans hf, ht, rfl⟩
  | _, _, _, _, .more tree rest, r, f, fs, hr, hf => by
    obtain ⟨s, runs, frames, ht⟩ := tree.runs hr
    have comma : Moves s ',' ⟨s.offset + ','.utf8Size, f.push _ :: fs, .awaiting⟩ :=
      .separates rfl ht (frames.trans hf)
    obtain ⟨u, v, done, later, frames', hv, all⟩ := rest.runs (r := ⟨_, _, _⟩) rfl rfl
    refine ⟨u, v, done, runs.trans (.cons comma later), frames', hv, ?_⟩
    rw [all, List.reverse_cons, List.append_assoc]
    rfl
end

theorem parse_sound {text : String} {t : Tree String} (h : Tree.parse text = .ok t) :
    Derives [] text.toList [] t := by
  obtain ⟨r, runs, ht, hf⟩ := Tree.parse_ok.1 h
  obtain ⟨before, cs, htext, opened, reads⟩ := runs.covers
  rw [hf] at opened
  cases opened with
  | nil =>
    rw [List.nil_append] at htext
    rw [htext]
    exact reads.derives_of_tree? starts_nil ht stops_nil

theorem parse_complete {text : String} {t : Tree String} (h : Derives [] text.toList [] t) :
    Tree.parse text = .ok t := by
  obtain ⟨r, runs, frames, ht⟩ := h.runs (r := .start) rfl
  exact Tree.parse_ok.2 ⟨r, runs, ht, frames⟩

end TreeRules
