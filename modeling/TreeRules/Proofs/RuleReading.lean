import TreeRules.Proofs.ArrowSplits
import TreeRules.Proofs.PatternNotation
import TreeRules.Proofs.Validation
set_option autoImplicit false

/-!
# Reading rules

On the text of a tree the arrow search counts the parentheses that are open in the reading, and so it
finds an arrow exactly if that is the token of the root. A text is therefore a rule if it splits at a
separate arrow into a pattern and a template whose roots are no arrows themselves, and then it splits
in this way only.
-/

namespace TreeRules

open Text ArrowSearch

namespace Reading

theorem Moves.depthAfter {r s : Reading} {c : Char} (h : r.Moves c s) :
    depthAfter r.frames.length c = s.frames.length := by
  have plain (kind : Char → Bool) (hc : kind c = true) (hopen : kind '(' = false)
      (hclose : kind ')' = false) : ArrowSearch.depthAfter r.frames.length c = r.frames.length :=
    depthAfter_plain (ne_of_kind hc hopen) (ne_of_kind hc hclose) _
  cases h with
  | blank hc => exact plain isBlank hc (by decide) (by decide)
  | opens hc _ =>
    subst hc
    rfl
  | separates hc _ hf =>
    rw [plain (· == ',') (beq_iff_eq.2 hc) (by decide) (by decide), hf]
    rfl
  | closes hc _ hf =>
    subst hc
    rw [hf]
    rfl
  | begins hc _ => exact plain isTokenChar hc (by decide) (by decide)
  | continues hc _ => exact plain isTokenChar hc (by decide) (by decide)

/-- While the reading goes on, the search counts its open parentheses. -/
theorem Runs.depthOf {cs : List Char} {r : Reading} (h : Runs .start cs r) :
    depthOf cs = r.frames.length := by
  refine h.invariant (fun r cs => ArrowSearch.depthOf cs = r.frames.length) ?_ [] rfl
  intro r s c cs hr hs
  rw [depthOf_concat, hr, hs.depthAfter]

theorem Runs.blank_of_token {cs : List Char} {r s : Reading} {c : Char} (h : Runs .start cs r)
    (hf : r.frames = []) (starts : Starts cs) (hs : r.Moves c s) (hc : isTokenChar c = true) :
    Blank cs := by
  refine h.blank_of_awaiting ?_ hf
  cases hs with
  | blank hblank => simp [isTokenChar_blank hblank] at hc
  | opens h _ => exact absurd (h ▸ hc) (by decide)
  | separates h _ _ => exact absurd (h ▸ hc) (by decide)
  | closes h _ _ => exact absurd (h ▸ hc) (by decide)
  | begins _ hr =>
    rw [hr]
    rfl
  | continues _ hr =>
    obtain ⟨before, ds, rfl, _, reads⟩ := h.covers
    rw [hr] at reads
    cases reads with
    | token blank nonempty token =>
      rw [← List.append_assoc] at starts
      have none := starts.eq_nil fun c hc => token c (List.mem_reverse.1 hc)
      exact absurd (List.reverse_eq_nil_iff.1 none) nonempty

end Reading

theorem first_token_unique {pre token rest pre' token' rest' : List Char} (blank : Blank pre)
    (run : MaximalRun pre token rest) (blank' : Blank pre') (run' : MaximalRun pre' token' rest')
    (h : pre ++ token ++ rest = pre' ++ token' ++ rest') : token = token' := by
  have head {token rest : List Char} (nonempty : token ≠ [])
      (all : ∀ c ∈ token, isTokenChar c = true) (c : Char) (hc : (token ++ rest).head? = some c) :
      isBlank c = false := by
    cases token with
    | nil => exact absurd rfl nonempty
    | cons d token =>
      rw [← Option.some.inj hc]
      exact isBlank_token (all d List.mem_cons_self)
  rw [List.append_assoc, List.append_assoc] at h
  obtain ⟨_, later⟩ := append_eq_append_of_stop blank blank' (head run.nonempty run.token)
    (head run'.nonempty run'.token) h
  exact (append_eq_append_of_stop run.token run'.token run.stops run'.stops later).1

theorem Derives.root {before cs after : List Char} {t : Tree String} (h : Derives before cs after t) :
    ∃ pre token rest, cs = pre ++ token ++ rest ∧ Blank pre ∧
      MaximalRun (before ++ pre) token (rest ++ after) ∧ t.value = .ofList token := by
  cases h with
  | leaf named =>
    cases named with
    | intro blank run _ => exact ⟨_, _, _, rfl, blank, run, rfl⟩
  | node named children blankLast =>
    cases named with
    | intro blank run blankPost =>
      rename_i inner last ts pre token post
      refine ⟨pre, token, post ++ '(' :: inner ++ ')' :: last, ?_, blank, ?_, rfl⟩
      · simp
      · simpa using run

theorem Derives.closed {text : List Char} {t : Tree String} (h : Derives [] text [] t) :
    depthOf text = 0 := by
  obtain ⟨r, runs, frames, _⟩ := h.runs (r := .start) rfl
  rw [runs.depthOf, frames]
  rfl

/-- The only token of a tree's text outside all parentheses is that of the root. -/
theorem Derives.outerArrow_iff {text : List Char} {t : Tree String} (h : Derives [] text [] t) :
    (∃ left right, OuterArrow text left right) ↔ t.value = "->" := by
  obtain ⟨pre, token, rest, whole, blank, run, value⟩ := h.root
  rw [List.nil_append, List.append_nil] at run
  constructor
  · rintro ⟨left, right, split, arrow_run, outside⟩
    obtain ⟨s, runs, _⟩ := h.runs (r := .start) rfl
    have rest_split : text = left ++ '-' :: '>' :: right := by
      rw [split, List.append_assoc]
      rfl
    -- nothing is open where the arrow starts, so only blanks precede it
    obtain ⟨u, early, late⟩ := (rest_split ▸ runs).split
    have frames : u.frames = [] := by
      rw [early.depthOf] at outside
      exact List.length_eq_zero_iff.1 outside
    have left_blank : Blank left := by
      cases late with
      | cons head _ => exact early.blank_of_token frames arrow_run.starts head (by decide)
    rw [value, ← first_token_unique left_blank arrow_run blank run (split.symm.trans whole)]
    rfl
  · intro harrow
    have chars : token = arrow := by
      rw [← String.toList_ofList (l := token), ← value, harrow]
      rfl
    subst chars
    exact ⟨pre, rest, whole, run, depthOf_blank blank⟩

namespace Pattern

def ArrowRooted (p : Pattern) : Prop := ∃ ps, p = .node "->" ps

theorem arrowRooted_iff {text : String} {p : Pattern} (h : parse text = .ok p) :
    p.ArrowRooted ↔ ∃ left right, OuterArrow text.toList left right := by
  obtain ⟨t, ht, hp⟩ := parse_ok.1 h
  have root : p.symbols.value = Symbol.ofToken t.value := by
    rw [hp]
    cases t
    rfl
  rw [ht.outerArrow_iff]
  constructor
  · rintro ⟨ps, rfl⟩
    exact Symbol.text_of_literal root.symm
  · intro value
    rw [value, show Symbol.ofToken "->" = .literal "->" from rfl] at root
    cases p with
    | var name => simp [Tree.leaf] at root
    | node text ps => exact ⟨ps, by simpa using root⟩

theorem depthOf_of_parse {text : String} {p : Pattern} (h : parse text = .ok p) :
    depthOf text.toList = 0 := by
  obtain ⟨t, ht, _⟩ := parse_ok.1 h
  exact ht.closed

end Pattern

theorem toList_split {left right : String} :
    (left ++ "->" ++ right).toList = left.toList ++ arrow ++ right.toList := by
  rw [String.toList_append, String.toList_append]
  rfl

theorem soleArrow_iff {text left right : String} {p q : Pattern} (hp : Pattern.parse left = .ok p)
    (hq : Pattern.parse right = .ok q) :
    SoleArrow text left right ↔ text = left ++ "->" ++ right ∧ Starts left.toList ∧
      Stops right.toList ∧ ¬ p.ArrowRooted ∧ ¬ q.ArrowRooted := by
  have closed := Pattern.depthOf_of_parse hp
  rw [Pattern.arrowRooted_iff hp, Pattern.arrowRooted_iff hq]
  constructor
  · rintro ⟨outer, sole⟩
    -- an arrow at the root of a side would be another one
    have around (l r : List Char) :=
      outerArrow_append (l := l) (r := r) outer.run.starts outer.run.stops closed
    simp only [← outer.whole] at around
    refine ⟨String.toList_inj.1 (outer.whole.trans toList_split.symm), outer.run.starts,
      outer.run.stops, ?_, ?_⟩
    · rintro ⟨l, r, inner⟩
      have same := (sole l _ ((around _ _).2 (Or.inr (Or.inl ⟨r, inner, rfl⟩)))).2
      rw [List.append_left_eq_self] at same
      simp [arrow] at same
    · rintro ⟨l, r, inner⟩
      have same := (sole _ r ((around _ _).2 (Or.inr (Or.inr ⟨l, inner, rfl⟩)))).1
      simp [arrow] at same
  · rintro ⟨rfl, starts, stops, noLeft, noRight⟩
    have around (l r : List Char) := outerArrow_append (l := l) (r := r) starts stops closed
    simp only [← toList_split] at around
    refine ⟨(around _ _).2 (Or.inl ⟨rfl, rfl⟩), fun l r h => ?_⟩
    rcases (around l r).1 h with same | ⟨gap, inner, _⟩ | ⟨gap, inner, _⟩
    · exact same
    · exact absurd ⟨_, _, inner⟩ noLeft
    · exact absurd ⟨_, _, inner⟩ noRight

namespace Rule

/-- Why a text is no rule. Each reason supposes that those before it do not apply. -/
inductive Rejected (text : String) : RuleError → Prop
  | form (none : ¬ ∃ left right, SoleArrow text left right) : Rejected text .form
  | pattern {left right : String} {e : PatternError} (sole : SoleArrow text left right)
      (refused : Pattern.parse left = .error e) : Rejected text (.invalid .pattern e)
  | template {left right : String} {p : Pattern} {e : PatternError}
      (sole : SoleArrow text left right) (read : Pattern.parse left = .ok p)
      (refused : Pattern.parse right = .error e) : Rejected text (.invalid .template e)
  | missing {left right : String} {p q : Pattern} (sole : SoleArrow text left right)
      (read : Pattern.parse left = .ok p) (read' : Pattern.parse right = .ok q)
      (unbound : ¬ ∀ name ∈ q.names, name ∈ p.names) : Rejected text (.missing (missing p q))

/-- The text is a rule with these sides. -/
structure ReadsAs (text left right : String) (p q : Pattern) : Prop where
  whole : text = left ++ "->" ++ right
  starts : Starts left.toList
  stops : Stops right.toList
  pattern : Pattern.parse left = .ok p
  template : Pattern.parse right = .ok q
  pattern_root : ¬ p.ArrowRooted
  template_root : ¬ q.ArrowRooted
  bound : ∀ name ∈ q.names, name ∈ p.names

variable {text left right : String} {p q : Pattern}

theorem ReadsAs.sole (h : ReadsAs text left right p q) : SoleArrow text left right :=
  (soleArrow_iff h.pattern h.template).2
    ⟨h.whole, h.starts, h.stops, h.pattern_root, h.template_root⟩

theorem parse_sole (h : SoleArrow text left right) (hp : Pattern.parse left = .ok p)
    (hq : Pattern.parse right = .ok q) : parse text = ofPatterns p q := by
  rw [parse, arrowSplits_eq_singleton.2 h]
  simp only [hp, hq]

theorem parse_form (h : ¬ ∃ left right, SoleArrow text left right) : parse text = .error .form := by
  rw [parse]
  split
  · next left right hsplits => exact absurd ⟨_, _, arrowSplits_eq_singleton.1 hsplits⟩ h
  · rfl

theorem Rejected.parse {e : RuleError} (h : Rejected text e) : Rule.parse text = .error e := by
  cases h with
  | form none => exact parse_form none
  | pattern sole refused =>
    rw [Rule.parse, arrowSplits_eq_singleton.2 sole]
    simp only [refused]
  | template sole read refused =>
    rw [Rule.parse, arrowSplits_eq_singleton.2 sole]
    simp only [read, refused]
  | missing sole read read' unbound => rw [parse_sole sole read read', ofPatterns_missing unbound]

theorem ReadsAs.parse {r : Rule} (h : ReadsAs text left right r.pattern r.template) :
    Rule.parse text = .ok r := by
  rw [parse_sole h.sole h.pattern h.template]
  exact ofPatterns_ok.2 ⟨rfl, rfl⟩

theorem reads_or_rejected (text : String) :
    (∃ r : Rule, ∃ left right, ReadsAs text left right r.pattern r.template) ∨
      ∃ e, Rejected text e := by
  by_cases h : ∃ left right, SoleArrow text left right
  · obtain ⟨left, right, sole⟩ := h
    cases hp : Pattern.parse left with
    | error e => exact Or.inr ⟨_, .pattern sole hp⟩
    | ok p =>
      cases hq : Pattern.parse right with
      | error e => exact Or.inr ⟨_, .template sole hp hq⟩
      | ok q =>
        by_cases bound : ∀ name ∈ q.names, name ∈ p.names
        · obtain ⟨whole, starts, stops, root, root'⟩ := (soleArrow_iff hp hq).1 sole
          refine Or.inl ⟨⟨p, q, bound_of_missing (missing_eq_nil.2 bound)⟩, left, right, ?_⟩
          exact ⟨whole, starts, stops, hp, hq, root, root', bound⟩
        · exact Or.inr ⟨_, .missing sole hp hq bound⟩
  · exact Or.inr ⟨_, .form h⟩

theorem parse_ok {r : Rule} :
    parse text = .ok r ↔ ∃ left right, ReadsAs text left right r.pattern r.template := by
  constructor
  · intro h
    rcases reads_or_rejected text with ⟨r', left, right, reads⟩ | ⟨e, rejected⟩
    · have same : r' = r := Except.ok.inj (reads.parse.symm.trans h)
      exact ⟨left, right, same ▸ reads⟩
    · rw [rejected.parse] at h
      simp at h
  · rintro ⟨left, right, reads⟩
    exact reads.parse

theorem parse_error {e : RuleError} : parse text = .error e ↔ Rejected text e := by
  constructor
  · intro h
    rcases reads_or_rejected text with ⟨r, left, right, reads⟩ | ⟨e', rejected⟩
    · rw [reads.parse] at h
      simp at h
    · rw [← Except.error.inj (rejected.parse.symm.trans h)]
      exact rejected
  · exact Rejected.parse

/-- A text is read as a rule if and only if it splits, at an arrow that is a separate token, into a
pattern and a template whose roots are no arrows, with each variable of the template in the pattern.
There is then one such split, and the rule consists of its sides. The other texts are refused, each
for the first reason that applies to it. -/
theorem parse_iff_reads (text : String) :
    (∀ r, parse text = .ok r ↔ ∃ left right, ReadsAs text left right r.pattern r.template) ∧
      (∀ left right p q, ReadsAs text left right p q →
        (∃ r, parse text = .ok r ∧ r.pattern = p ∧ r.template = q) ∧
        ∀ left' right' p' q', ReadsAs text left' right' p' q' →
          left' = left ∧ right' = right ∧ p' = p ∧ q' = q) ∧
      ∀ e, parse text = .error e ↔ Rejected text e := by
  refine ⟨fun r => parse_ok, fun left right p q h => ⟨?_, ?_⟩, fun e => parse_error⟩
  · let r : Rule := ⟨p, q, bound_of_missing (missing_eq_nil.2 h.bound)⟩
    exact ⟨r, ReadsAs.parse (r := r) h, rfl, rfl⟩
  · intro left' right' p' q' h'
    obtain ⟨rfl, rfl⟩ := h.sole.unique h'.sole
    have patterns := Except.ok.inj (h'.pattern.symm.trans h.pattern)
    have templates := Except.ok.inj (h'.template.symm.trans h.template)
    exact ⟨rfl, rfl, patterns, templates⟩

end Rule

end TreeRules
