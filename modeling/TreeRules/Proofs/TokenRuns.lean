import Mathlib.Data.List.TakeWhile
import TreeRules.Proofs.ArrowSplits
import TreeRules.Proofs.Nesting
set_option autoImplicit false

namespace TreeRules

open Text

theorem starts_iff_all {before : List Char} :
    (before.getLast?.all fun c => !isTokenChar c) = true ↔ Starts before := by
  rw [Starts]
  cases before.getLast? <;> simp

instance : DecidablePred Starts := fun _ => decidable_of_iff _ starts_iff_all

@[ext]
structure TokenRun where
  offset : Nat
  text : String

/-- The tokens that start in `cs`, where `before` is the text before it. -/
def runsAfter (before : List Char) : List Char → List TokenRun
  | [] => []
  | c :: cs =>
    if isTokenChar c = true ∧ Starts before then
      ⟨byteSize before, .ofList (c :: cs.takeWhile isTokenChar)⟩ :: runsAfter (before ++ [c]) cs
    else runsAfter (before ++ [c]) cs

def tokenRuns (cs : List Char) : List TokenRun := runsAfter [] cs

/-- The run is a token that starts in `cs`, where `before` is the text before it. -/
def RunIn (before cs : List Char) (run : TokenRun) : Prop :=
  ∃ early late, cs = early ++ run.text.toList ++ late ∧
    MaximalRun (before ++ early) run.text.toList late ∧ run.offset = byteSize (before ++ early)

structure ListsRuns (cs : List Char) (runs : List TokenRun) : Prop where
  mem : ∀ run, run ∈ runs ↔ ∃ before after, cs = before ++ run.text.toList ++ after ∧
    MaximalRun before run.text.toList after ∧ run.offset = byteSize before
  ascending : runs.Pairwise fun run later => run.offset < later.offset

section

variable {before cs ds : List Char} {c : Char}

theorem takeWhile_token (token : ∀ c ∈ cs, isTokenChar c = true) (stops : Stops ds) :
    (cs ++ ds).takeWhile isTokenChar = cs := by
  have none : ds.takeWhile isTokenChar = [] := by
    cases ds with
    | nil => rfl
    | cons d ds => rw [List.takeWhile_cons, stops d rfl]; rfl
  rw [List.takeWhile_append_of_pos token, none, List.append_nil]

theorem stops_dropWhile (cs : List Char) : Stops (cs.dropWhile isTokenChar) := by
  intro c hc
  have first := List.head?_dropWhile_not isTokenChar cs
  rwa [hc] at first

theorem runsAfter_start (hc : isTokenChar c = true) (h : Starts before) (cs : List Char) :
    runsAfter before (c :: cs) =
      ⟨byteSize before, .ofList (c :: cs.takeWhile isTokenChar)⟩ ::
        runsAfter (before ++ [c]) cs := by
  rw [runsAfter, if_pos ⟨hc, h⟩]

theorem runsAfter_skip (h : ¬ (isTokenChar c = true ∧ Starts before)) (cs : List Char) :
    runsAfter before (c :: cs) = runsAfter (before ++ [c]) cs := by
  rw [runsAfter, if_neg h]

theorem runIn_cons {run : TokenRun} :
    RunIn before (c :: cs) run ↔ (isTokenChar c = true ∧ Starts before) ∧
        run = ⟨byteSize before, .ofList (c :: cs.takeWhile isTokenChar)⟩ ∨
      RunIn (before ++ [c]) cs run := by
  constructor
  · rintro ⟨early, late, split, maximal, offset⟩
    cases early with
    | nil =>
      rw [List.nil_append] at split
      rw [List.append_nil] at maximal offset
      -- a run at the first character takes in all token characters up to the next other one
      cases htext : run.text.toList with
      | nil => exact absurd htext maximal.nonempty
      | cons d token =>
        rw [htext] at split maximal
        obtain ⟨rfl, rest⟩ := List.cons.inj split
        change cs = token ++ late at rest
        obtain ⟨hc, htoken⟩ := List.forall_mem_cons.1 maximal.token
        refine Or.inl ⟨⟨hc, maximal.starts⟩, TokenRun.ext offset ?_⟩
        rw [rest, takeWhile_token htoken maximal.stops, ← htext, String.ofList_toList]
    | cons d early =>
      obtain ⟨rfl, rest⟩ := List.cons.inj split
      rw [List.append_cons] at maximal offset
      exact Or.inr ⟨early, late, rest, maximal, offset⟩
  · rintro (⟨⟨hc, starts⟩, rfl⟩ | ⟨early, late, rfl, maximal, offset⟩)
    · refine ⟨[], cs.dropWhile isTokenChar, ?_, ?_, by rw [List.append_nil]⟩
      · rw [String.toList_ofList, List.nil_append, List.cons_append, List.takeWhile_append_dropWhile]
      · rw [String.toList_ofList, List.append_nil]
        refine ⟨List.cons_ne_nil _ _, List.forall_mem_cons.2 ⟨hc, fun d hd => ?_⟩, starts,
          stops_dropWhile cs⟩
        exact List.mem_takeWhile_imp hd
    · refine ⟨c :: early, late, rfl, ?_, ?_⟩
      · rwa [List.append_cons]
      · rwa [List.append_cons]

theorem mem_runsAfter {run : TokenRun} : run ∈ runsAfter before cs ↔ RunIn before cs run := by
  induction cs generalizing before with
  | nil =>
    refine ⟨fun h => absurd h List.not_mem_nil, ?_⟩
    rintro ⟨early, late, split, maximal, _⟩
    have empty := (List.append_eq_nil_iff.1 split.symm).1
    exact absurd (List.append_eq_nil_iff.1 empty).2 maximal.nonempty
  | cons c cs ih =>
    rw [runIn_cons]
    by_cases h : isTokenChar c = true ∧ Starts before
    · rw [runsAfter_start h.1 h.2, List.mem_cons, ih]
      simp only [h, and_true, true_and]
    · rw [runsAfter_skip h, ih]
      simp only [h, false_and, false_or]

theorem RunIn.bounds {run : TokenRun} (h : RunIn before cs run) :
    byteSize before ≤ run.offset ∧ run.offset < byteSize (before ++ cs) := by
  obtain ⟨early, late, rfl, maximal, offset⟩ := h
  have wide := byteSize_pos maximal.nonempty
  simp only [offset, byteSize_append]
  omega

theorem runsAfter_ascending (before cs : List Char) :
    (runsAfter before cs).Pairwise fun run later => run.offset < later.offset := by
  induction cs generalizing before with
  | nil => exact .nil
  | cons c cs ih =>
    by_cases h : isTokenChar c = true ∧ Starts before
    · rw [runsAfter_start h.1 h.2, List.pairwise_cons]
      refine ⟨fun later hlater => ?_, ih _⟩
      have behind := (mem_runsAfter.1 hlater).bounds.1
      have wide := c.utf8Size_pos
      rw [byteSize_concat] at behind
      change byteSize before < later.offset
      omega
    · rw [runsAfter_skip h]
      exact ih _

/-- No token goes on across the cut between the texts. -/
def Parted (cs ds : List Char) : Prop := Starts cs ∨ Stops ds

theorem takeWhile_parted (h : Parted (before ++ c :: cs) ds) (hc : isTokenChar c = true) :
    (cs ++ ds).takeWhile isTokenChar = cs.takeWhile isTokenChar := by
  rw [List.takeWhile_append]
  split
  · next whole =>
    have all : cs.takeWhile isTokenChar = cs :=
      (List.takeWhile_prefix isTokenChar).eq_of_length whole
    have token : ∀ d ∈ cs, isTokenChar d = true := fun d hd =>
      List.mem_takeWhile_imp (all.symm ▸ hd)
    rcases h with starts | stops
    · -- the text before the cut would end with a token character
      have whole : ∀ d ∈ c :: cs, isTokenChar d = true := List.forall_mem_cons.2 ⟨hc, token⟩
      exact absurd (starts.eq_nil whole) (List.cons_ne_nil c cs)
    · rw [all, ← List.takeWhile_append_of_pos token, takeWhile_token token stops]
  · rfl

theorem runsAfter_append (before : List Char) (h : Parted (before ++ cs) ds) :
    runsAfter before (cs ++ ds) = runsAfter before cs ++ runsAfter (before ++ cs) ds := by
  induction cs generalizing before with
  | nil =>
    rw [List.append_nil]
    rfl
  | cons c cs ih =>
    have rest := ih (before ++ [c]) (by rwa [← List.append_cons])
    rw [← List.append_cons] at rest
    by_cases start : isTokenChar c = true ∧ Starts before
    · rw [List.cons_append, runsAfter_start start.1 start.2, runsAfter_start start.1 start.2,
        takeWhile_parted h start.1, rest, List.cons_append]
    · rw [List.cons_append, runsAfter_skip start, runsAfter_skip start, rest]

theorem tokenRuns_append (h : Parted cs ds) :
    tokenRuns (cs ++ ds) = tokenRuns cs ++ runsAfter cs ds := runsAfter_append [] h

theorem tokenRuns_concat (cs : List Char) (hc : isTokenChar c = false) :
    tokenRuns (cs ++ [c]) = tokenRuns cs := by
  rw [tokenRuns_append (Or.inr (stops_cons hc [])), runsAfter_skip (by simp [hc]), runsAfter,
    List.append_nil]

theorem runsAfter_inside (token : ∀ c ∈ cs, isTokenChar c = true) (h : ¬ Starts before) :
    runsAfter before cs = [] := by
  induction cs generalizing before with
  | nil => rfl
  | cons c cs ih =>
    obtain ⟨hc, hcs⟩ := List.forall_mem_cons.1 token
    rw [runsAfter_skip fun start => h start.2]
    refine ih hcs fun starts => ?_
    exact absurd (starts.eq_nil (List.forall_mem_singleton.2 hc)) (List.cons_ne_nil c [])

theorem tokenRuns_append_token (h : Starts before) (nonempty : cs ≠ [])
    (token : ∀ c ∈ cs, isTokenChar c = true) :
    tokenRuns (before ++ cs) = tokenRuns before ++ [⟨byteSize before, .ofList cs⟩] := by
  rw [tokenRuns_append (Or.inl h)]
  cases cs with
  | nil => exact absurd rfl nonempty
  | cons c cs =>
    obtain ⟨hc, hcs⟩ := List.forall_mem_cons.1 token
    have inside : ¬ Starts (before ++ [c]) := fun starts =>
      absurd (starts.eq_nil (List.forall_mem_singleton.2 hc)) (List.cons_ne_nil c [])
    have whole := takeWhile_token hcs stops_nil
    rw [List.append_nil] at whole
    rw [runsAfter_start hc h, runsAfter_inside hcs inside, whole]

theorem filter_tokenRuns (h : Parted cs ds) :
    (tokenRuns (cs ++ ds)).filter (fun run => run.offset < byteSize cs) = tokenRuns cs := by
  have early : (tokenRuns cs).filter (fun run => run.offset < byteSize cs) = tokenRuns cs := by
    refine List.filter_eq_self.2 fun run hrun => decide_eq_true ?_
    exact (mem_runsAfter.1 hrun).bounds.2
  have late : (runsAfter cs ds).filter (fun run => run.offset < byteSize cs) = [] := by
    refine List.filter_eq_nil_iff.2 fun run hrun h => ?_
    exact absurd (of_decide_eq_true h) (Nat.not_lt.2 (mem_runsAfter.1 hrun).bounds.1)
  rw [tokenRuns_append h, List.filter_append, early, late, List.append_nil]

theorem tokenRuns_lists (cs : List Char) : ListsRuns cs (tokenRuns cs) :=
  ⟨fun _ => mem_runsAfter, runsAfter_ascending [] cs⟩

end

end TreeRules
