import TreeRules.Proofs.MappingOrder
import TreeRules.Proofs.RefusalPosition
import TreeRules.Proofs.TokenRuns
set_option autoImplicit false

namespace TreeRules

open Text

/-- Of the tokens of a text, those that are read before it is refused with the error. -/
def ParseError.tokensRead (runs : List TokenRun) : ParseError → List TokenRun
  | .empty => []
  | .emptyToken n => runs.filter fun run => run.offset < n
  | .unclosed _ => runs
  | .unopened n => runs.filter fun run => run.offset < n
  | .trailing n => runs.filter fun run => run.offset < n
  | .unexpected n _ => runs.filter fun run => run.offset < n

theorem Focus.tree?_of_name? {focus : Focus} {name : String} (h : focus.name? = some name) :
    focus.tree? = some (.leaf name) := by
  cases focus <;> simp_all [name?, tree?]

namespace Reading

variable {r s : Reading} {c : Char} {cs : List Char}

/-- The tokens up to the innermost open parenthesis, and those of the children after it that are
finished. -/
def frameTokens (fs : List Frame) : List String := fs.reverse.flatMap Frame.tokens

theorem frameTokens_cons (f : Frame) (fs : List Frame) :
    frameTokens (f :: fs) = frameTokens fs ++ f.tokens := by
  simp [frameTokens]

theorem frameTokens_push (f : Frame) (t : Tree String) (fs : List Frame) :
    frameTokens (f.push t :: fs) = frameTokens (f :: fs) ++ t.values := by
  simp [frameTokens_cons, Frame.tokens, Frame.push]

theorem tokens_of_awaiting (h : r.focus.tree? = none) : r.tokens = frameTokens r.frames := by
  rw [Reading.tokens, h]
  exact List.append_nil _

theorem tokens_of_tree? {t : Tree String} (h : r.focus.tree? = some t) :
    r.tokens = frameTokens r.frames ++ t.values := by
  rw [Reading.tokens, h]
  rfl

theorem Moves.tokens (h : r.Moves c s) (hc : isTokenChar c = false) : s.tokens = r.tokens := by
  cases h with
  | blank _ =>
    have focus := r.focus.tree?_afterBlank [c]
    cases ht : r.focus.tree? with
    | none => rw [tokens_of_awaiting ht, tokens_of_awaiting (focus.trans ht)]
    | some t => rw [tokens_of_tree? ht, tokens_of_tree? (focus.trans ht)]
  | opens _ hname =>
    rw [tokens_of_awaiting rfl, frameTokens_cons, tokens_of_tree? (Focus.tree?_of_name? hname)]
    rfl
  | separates _ ht hf =>
    rw [tokens_of_awaiting rfl, frameTokens_push, tokens_of_tree? ht, hf]
  | closes _ ht hf =>
    rw [tokens_of_tree? rfl, tokens_of_tree? ht, hf, ← frameTokens_push, frameTokens_cons,
      Frame.close, Tree.values_node]
    rfl
  | begins h _ => simp [h] at hc
  | continues h _ => simp [h] at hc

theorem tokens_of_token {rev : List Char} (h : r.focus = .token rev) :
    r.tokens = frameTokens r.frames ++ [.ofList rev.reverse] := by
  rw [Reading.tokens, h]
  rfl

/-- The tokens of a reading are those of the text so far. A token is in progress exactly if the text
ends with one of its characters. -/
inductive Lexes : Reading → List Char → Prop
  | within {offset : Nat} {frames : List Frame} {before rev : List Char} (starts : Starts before)
      (nonempty : rev ≠ []) (token : ∀ c ∈ rev, isTokenChar c = true)
      (earlier : frameTokens frames = (tokenRuns before).map TokenRun.text) :
      Lexes ⟨offset, frames, .token rev⟩ (before ++ rev.reverse)
  | between {r : Reading} {cs : List Char} (focus : ∀ rev, r.focus ≠ .token rev)
      (starts : Starts cs) (tokens : r.tokens = (tokenRuns cs).map TokenRun.text) : Lexes r cs

theorem lexes_start : start.Lexes [] := .between (by simp [start]) starts_nil rfl

theorem Lexes.tokens (h : r.Lexes cs) : r.tokens = (tokenRuns cs).map TokenRun.text := by
  cases h with
  | within starts nonempty token earlier =>
    rename_i offset frames before rev
    have reversed : ∀ c ∈ rev.reverse, isTokenChar c = true := fun c hc =>
      token c (List.mem_reverse.1 hc)
    rw [tokens_of_token rfl, earlier, tokenRuns_append_token starts (by simpa using nonempty) reversed,
      List.map_append]
    rfl
  | between _ _ tokens => exact tokens

theorem Lexes.step (h : r.Lexes cs) (hs : r.Moves c s) : s.Lexes (cs ++ [c]) := by
  -- any other character ends the token in progress, if there is one
  have outside (hc : isTokenChar c = false) (focus : ∀ rev, s.focus ≠ .token rev) :
      s.Lexes (cs ++ [c]) := by
    refine .between focus (starts_concat cs hc) ?_
    rw [hs.tokens hc, h.tokens, tokenRuns_concat cs hc]
  cases hs with
  | blank hc =>
    refine outside (isTokenChar_blank hc) fun rev => ?_
    cases r.focus <;> simp [Focus.endToken]
  | opens hc _ => exact outside (by rw [hc]; decide) (by simp)
  | separates hc _ _ => exact outside (by rw [hc]; decide) (by simp)
  | closes hc _ _ => exact outside (by rw [hc]; decide) (by simp)
  | begins hc hr =>
    cases h with
    | within _ _ _ _ => simp at hr
    | between _ starts tokens =>
      rw [tokens_of_awaiting (by rw [hr]; rfl)] at tokens
      exact .within starts (List.cons_ne_nil c []) (List.forall_mem_singleton.2 hc) tokens
  | continues hc hr =>
    cases h with
    | within starts _ token earlier =>
      obtain rfl := Focus.token.inj hr
      rw [List.append_assoc, ← List.reverse_cons]
      exact .within starts (List.cons_ne_nil c _) (List.forall_mem_cons.2 ⟨hc, token⟩) earlier
    | between focus _ _ => exact absurd hr (focus _)

theorem Runs.lexes (h : Runs .start cs r) : r.Lexes cs :=
  h.invariant Lexes (fun _ _ _ _ hr hs => hr.step hs) [] lexes_start

theorem Lexes.parted (h : r.Lexes cs) {e : ParseError} (refused : r.step c = .error e)
    (late : List Char) : Parted cs (c :: late) := by
  by_cases hc : isTokenChar c = true
  · rw [step_token hc, map_error] at refused
    cases h with
    | within _ _ _ _ => simp [extend] at refused
    | between _ starts _ => exact Or.inl starts
  · exact Or.inr (stops_cons (by simpa using hc) late)

theorem Runs.tokens_of_finish (runs : Runs .start cs r) {e : ParseError}
    (h : r.finish = .error e) : r.tokens = (e.tokensRead (tokenRuns cs)).map TokenRun.text := by
  rw [runs.lexes.tokens]
  rcases finish_error.1 h with ⟨ht, hf, rfl⟩ | ⟨_, _, rfl⟩ | ⟨_, f, _, _, _, rfl⟩
  · rw [← runs.lexes.tokens, tokens_of_awaiting ht, hf]
    rfl
  · have all := filter_tokenRuns (Or.inr stops_nil : Parted cs [])
    rw [List.append_nil] at all
    rw [ParseError.tokensRead, runs.places.offset, all]
  · rfl

theorem Runs.tokens_of_step (runs : Runs .start cs r) {e : ParseError} (h : r.step c = .error e)
    (late : List Char) :
    r.tokens = (e.tokensRead (tokenRuns (cs ++ c :: late))).map TokenRun.text := by
  have cut := filter_tokenRuns (runs.lexes.parted h late)
  rw [← runs.places.offset] at cut
  rw [runs.lexes.tokens, ← cut]
  -- whichever error it is, it holds the offset of the character
  cases refuses_of_step h <;> rfl

theorem tokens_of_refusal {refusal : Refusal} (h : start.run cs = .error refusal) :
    refusal.tokens = (refusal.error.tokensRead (tokenRuns cs)).map TokenRun.text := by
  rcases run_error h with ⟨r, runs, stop, tokens⟩ | ⟨early, c, late, r, rfl, runs, stop, tokens⟩
  · exact tokens.trans (runs.tokens_of_finish stop)
  · exact tokens.trans (runs.tokens_of_step stop late)

theorem values_of_run {t : Tree String} (h : start.run cs = .ok t) :
    t.values = (tokenRuns cs).map TokenRun.text := by
  obtain ⟨r, runs, finish⟩ := run_ok.1 h
  obtain ⟨ht, hf⟩ := finish_ok.1 finish
  rw [← runs.lexes.tokens, tokens_of_tree? ht, hf]
  rfl

end Reading

namespace Tree

variable {α σ : Type}

def runParse (token : String → StateM σ α) (text : String) (s : σ) :
    Except ParseError (Tree α) × Calls (String × α) σ :=
  (parseM (noted Prod.mk token) text).run (.start s)

section

variable {text : String} (token : String → StateM σ α) (s : σ)

theorem run_parseM_of_tree {names : Tree String} (h : read text = .ok names) :
    (parseM token text).run s =
      (.ok ((names.mapM token).run s).1, ((names.mapM token).run s).2) := by
  rw [parseM, h]
  rfl

theorem run_parseM_of_refusal {refusal : Reading.Refusal} (h : read text = .error refusal) :
    (parseM token text).run s =
      (.error refusal.error, ((refusal.tokens.mapM token).run s).2) := by
  rw [parseM, h]
  change ((refusal.tokens.forM fun name => do let _ ← token name) >>= _ :
    StateM σ (Except ParseError (Tree α))).run s = _
  rw [StateT.run_bind, run_forM_eq]
  rfl

theorem runParse_of_tree {names : Tree String} (h : read text = .ok names) :
    runParse token text s = (.ok ((names.mapM token).run s).1, loop token names.values s) := by
  have noting := run_parseM_of_tree (noted Prod.mk token) (.start s) h
  change _ = (Except.ok (runMap token names s).1, (runMap token names s).2) at noting
  rwa [runMap_eq] at noting

theorem runParse_of_refusal {refusal : Reading.Refusal} (h : read text = .error refusal) :
    runParse token text s = (.error refusal.error, loop token refusal.tokens s) := by
  have noting := run_parseM_of_refusal (noted Prod.mk token) (.start s) h
  rwa [run_mapM_loop] at noting

end

/-- The callback is called on tokens of the text, from left to right and each once. For a text that
is derived as a tree these are all of its tokens, and the answers are the values in pre-order of a
tree of that shape. For a refused text they are all of them too if a parenthesis is left open, none
if the text is blank, and those that start before the offset of any other error. -/
theorem tokens_called_in_order (text : String) (token : String → StateM σ α) (s : σ) :
    ListsRuns text.toList (tokenRuns text.toList) ∧
    ∃ outcome calls, runParse token text s = (outcome, calls) ∧
      (parseM token text).run s = (outcome, calls.state) ∧
      (calls.arguments.mapM token).run s = (calls.answers, calls.state) ∧
      ((∃ t, outcome = .ok t) ↔ ∃ names, Derives [] text.toList [] names) ∧
      (∀ e, outcome = .error e ↔ parse text = .error e) ∧
      (∀ names, Derives [] text.toList [] names → ∃ t, outcome = .ok t ∧ SameShape names t ∧
        names.values = calls.arguments) ∧
      (∀ t, outcome = .ok t →
        calls.arguments = (tokenRuns text.toList).map TokenRun.text ∧ t.values = calls.answers) ∧
      ∀ e, outcome = .error e →
        calls.arguments = (e.tokensRead (tokenRuns text.toList)).map TokenRun.text := by
  refine ⟨tokenRuns_lists text.toList, ?_⟩
  cases h : read text with
  | ok names =>
    have parsed : parse text = .ok names := by rw [parse, h]; rfl
    refine ⟨_, _, runParse_of_tree token s h, ?_, loop_repeats token names.values s,
      ⟨fun _ => ⟨names, parse_sound parsed⟩, fun _ => ⟨_, rfl⟩⟩, fun e => ?_,
      fun names' derived => ⟨_, rfl, ?_⟩, fun t ht => ⟨?_, ?_⟩, fun e he => by simp at he⟩
    · rw [run_parseM_of_tree token s h, state_loop]
    · simp [parsed]
    · obtain rfl := Except.ok.inj (parsed.symm.trans (parse_complete derived))
      exact ⟨sameShape_mapM token names s, (arguments_loop token names.values s).symm⟩
    · rw [arguments_loop, Reading.values_of_run h]
    · rw [answers_loop_values, Except.ok.inj ht]
  | error refusal =>
    have refused : parse text = .error refusal.error := by rw [parse, h]; rfl
    have underived (names : Tree String) : ¬ Derives [] text.toList [] names := by
      intro derived
      simp [parse_complete derived] at refused
    refine ⟨_, _, runParse_of_refusal token s h, run_parseM_of_refusal token s h,
      loop_repeats token refusal.tokens s, ?_, fun e => ?_,
      fun names derived => absurd derived (underived names), fun t ht => by simp at ht,
      fun e he => ?_⟩
    · simp [underived]
    · rw [refused, Except.error.injEq, Except.error.injEq]
    · rw [arguments_loop, ← Except.error.inj he]
      exact Reading.tokens_of_refusal h

/-- The token behind the tree is never passed on, and `ü` takes two bytes. -/
theorem tokens_called_in_order_trailing :
    parse "f(ü) g" = .error (.trailing 6) ∧
      ∃ calls, runParse (fun name => modifyGet fun n : Nat => ((n, name), n + 1)) "f(ü) g" 0 =
        (.error (.trailing 6), calls) ∧ calls.arguments = ["f", "ü"] := by
  have refused : parse "f(ü) g" = .error (.trailing 6) := rfl
  obtain ⟨_, outcome, calls, run, _, _, _, same, _, _, read⟩ := tokens_called_in_order "f(ü) g"
    (fun name => modifyGet fun n : Nat => ((n, name), n + 1)) 0
  obtain rfl := (same _).2 refused
  refine ⟨refused, calls, run, (read _ rfl).trans ?_⟩
  decide +kernel

end Tree

end TreeRules
