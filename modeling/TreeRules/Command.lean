import TreeRules.Command.Basic
set_option autoImplicit false

namespace TreeRules

structure Arguments where
  positional : List String
  anywhere : Bool

namespace Arguments

def isOption (arg : String) : Bool :=
  match arg.toList with
  | '-' :: _ :: _ => true
  | _ => false

/-- Sorts arguments; `flag` is the option that may come at most once, if there is one. -/
def ofList? (flag : Option String) : List String → Option Arguments
  | [] => some ⟨[], false⟩
  | arg :: args =>
    if arg = "--" then some ⟨args, false⟩
    else if isOption arg then
      if some arg = flag then (ofList? none args).map fun a => { a with anywhere := true } else none
    else (ofList? flag args).map fun a => { a with positional := arg :: a.positional }

variable {flag : Option String} {before after args : List String} {a : Arguments}

theorem ofList?_option {arg : String} (other : "--" ≠ arg) (option : isOption arg = true) :
    ofList? flag (arg :: args) =
      if some arg = flag then (ofList? none args).map fun a => { a with anywhere := true }
      else none := by
  rw [ofList?, if_neg other.symm, if_pos option]

theorem ofList?_positional {arg : String} (other : "--" ≠ arg) (plain : ¬ isOption arg = true) :
    ofList? flag (arg :: args) =
      (ofList? flag args).map fun a => { a with positional := arg :: a.positional } := by
  rw [ofList?, if_neg other.symm, if_neg plain]

theorem ofList?_dashes (h : "--" ∉ before) : ofList? flag (before ++ "--" :: after) =
    (ofList? flag before).map fun a => { a with positional := a.positional ++ after } := by
  induction before generalizing flag with
  | nil => rfl
  | cons arg before ih =>
    obtain ⟨other, later⟩ := not_or.1 (mt List.mem_cons.2 h)
    rw [List.cons_append]
    by_cases option : isOption arg = true
    · rw [ofList?_option other option, ofList?_option other option, ih later]
      by_cases here : some arg = flag
      · simp [here, Function.comp_def]
      · simp [here]
    · rw [ofList?_positional other option, ofList?_positional other option, ih later]
      simp [Function.comp_def]

theorem map_some_eq_ite {options : List String} {anywhere : Bool} :
    options.map some = (if anywhere then [none] else []) ↔ options = [] ∧ anywhere = false := by
  cases anywhere <;> cases options <;> simp

/-- Options and positional arguments may come in any order, and no option comes twice. -/
theorem ofList?_eq_some (h : "--" ∉ args) : ofList? flag args = some a ↔
    a.positional = args.filter (fun arg => !isOption arg) ∧
      (args.filter isOption).map some = if a.anywhere then [flag] else [] := by
  induction args generalizing flag a with
  | nil =>
    obtain ⟨positional, anywhere⟩ := a
    cases anywhere <;> simp [ofList?, eq_comm]
  | cons arg args ih =>
    obtain ⟨other, later⟩ := not_or.1 (mt List.mem_cons.2 h)
    by_cases option : isOption arg = true
    · rw [ofList?_option other option, List.filter_cons_of_neg (by simpa using option),
        List.filter_cons_of_pos option, List.map_cons]
      -- the option has to be `flag`, and none may come after it
      by_cases here : some arg = flag
      · rw [if_pos here, Option.map_eq_some_iff, here]
        constructor
        · rintro ⟨rest, found, rfl⟩
          obtain ⟨positional, options⟩ := (ih later).1 found
          rw [(map_some_eq_ite.1 options).1]
          exact ⟨positional, rfl⟩
        · rintro ⟨positional, options⟩
          cases any : a.anywhere with
          | false => simp [any] at options
          | true =>
            have none : args.filter isOption = [] := by simpa [any] using options
            refine ⟨⟨a.positional, false⟩, (ih later).2 ⟨positional, ?_⟩, ?_⟩
            · exact map_some_eq_ite.2 ⟨none, rfl⟩
            · rw [← any]
      · rw [if_neg here]
        cases a.anywhere <;> simp [here]
    · rw [ofList?_positional other option, List.filter_cons_of_pos (by simpa using option),
        List.filter_cons_of_neg option, Option.map_eq_some_iff]
      constructor
      · rintro ⟨rest, found, rfl⟩
        obtain ⟨positional, options⟩ := (ih later).1 found
        exact ⟨congrArg _ positional, options⟩
      · rintro ⟨positional, options⟩
        refine ⟨⟨args.filter fun arg => !isOption arg, a.anywhere⟩, (ih later).2 ⟨rfl, options⟩, ?_⟩
        rw [← positional]

end Arguments

namespace Command

def usage : String :=
  "usage: [-v|--verbose] match PATTERN TREE... | [-v|--verbose] rewrite [--anywhere] RULE TREE..."

def ofSubcommand? : List String → Option Command
  | "match" :: args =>
    match Arguments.ofList? none args with
    | some ⟨pattern :: tree :: trees, _⟩ => some (matching pattern (tree :: trees))
    | _ => none
  | "rewrite" :: args =>
    match Arguments.ofList? (some "--anywhere") args with
    | some ⟨rule :: tree :: trees, anywhere⟩ => some (applying rule (tree :: trees) anywhere)
    | _ => none
  | _ => none

def ofArgs? : List String → Option Command
  | "-v" :: args => ofSubcommand? args
  | "--verbose" :: args => ofSubcommand? args
  | args => ofSubcommand? args

def trees : Command → List String
  | matching _ trees => trees
  | applying _ trees _ => trees

def args : Command → List String
  | matching pattern trees => "match" :: "--" :: pattern :: trees
  | applying rule trees false => "rewrite" :: "--" :: rule :: trees
  | applying rule trees true => "rewrite" :: "--anywhere" :: "--" :: rule :: trees

theorem ofArgs?_args {c : Command} (h : c.trees ≠ []) : ofArgs? c.args = some c := by
  have dashed (flag : Option String) (texts : List String) :
      Arguments.ofList? flag ("--" :: texts) = some ⟨texts, false⟩ := by
    rw [Arguments.ofList?, if_pos rfl]
  cases c with
  | matching pattern trees =>
    obtain ⟨tree, trees, rfl⟩ := List.exists_cons_of_ne_nil h
    simp [ofArgs?, args, ofSubcommand?, dashed]
  | applying rule trees anywhere =>
    obtain ⟨tree, trees, rfl⟩ := List.exists_cons_of_ne_nil h
    cases anywhere with
    | false => simp [ofArgs?, args, ofSubcommand?, dashed]
    | true =>
      have option : Arguments.isOption "--anywhere" = true := rfl
      simp [ofArgs?, args, ofSubcommand?, Arguments.ofList?, option]

theorem trees_of_ofArgs? {args : List String} {c : Command} (h : ofArgs? args = some c) :
    c.trees ≠ [] := by
  have asked (args : List String) (h : ofSubcommand? args = some c) : c.trees ≠ [] := by
    unfold ofSubcommand? at h
    split at h
    · split at h
      · obtain rfl := Option.some.inj h
        exact List.cons_ne_nil _ _
      · simp at h
    · split at h
      · obtain rfl := Option.some.inj h
        exact List.cons_ne_nil _ _
      · simp at h
    · simp at h
  unfold ofArgs? at h
  split at h
  · exact asked _ h
  · exact asked _ h
  · exact asked _ h

end Command
end TreeRules
