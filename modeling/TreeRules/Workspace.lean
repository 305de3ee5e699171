import TreeRules.Rule.Reading
import TreeRules.Rule.Application
set_option autoImplicit false

namespace TreeRules

inductive Register
  | tree
  | pattern
  | rule
deriving DecidableEq

def Register.name : Register → String
  | .tree => "tree"
  | .pattern => "pattern"
  | .rule => "rule"

inductive Fault
  | undefined (register : Register) (name : String)
  | tree (error : ParseError)
  | pattern (error : PatternError)
  | rule (error : RuleError)
  | unbound (error : Unbound)
deriving DecidableEq

def Fault.message : Fault → String
  | .undefined register name => register.name ++ " " ++ name
  | .tree e => e.message
  | .pattern e => e.message
  | .rule e => e.message
  | .unbound e => e.message

structure Workspace where
  trees : Bindings (Tree String)
  patterns : Bindings Pattern
  rules : Bindings Rule

namespace Workspace

def empty : Workspace := ⟨.empty, .empty, .empty⟩

def tree (w : Workspace) (name : String) : Except Fault (Tree String) :=
  match w.trees.find? name with
  | some t => .ok t
  | none => .error (.undefined .tree name)

def pattern (w : Workspace) (name : String) : Except Fault Pattern :=
  match w.patterns.find? name with
  | some p => .ok p
  | none => .error (.undefined .pattern name)

def rule (w : Workspace) (name : String) : Except Fault Rule :=
  match w.rules.find? name with
  | some r => .ok r
  | none => .error (.undefined .rule name)

def storeTree (w : Workspace) (name : String) (t : Tree String) : Workspace :=
  { w with trees := w.trees.insert name t }

def storePattern (w : Workspace) (name : String) (p : Pattern) : Workspace :=
  { w with patterns := w.patterns.insert name p }

def storeRule (w : Workspace) (name : String) (r : Rule) : Workspace :=
  { w with rules := w.rules.insert name r }

def storeTrees (w : Workspace) (entries : List (String × Tree String)) : Workspace :=
  entries.foldl (fun w e => w.storeTree e.1 e.2) w

inductive Source
  | text (text : String)
  | tree (t : Tree String)

def Source.read : Source → Except ParseError (Tree String)
  | .text s => Tree.parse s
  | .tree t => .ok t

/-- A step; `dest` is the register that it writes. -/
inductive Step
  | readTree (dest : String) (source : Source)
  | readPattern (dest text : String)
  | readRule (dest text : String)
  | makeRule (dest pattern template : String)
  | copy (source dest : String)
  | child (source : String) (index : Nat) (dest : String)
  | push (dest child : String)
  | setValue (dest value : String)
  /-- Moves the children of the root into registers of their own. -/
  | take (source : String)
  /-- Stores each tree that a variable stands for under the name of the variable. -/
  | capture (pattern tree : String)
  /-- Uses all trees of the workspace as bindings. -/
  | instantiate (pattern dest : String)
  | apply (rule tree : String) (anywhere : Bool)
  /-- Up to `limit` times, applies the first of the rules that applies anywhere in the tree. -/
  | normalize (tree : String) (rules : List String) (limit : Nat)
  | compare (left right : String)
  | list

inductive Answer
  | stored (t : Tree String)
  | pattern (p : Pattern)
  | rule (r : Rule)
  | nothing
  | taken (value : String) (children : List (Tree String))
  | captured (entries : List (String × Tree String))
  | normalized (t : Tree String) (trace : List (String × Tree String))
  | verdict (equal : Bool)
  | trees (entries : List (String × Tree String))

def reduceOnce (w : Workspace) (t : Tree String) :
    List String → Except Fault (Option (String × Tree String))
  | [] => .ok none
  | name :: names =>
    match w.rule name with
    | .error e => .error e
    | .ok r =>
      match r.applyFirst t with
      | some new => .ok (some (name, new))
      | none => w.reduceOnce t names

/-- The last tree, and the rules applied with the trees that they made. -/
def normalize (w : Workspace) (names : List String) :
    Nat → Tree String → Except Fault (Tree String × List (String × Tree String))
  | 0, t => .ok (t, [])
  | limit + 1, t =>
    match w.reduceOnce t names with
    | .error e => .error e
    | .ok none => .ok (t, [])
    | .ok (some made) =>
      match w.normalize names limit made.2 with
      | .error e => .error e
      | .ok (last, trace) => .ok (last, made :: trace)

def childEntries (name : String) (ts : List (Tree String)) : List (String × Tree String) :=
  ts.zipIdx.map fun p => (name ++ "." ++ toString p.2, p.1)

def stored (w : Workspace) (dest : String) (t : Tree String) : Answer × Workspace :=
  (.stored t, w.storeTree dest t)

def step (w : Workspace) : Step → Except Fault (Answer × Workspace)
  | .readTree dest source => do
    let t ← source.read.mapError .tree
    pure (w.stored dest t)
  | .readPattern dest text => do
    let p ← (Pattern.parse text).mapError .pattern
    pure (.pattern p, w.storePattern dest p)
  | .readRule dest text => do
    let r ← (Rule.parse text).mapError .rule
    pure (.rule r, w.storeRule dest r)
  | .makeRule dest pattern template => do
    let p ← w.pattern pattern
    let q ← w.pattern template
    let r ← (Rule.ofPatterns p q).mapError .rule
    pure (.rule r, w.storeRule dest r)
  | .copy source dest => do
    let t ← w.tree source
    pure (w.stored dest t)
  | .child source index dest => do
    let t ← w.tree source
    match t.child? index with
    | some c => pure (w.stored dest c)
    | none => pure (.nothing, w)
  | .push dest child => do
    let c ← w.tree child
    let t ← w.tree dest
    pure (w.stored dest (t.push c))
  | .setValue dest value => do
    let t ← w.tree dest
    pure (w.stored dest (t.withValue value))
  | .take source => do
    let t ← w.tree source
    let rest := { w with trees := w.trees.erase source }
    pure (.taken t.value t.children, rest.storeTrees (childEntries source t.children))
  | .capture pattern tree => do
    let p ← w.pattern pattern
    let t ← w.tree tree
    match p.capture? t with
    | none => pure (.nothing, w)
    | some b => pure (.captured (p.captured b), w.storeTrees (p.captured b))
  | .instantiate pattern dest => do
    let p ← w.pattern pattern
    let t ← (p.instantiate id w.trees).mapError .unbound
    pure (w.stored dest t)
  | .apply rule tree anywhere => do
    let r ← w.rule rule
    let t ← w.tree tree
    match if anywhere then r.applyFirst t else r.apply t with
    | some new => pure (w.stored tree new)
    | none => pure (.nothing, w)
  | .normalize tree rules limit => do
    let t ← w.tree tree
    let (last, trace) ← w.normalize rules limit t
    pure (.normalized last trace, w.storeTree tree last)
  | .compare left right => do
    let t ← w.tree left
    let u ← w.tree right
    pure (.verdict (t.agrees u), w)
  | .list => pure (.trees w.trees.entries, w)

def run (w : Workspace) : List Step → List (Except Fault Answer)
  | [] => []
  | s :: ss =>
    match w.step s with
    | .ok (answer, next) => .ok answer :: run next ss
    | .error e => .error e :: run w ss

end Workspace
end TreeRules
