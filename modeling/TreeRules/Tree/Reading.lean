import TreeRules.Text.Blank
import TreeRules.Text.Quoted
import TreeRules.Tree.Basic
set_option autoImplicit false

/-!
# Reading parenthesis notation

A text is read character by character. A `Reading` holds the parentheses that are open, the
outermost last, and the node that the next character may continue. `step` refuses the first
character after which no tree can follow, so each error stands at the first hopeless position.
Offsets count bytes of the UTF-8 form.
-/

namespace TreeRules

open Text

inductive ParseError
  | empty
  /-- A node should start here. -/
  | emptyToken (offset : Nat)
  /-- This parenthesis is open at the end of the text. -/
  | unclosed (offset : Nat)
  | unopened (offset : Nat)
  /-- The tree ended before this character. -/
  | trailing (offset : Nat)
  /-- A child ended before this character, which is neither a comma nor a closing parenthesis. -/
  | unexpected (offset : Nat) (found : Char)
deriving DecidableEq

def ParseError.message : ParseError → String
  | .empty => "the tree is empty"
  | .emptyToken n => "expected a token at " ++ toString n
  | .unclosed n => "parenthesis opened at " ++ toString n ++ " is never closed"
  | .unopened n => "unmatched closing parenthesis at " ++ toString n
  | .trailing n => "unexpected input after the tree at " ++ toString n
  | .unexpected n c => "expected ',' or ')' at " ++ toString n ++ ", found " ++ quoteChar c

/-- The node that the next character may continue. -/
inductive Focus
  | awaiting
  | token (rev : List Char)
  /-- A blank has ended the token, and no parenthesis has opened yet. -/
  | named (name : String)
  | closed (tree : Tree String)

namespace Focus

def name? : Focus → Option String
  | token rev => some (String.ofList rev.reverse)
  | named name => some name
  | _ => none

def tree? : Focus → Option (Tree String)
  | awaiting => none
  | token rev => some (Tree.leaf (String.ofList rev.reverse))
  | named name => some (Tree.leaf name)
  | closed t => some t

def endToken : Focus → Focus
  | token rev => named (String.ofList rev.reverse)
  | focus => focus

end Focus

/-- An open parenthesis: where it stands, the node before it, and the children after it that are
finished, the latest first. -/
structure Frame where
  offset : Nat
  name : String
  done : List (Tree String)

namespace Frame

def push (f : Frame) (t : Tree String) : Frame := { f with done := t :: f.done }

def close (f : Frame) : Tree String := .node f.name f.done.reverse

def tokens (f : Frame) : List String := f.name :: f.done.reverse.flatMap Tree.values

end Frame

structure Reading where
  offset : Nat
  frames : List Frame
  focus : Focus

namespace Reading

def start : Reading := ⟨0, [], .awaiting⟩

/-- The tokens read so far, one that the next character may prolong included. -/
def tokens (r : Reading) : List String :=
  r.frames.reverse.flatMap Frame.tokens ++ (r.focus.tree?.map Tree.values).getD []

def misplaced (r : Reading) (c : Char) : ParseError :=
  if r.frames.isEmpty then .trailing r.offset else .unexpected r.offset c

def extend (r : Reading) (c : Char) : Except ParseError Focus :=
  match r.focus with
  | .awaiting => .ok (.token [c])
  | .token rev => .ok (.token (c :: rev))
  | _ => .error (r.misplaced c)

def opening (r : Reading) : Except ParseError (List Frame) :=
  match r.focus.name?, r.focus.tree? with
  | some name, _ => .ok (⟨r.offset, name, []⟩ :: r.frames)
  | none, some _ => .error (r.misplaced '(')
  | none, none => .error (.emptyToken r.offset)

def separating (r : Reading) : Except ParseError (List Frame) :=
  match r.focus.tree?, r.frames with
  | none, _ => .error (.emptyToken r.offset)
  | some _, [] => .error (.trailing r.offset)
  | some t, f :: fs => .ok (f.push t :: fs)

def closing (r : Reading) : Except ParseError (Tree String × List Frame) :=
  match r.focus.tree?, r.frames with
  | none, _ => .error (.emptyToken r.offset)
  | some _, [] => .error (.unopened r.offset)
  | some t, f :: fs => .ok ((f.push t).close, fs)

def step (r : Reading) (c : Char) : Except ParseError Reading :=
  let offset := r.offset + c.utf8Size
  if isBlank c then .ok ⟨offset, r.frames, r.focus.endToken⟩
  else if c = '(' then r.opening.map fun frames => ⟨offset, frames, .awaiting⟩
  else if c = ',' then r.separating.map fun frames => ⟨offset, frames, .awaiting⟩
  else if c = ')' then r.closing.map fun p => ⟨offset, p.2, .closed p.1⟩
  else (r.extend c).map fun focus => ⟨offset, r.frames, focus⟩

def finish (r : Reading) : Except ParseError (Tree String) :=
  match r.focus.tree?, r.frames with
  | none, [] => .error .empty
  | none, _ :: _ => .error (.emptyToken r.offset)
  | some t, [] => .ok t
  | some _, f :: _ => .error (.unclosed f.offset)

/-- Why a text is no tree, and the tokens read before that was seen. -/
structure Refusal where
  error : ParseError
  tokens : List String

def run (r : Reading) : List Char → Except Refusal (Tree String)
  | [] => r.finish.mapError fun e => ⟨e, r.tokens⟩
  | c :: cs =>
    match r.step c with
    | .ok next => run next cs
    | .error e => .error ⟨e, r.tokens⟩

end Reading

namespace Tree

def read (text : String) : Except Reading.Refusal (Tree String) := Reading.start.run text.toList

def parse (text : String) : Except ParseError (Tree String) :=
  (read text).mapError Reading.Refusal.error

/-- Reads a tree and runs `token` on the tokens from left to right, on a refused text on those
before the refusal. -/
@[specialize]
def parseM {α : Type} {m : Type → Type} [Monad m] (token : String → m α) (text : String) :
    m (Except ParseError (Tree α)) :=
  match read text with
  | .ok t => do
    let u ← t.mapM token
    pure (.ok u)
  | .error refusal => do
    refusal.tokens.forM fun name => do
      let _ ← token name
    pure (.error refusal.error)

end Tree

end TreeRules
