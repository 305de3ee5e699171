import TreeRules.Text.Blank
import TreeRules.Tree.Basic
set_option autoImplicit false

/-!
# The grammar of tree texts

    tree := blank* token blank* [ '(' tree { ',' tree } ')' blank* ]

A token is a maximal run of token characters, so whether a part of a text is a token depends on the
characters around it. The grammar therefore speaks of a part with what stands before and after it.
-/

namespace TreeRules

open Text

def Blank (cs : List Char) : Prop := ∀ c ∈ cs, isBlank c = true

def withoutBlanks (cs : List Char) : List Char := cs.filter fun c => !isBlank c

/-- No token goes on at the start of the text. -/
def Stops (after : List Char) : Prop := ∀ c, after.head? = some c → isTokenChar c = false

/-- No token is in progress at the end of the text. -/
def Starts (before : List Char) : Prop := ∀ c, before.getLast? = some c → isTokenChar c = false

structure MaximalRun (before run after : List Char) : Prop where
  nonempty : run ≠ []
  token : ∀ c ∈ run, isTokenChar c = true
  starts : Starts before
  stops : Stops after

/-- `cs` between `before` and `after` is a token with blanks around it. -/
inductive Named : List Char → List Char → List Char → String → Prop
  | intro {before pre token post after : List Char} (blankPre : Blank pre)
      (run : MaximalRun (before ++ pre) token (post ++ after)) (blankPost : Blank post) :
      Named before (pre ++ token ++ post) after (.ofList token)

mutual
/-- `cs` between `before` and `after` is a tree. -/
inductive Derives : List Char → List Char → List Char → Tree String → Prop
  | leaf {before cs after : List Char} {name : String} (named : Named before cs after name) :
      Derives before cs after (.leaf name)
  | node {before head inner last after : List Char} {name : String} {ts : List (Tree String)}
      (named : Named before head ('(' :: inner ++ ')' :: last ++ after) name)
      (children : DerivesAll (before ++ head ++ ['(']) inner (')' :: last ++ after) ts)
      (blankLast : Blank last) :
      Derives before (head ++ '(' :: inner ++ ')' :: last) after (.node name ts)
inductive DerivesAll : List Char → List Char → List Char → List (Tree String) → Prop
  | one {before cs after : List Char} {t : Tree String} (tree : Derives before cs after t) :
      DerivesAll before cs after [t]
  | more {before cs ds after : List Char} {t : Tree String} {ts : List (Tree String)}
      (tree : Derives before cs (',' :: ds ++ after) t)
      (rest : DerivesAll (before ++ cs ++ [',']) ds after ts) :
      DerivesAll before (cs ++ ',' :: ds) after (t :: ts)
end

theorem ne_of_kind {kind : Char → Bool} {c d : Char} (hc : kind c = true) (hd : kind d = false) :
    c ≠ d := by
  rintro rfl
  simp [hc] at hd

theorem isBlank_token {c : Char} (h : isTokenChar c = true) : isBlank c = false := by
  simp only [isTokenChar, Bool.and_eq_true, Bool.not_eq_true'] at h
  exact h.1

theorem stops_nil : Stops [] := fun _ h => by simp at h

theorem stops_cons {c : Char} (h : isTokenChar c = false) (cs : List Char) : Stops (c :: cs) := by
  intro d hd
  rw [← Option.some.inj hd]
  exact h

theorem starts_nil : Starts [] := fun _ h => by simp at h

theorem starts_concat (cs : List Char) {c : Char} (h : isTokenChar c = false) :
    Starts (cs ++ [c]) := by
  intro d hd
  rw [List.getLast?_concat] at hd
  rw [← Option.some.inj hd]
  exact h

theorem blank_nil : Blank [] := fun _ h => absurd h List.not_mem_nil

theorem blank_concat {cs : List Char} {c : Char} (h : Blank cs) (hc : isBlank c = true) :
    Blank (cs ++ [c]) := by
  intro d hd
  rcases List.mem_append.1 hd with hd | hd
  · exact h d hd
  · rw [List.mem_singleton.1 hd]
    exact hc

theorem withoutBlanks_append (cs ds : List Char) :
    withoutBlanks (cs ++ ds) = withoutBlanks cs ++ withoutBlanks ds := List.filter_append cs ds

theorem withoutBlanks_cons {c : Char} (hc : isBlank c = false) (cs : List Char) :
    withoutBlanks (c :: cs) = c :: withoutBlanks cs := List.filter_cons_of_pos (by simp [hc])

theorem withoutBlanks_eq_nil {cs : List Char} : withoutBlanks cs = [] ↔ Blank cs := by
  simp [withoutBlanks, Blank]

theorem withoutBlanks_token {cs : List Char} (h : ∀ c ∈ cs, isTokenChar c = true) :
    withoutBlanks cs = cs := by
  exact List.filter_eq_self.2 fun c hc => by simp [isBlank_token (h c hc)]

theorem starts_append_blank {before cs : List Char} (h : Starts before) (hcs : Blank cs) :
    Starts (before ++ cs) := by
  intro d hd
  rw [List.getLast?_append] at hd
  cases hlast : cs.getLast? with
  | none =>
    rw [hlast] at hd
    exact h d hd
  | some c =>
    rw [hlast] at hd
    rw [← Option.some.inj hd]
    exact isTokenChar_blank (hcs c (List.mem_of_getLast? hlast))

theorem stops_blank_append {cs after : List Char} (hcs : Blank cs) (h : Stops after) :
    Stops (cs ++ after) := by
  cases cs with
  | nil => exact h
  | cons c cs => exact stops_cons (isTokenChar_blank (hcs c List.mem_cons_self)) _

theorem Named.blank_after {before cs after : List Char} {name : String} {c : Char}
    (h : Named before cs (c :: after) name) (hc : isBlank c = true) :
    Named before (cs ++ [c]) after name := by
  cases h with
  | intro blankPre run blankPost =>
    rename_i pre token post
    have same : post ++ c :: after = post ++ [c] ++ after := by simp
    rw [List.append_assoc]
    exact .intro blankPre (same ▸ run) (blank_concat blankPost hc)

theorem Derives.blank_after {before cs after : List Char} {t : Tree String} {c : Char}
    (h : Derives before cs (c :: after) t) (hc : isBlank c = true) :
    Derives before (cs ++ [c]) after t := by
  cases h with
  | leaf named => exact .leaf (named.blank_after hc)
  | node named children blankLast =>
    rename_i head inner last name ts
    have same : ')' :: last ++ c :: after = ')' :: (last ++ [c]) ++ after := by simp
    have whole : head ++ '(' :: inner ++ ')' :: last ++ [c] =
        head ++ '(' :: inner ++ ')' :: (last ++ [c]) := by simp
    rw [whole]
    refine .node ?_ (same ▸ children) (blank_concat blankLast hc)
    rwa [List.append_assoc, ← same, ← List.append_assoc]

end TreeRules
