import TreeRules.Tree.Basic
set_option autoImplicit false

namespace TreeRules
namespace Tree

variable {α : Type}

mutual
def preorderOnto : Tree α → List (α × Nat) → List (α × Nat)
  | node v ts, rest => (v, ts.length) :: preorderAllOnto ts rest
def preorderAllOnto : List (Tree α) → List (α × Nat) → List (α × Nat)
  | [], rest => rest
  | t :: ts, rest => preorderOnto t (preorderAllOnto ts rest)
end

def preorder (t : Tree α) : List (α × Nat) := preorderOnto t []

/-- Puts an entry of a listing in front of the trees that follow it: the first ones become its
children. -/
def gather (entry : α × Nat) (ts : List (Tree α)) : Option (List (Tree α)) :=
  if (ts.take entry.2).length = entry.2 then
    some (node entry.1 (ts.take entry.2) :: ts.drop entry.2)
  else none

def ofPreorderAll? (entries : List (α × Nat)) : Option (List (Tree α)) :=
  entries.foldr (fun entry ts? => ts?.bind (gather entry)) (some [])

def ofPreorder? (entries : List (α × Nat)) : Option (Tree α) :=
  match ofPreorderAll? entries with
  | some [t] => some t
  | _ => none

theorem ofPreorderAll?_cons (entry : α × Nat) (rest : List (α × Nat)) :
    ofPreorderAll? (entry :: rest) = (ofPreorderAll? rest).bind (gather entry) := rfl

theorem gather_append (v : α) (ts us : List (Tree α)) :
    gather (v, ts.length) (ts ++ us) = some (node v ts :: us) := by
  simp [gather]

mutual
theorem ofPreorderAll?_preorderOnto (t : Tree α) (rest : List (α × Nat)) (us : List (Tree α))
    (h : ofPreorderAll? rest = some us) :
    ofPreorderAll? (preorderOnto t rest) = some (t :: us) := by
  cases t with
  | node v ts =>
    rw [preorderOnto, ofPreorderAll?_cons, ofPreorderAll?_preorderAllOnto ts rest us h]
    exact gather_append v ts us
theorem ofPreorderAll?_preorderAllOnto (ts : List (Tree α)) (rest : List (α × Nat))
    (us : List (Tree α)) (h : ofPreorderAll? rest = some us) :
    ofPreorderAll? (preorderAllOnto ts rest) = some (ts ++ us) := by
  cases ts with
  | nil => exact h
  | cons t ts =>
    rw [preorderAllOnto, ofPreorderAll?_preorderOnto t _ (ts ++ us)]
    · rfl
    · exact ofPreorderAll?_preorderAllOnto ts rest us h
end

theorem ofPreorder?_preorder (t : Tree α) : ofPreorder? t.preorder = some t := by
  rw [ofPreorder?, preorder, ofPreorderAll?_preorderOnto t [] [] rfl]

theorem preorder_inj {t u : Tree α} : t.preorder = u.preorder ↔ t = u := by
  constructor
  · intro h
    have ht := ofPreorder?_preorder t
    rw [h, ofPreorder?_preorder u] at ht
    exact (Option.some.inj ht).symm
  · rintro rfl; rfl

instance [Hashable α] : Hashable (Tree α) := ⟨fun t => hash t.preorder⟩

end Tree
end TreeRules
