import TreeRules.Tree.Basic
set_option autoImplicit false

namespace TreeRules
namespace Tree

variable {α : Type}

mutual
def writeOnto (text : α → String) : Tree α → List Char → List Char
  | node v ts, rest => (text v).toList ++ writeChildrenOnto text ts rest
def writeChildrenOnto (text : α → String) : List (Tree α) → List Char → List Char
  | [], rest => rest
  | t :: ts, rest => '(' :: writeOnto text t (writeSiblingsOnto text ts rest)
/-- The siblings after the first child, up to the closing parenthesis. -/
def writeSiblingsOnto (text : α → String) : List (Tree α) → List Char → List Char
  | [], rest => ')' :: rest
  | t :: ts, rest => ',' :: writeOnto text t (writeSiblingsOnto text ts rest)
end

def write (text : α → String) (t : Tree α) : List Char := writeOnto text t []

def render [ToString α] (t : Tree α) : String := String.ofList (t.write toString)

mutual
theorem writeOnto_eq (text : α → String) (t : Tree α) (rest : List Char) :
    writeOnto text t rest = write text t ++ rest := by
  cases t with
  | node v ts =>
    simp only [write, writeOnto, List.append_assoc, List.append_cancel_left_eq]
    rw [writeChildrenOnto_eq text ts rest]
theorem writeChildrenOnto_eq (text : α → String) (ts : List (Tree α)) (rest : List Char) :
    writeChildrenOnto text ts rest = writeChildrenOnto text ts [] ++ rest := by
  cases ts with
  | nil => rfl
  | cons t ts =>
    simp only [writeChildrenOnto, List.cons_append]
    rw [writeOnto_eq text t (writeSiblingsOnto text ts []), List.append_assoc,
      ← writeSiblingsOnto_eq text ts rest, ← writeOnto_eq text t]
theorem writeSiblingsOnto_eq (text : α → String) (ts : List (Tree α)) (rest : List Char) :
    writeSiblingsOnto text ts rest = writeSiblingsOnto text ts [] ++ rest := by
  cases ts with
  | nil => rfl
  | cons t ts =>
    simp only [writeSiblingsOnto, List.cons_append]
    rw [writeOnto_eq text t (writeSiblingsOnto text ts []), List.append_assoc,
      ← writeSiblingsOnto_eq text ts rest, ← writeOnto_eq text t]
end

theorem write_leaf (text : α → String) (v : α) : (leaf v).write text = (text v).toList := by
  simp [write, leaf, writeOnto, writeChildrenOnto]

theorem write_node_cons (text : α → String) (v : α) (t : Tree α) (ts : List (Tree α)) :
    (node v (t :: ts)).write text =
      (text v).toList ++ '(' :: (t.write text ++ writeSiblingsOnto text ts []) := by
  simp only [write, writeOnto, writeChildrenOnto]
  rw [writeOnto_eq]
  rfl

end Tree
end TreeRules
