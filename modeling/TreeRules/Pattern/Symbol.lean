set_option autoImplicit false

namespace TreeRules

inductive Symbol
  | literal (text : String)
  | var (name : String)
deriving DecidableEq, Hashable

namespace Symbol

/-- Only the outermost brackets belong to the notation, so a name may hold brackets itself. -/
def ofToken (token : String) : Symbol :=
  match token.toList with
  | '<' :: cs =>
    match cs.reverse with
    | '>' :: c :: rev => var (String.ofList (c :: rev).reverse)
    | _ => literal token
  | _ => literal token

def text : Symbol → String
  | literal text => text
  | var name => name

def isVar : Symbol → Bool
  | literal _ => false
  | var _ => true

def render : Symbol → String
  | literal text => text
  | var name => "<" ++ name ++ ">"

instance : ToString Symbol := ⟨render⟩

theorem ofToken_render_var {name : String} (h : name ≠ "") :
    ofToken (var name).render = var name := by
  have chars : (var name).render.toList = '<' :: (name.toList ++ ['>']) := by
    simp [render, String.toList_append]
  have nonempty : name.toList.reverse ≠ [] := by simp [h]
  obtain ⟨c, rev, hc⟩ := List.exists_cons_of_ne_nil nonempty
  have back : String.ofList (c :: rev).reverse = name := by
    rw [← hc, List.reverse_reverse, String.ofList_toList]
  simp only [ofToken, chars, List.reverse_append, List.reverse_cons, List.reverse_nil,
    List.nil_append, List.singleton_append, hc]
  rw [← List.reverse_cons, back]

end Symbol
end TreeRules
