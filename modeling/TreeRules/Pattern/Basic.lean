import TreeRules.Pattern.Symbol
import TreeRules.Tree.Preorder
import TreeRules.Tree.Printer
set_option autoImplicit false

namespace TreeRules

inductive Pattern where
  | var (name : String)
  | node (text : String) (children : List Pattern)

namespace Pattern

instance : Inhabited Pattern := ⟨node "" []⟩

@[elab_as_elim]
theorem induction {motive : Pattern → Prop} (var : ∀ name, motive (.var name))
    (node : ∀ text ps, (∀ p ∈ ps, motive p) → motive (.node text ps)) (p : Pattern) : motive p :=
  Pattern.rec (motive_1 := motive) (motive_2 := fun ps => ∀ p ∈ ps, motive p)
    var (fun text ps ih => node text ps ih) (fun _ h => nomatch h)
    (fun p ps ih ihs q hq => by
      rcases List.mem_cons.1 hq with rfl | hq
      · exact ih
      · exact ihs q hq) p

mutual
def symbols : Pattern → Tree Symbol
  | var name => .leaf (.var name)
  | node text ps => .node (.literal text) (symbolsAll ps)
def symbolsAll : List Pattern → List (Tree Symbol)
  | [] => []
  | p :: ps => symbols p :: symbolsAll ps
end

theorem symbolsAll_eq_map (ps : List Pattern) : symbolsAll ps = ps.map symbols := by
  induction ps with
  | nil => rfl
  | cons p ps ih => rw [symbolsAll, ih, List.map_cons]

@[simp] theorem symbols_var (name : String) : (var name).symbols = .leaf (.var name) := rfl

@[simp] theorem symbols_node (text : String) (ps : List Pattern) :
    (node text ps).symbols = .node (.literal text) (ps.map symbols) := by
  rw [symbols, symbolsAll_eq_map]

mutual
theorem eq_of_symbols {p q : Pattern} (h : p.symbols = q.symbols) : p = q := by
  cases p <;> cases q <;>
    simp only [symbols, Tree.leaf, Tree.node.injEq, Symbol.var.injEq, Symbol.literal.injEq,
      reduceCtorEq, false_and, and_true] at h
  · rw [h]
  · rw [h.1, eq_of_symbolsAll h.2]
theorem eq_of_symbolsAll {ps qs : List Pattern} (h : symbolsAll ps = symbolsAll qs) : ps = qs := by
  cases ps with
  | nil => cases qs with
    | nil => rfl
    | cons q qs => simp [symbolsAll] at h
  | cons p ps => cases qs with
    | nil => simp [symbolsAll] at h
    | cons q qs =>
      simp only [symbolsAll, List.cons.injEq] at h
      rw [eq_of_symbols h.1, eq_of_symbolsAll h.2]
end

theorem symbols_inj {p q : Pattern} : p.symbols = q.symbols ↔ p = q :=
  ⟨eq_of_symbols, fun h => h ▸ rfl⟩

instance : DecidableEq Pattern := fun p q => decidable_of_iff (p.symbols = q.symbols) symbols_inj

instance : Hashable Pattern := ⟨fun p => hash p.symbols⟩

def render (p : Pattern) : String := p.symbols.render

instance : ToString Pattern := ⟨render⟩

mutual
def names : Pattern → List String
  | var name => [name]
  | node _ ps => namesAll ps
def namesAll : List Pattern → List String
  | [] => []
  | p :: ps => names p ++ namesAll ps
end

theorem namesAll_eq_flatMap (ps : List Pattern) : namesAll ps = ps.flatMap names := by
  induction ps with
  | nil => rfl
  | cons p ps ih => rw [namesAll, ih, List.flatMap_cons]

mutual
def literals : Pattern → List String
  | var _ => []
  | node text ps => text :: literalsAll ps
def literalsAll : List Pattern → List String
  | [] => []
  | p :: ps => literals p ++ literalsAll ps
end

theorem literalsAll_eq_flatMap (ps : List Pattern) : literalsAll ps = ps.flatMap literals := by
  induction ps with
  | nil => rfl
  | cons p ps ih => rw [literalsAll, ih, List.flatMap_cons]

/-- The distinct variable names in the order of their first occurrences. -/
def vars (p : Pattern) : List String := p.names.eraseDups

end Pattern
end TreeRules
