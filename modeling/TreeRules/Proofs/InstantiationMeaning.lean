import TreeRules.Proofs.Observation
set_option autoImplicit false

namespace TreeRules

namespace Pattern

variable {α σ : Type}

theorem first_unbound {p : Pattern} {b : Bindings (Tree α)}
    (h : ∃ name ∈ p.vars, b.find? name = none) :
    ∃ before name after, p.symbols.values = before ++ .var name :: after ∧
      (∀ other, .var other ∈ before → (b.find? other).isSome = true) ∧ b.find? name = none := by
  obtain ⟨name, hn, unbound⟩ := h
  have occurs : .var name ∈ p.symbols.values := mem_names.1 (mem_vars.1 hn)
  let missed (s : Symbol) : Bool := s.name?.any fun name => (b.find? name).isNone
  have found : (p.symbols.values.find? missed).isSome = true := by
    rw [List.find?_isSome]
    exact ⟨_, occurs, by simp [missed, Symbol.name?, unbound]⟩
  obtain ⟨s, hs⟩ := Option.isSome_iff_exists.1 found
  obtain ⟨hit, before, after, split, earlier⟩ := List.find?_eq_some_iff_append.1 hs
  cases s with
  | literal text => simp [missed, Symbol.name?] at hit
  | var first =>
    refine ⟨before, first, after, split, fun other ho => ?_, ?_⟩
    · simpa [missed, Symbol.name?, ← Option.isSome_iff_ne_none] using earlier _ ho
    · simpa [missed, Symbol.name?] using hit

def runInstantiate (p : Pattern) (mapper : String → StateM σ α) (b : Bindings (Tree α)) (s : σ) :
    Except Unbound (Tree α) × Calls (Call α) σ :=
  (p.instantiateM (noteMapper mapper) b).run (.start s)

theorem runInstantiate_bound {p : Pattern} {b : Bindings (Tree α)} (h : Bound b p)
    (mapper : String → StateM σ α) (s : σ) :
    ∃ vs s' u, (p.literals.mapM mapper).run s = (vs, s') ∧
      (p.instantiateM mapper b).run s = (.ok u, s') ∧
      p.runInstantiate mapper b s = (.ok u, ⟨p.literals.map .mapped, s'⟩) ∧
      p.Instance b vs u := by
  obtain ⟨vs, s', u, values, made, inst⟩ := run_instantiateM_bound mapper h s
  obtain ⟨u', s'', made', noted⟩ := instantiateM_noted mapper h [] s
  obtain ⟨same, rfl⟩ := Prod.mk.inj (made.symm.trans made')
  obtain rfl := Except.ok.inj same
  exact ⟨vs, s', u, values, made, noted, inst⟩

theorem runInstantiate_unbound {p : Pattern} {b : Bindings (Tree α)} {before after : List Symbol}
    {name : String} (split : p.symbols.values = before ++ .var name :: after)
    (h : ∀ other, .var other ∈ before → (b.find? other).isSome = true)
    (unbound : b.find? name = none) (mapper : String → StateM σ α) (s : σ) :
    ∃ s', (p.instantiateM mapper b).run s = (.error ⟨name⟩, s') ∧
      p.runInstantiate mapper b s =
        (.error ⟨name⟩, ⟨(before.filterMap Symbol.literal?).map .mapped, s'⟩) := by
  refine ⟨_, run_instantiateM_unbound mapper split h unbound s, ?_⟩
  rw [runInstantiate, run_instantiateM_unbound (noteMapper mapper) split h unbound, noteMapper,
    Calls.start, run_mapM_noted_arguments]
  rfl

/-- A template under bindings for all of its variables makes the one tree that has the bound trees
at the variables and the answers of the mapper, asked for each literal in pre-order, at the literals.
Otherwise the first unbound variable in pre-order is reported, after the calls for the literals
before it. -/
theorem instantiation_traced (p : Pattern) (b : Bindings (Tree α)) (mapper : String → StateM σ α)
    (s : σ) :
    (∀ (entries : List (String × Tree α)) (name : String) (t : Tree α),
      (Bindings.ofList entries).find? name = some t ↔
        ∃ before after, entries = before ++ (name, t) :: after ∧ ∀ e ∈ after, e.1 ≠ name) ∧
    ((∀ name ∈ p.vars, (b.find? name).isSome = true) →
      ∃ vs s' u, (p.literals.mapM mapper).run s = (vs, s') ∧
        (p.instantiateM mapper b).run s = (.ok u, s') ∧
        p.runInstantiate mapper b s = (.ok u, ⟨p.literals.map .mapped, s'⟩) ∧
        p.Instance b vs u ∧ ∀ u', p.Instance b vs u' → u' = u) ∧
    ((∃ name ∈ p.vars, b.find? name = none) →
      ∃ before name after s', p.symbols.values = before ++ .var name :: after ∧
        (∀ other, .var other ∈ before → (b.find? other).isSome = true) ∧ b.find? name = none ∧
        (p.instantiateM mapper b).run s = (.error ⟨name⟩, s') ∧
        p.runInstantiate mapper b s =
          (.error ⟨name⟩, ⟨(before.filterMap Symbol.literal?).map .mapped, s'⟩)) ∧
    ∀ c : Bindings (Tree α), (∀ name ∈ p.vars, c.find? name = b.find? name) →
      (p.instantiateM mapper c).run s = (p.instantiateM mapper b).run s ∧
        p.runInstantiate mapper c s = p.runInstantiate mapper b s := by
  refine ⟨fun entries name t => Bindings.find?_ofList, fun bound => ?_, fun unbound => ?_,
    fun c same => ?_⟩
  · obtain ⟨vs, s', u, values, made, noted, inst⟩ :=
      runInstantiate_bound (fun name hn => bound name (mem_vars.2 hn)) mapper s
    exact ⟨vs, s', u, values, made, noted, inst, fun u' inst' => inst'.unique inst⟩
  · obtain ⟨before, name, after, split, earlier, missing⟩ := first_unbound unbound
    obtain ⟨s', made, noted⟩ := runInstantiate_unbound split earlier missing mapper s
    exact ⟨before, name, after, s', split, earlier, missing, made, noted⟩
  · have names : ∀ name ∈ p.names, c.find? name = b.find? name :=
      fun name hn => same name (mem_vars.2 hn)
    rw [runInstantiate, runInstantiate, instantiateM_congr mapper names,
      instantiateM_congr (noteMapper mapper) names]
    exact ⟨rfl, rfl⟩

end Pattern
end TreeRules
