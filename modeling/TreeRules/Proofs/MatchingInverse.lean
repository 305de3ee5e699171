import TreeRules.Label
import TreeRules.Proofs.Agreement
import TreeRules.Proofs.Instantiating
import TreeRules.Proofs.MatchingMeaning
set_option autoImplicit false

namespace TreeRules

def Bindings.Extends {β : Type} (c b : Bindings β) : Prop :=
  ∀ name x, b.find? name = some x → c.find? name = some x

theorem Bindings.Extends.trans {β : Type} {b c d : Bindings β} (h : d.Extends c)
    (h' : c.Extends b) : d.Extends b := fun name x hx => h name x (h' name x hx)

namespace Pattern

variable {α : Type} [BEq α] (test : α → String → Bool) (mapper : String → α)

def extend? (p : Pattern) (t : Tree α) (b : Bindings (Tree α)) : Option (Bindings (Tree α)) :=
  Id.run (extendM (fun v text => pure (test v text)) p t b)

def extendAll? (ps : List Pattern) (ts : List (Tree α)) (b : Bindings (Tree α)) :
    Option (Bindings (Tree α)) :=
  Id.run (extendAllM (fun v text => pure (test v text)) ps ts b)

theorem extend?_var (name : String) (t : Tree α) (b : Bindings (Tree α)) :
    extend? test (var name) t b = b.admit? name t := by
  cases t; rfl

theorem extend?_node (text : String) (ps : List Pattern) (v : α) (ts : List (Tree α))
    (b : Bindings (Tree α)) :
    extend? test (node text ps) (.node v ts) b =
      if test v text = true then
        if ts.length = ps.length then extendAll? test ps ts b else none
      else none := rfl

theorem extendAll?_cons (p : Pattern) (ps : List Pattern) (t : Tree α) (ts : List (Tree α))
    (b : Bindings (Tree α)) :
    extendAll? test (p :: ps) (t :: ts) b =
      match extend? test p t b with
      | some b => extendAll? test ps ts b
      | none => none := rfl

theorem extend?_node_some {text : String} {ps : List Pattern} {v : α} {ts : List (Tree α)}
    {b b' : Bindings (Tree α)} :
    extend? test (node text ps) (.node v ts) b = some b' ↔
      test v text = true ∧ ts.length = ps.length ∧ extendAll? test ps ts b = some b' := by
  rw [extend?_node]
  split
  · next passed => split <;> simp [*]
  · next failed => simp [failed]

theorem extendAll?_cons_some {p : Pattern} {ps : List Pattern} {t : Tree α} {ts : List (Tree α)}
    {b b' : Bindings (Tree α)} :
    extendAll? test (p :: ps) (t :: ts) b = some b' ↔
      ∃ c, extend? test p t b = some c ∧ extendAll? test ps ts c = some b' := by
  rw [extendAll?_cons]
  cases extend? test p t b <;> simp

theorem admit?_extends {name : String} {t : Tree α} {b b' : Bindings (Tree α)}
    (h : b.admit? name t = some b') : b'.Extends b := by
  rcases Bindings.admit?_eq_some.1 h with ⟨fresh, rfl⟩ | ⟨_, _, _, rfl⟩
  · intro other x hx
    rw [Bindings.find?_insert, if_neg]
    · exact hx
    · rintro rfl
      rw [fresh] at hx
      exact absurd hx (by simp)
  · exact fun _ _ hx => hx

mutual
theorem extend?_extends {p : Pattern} {t : Tree α} {b b' : Bindings (Tree α)}
    (h : extend? test p t b = some b') : b'.Extends b := by
  cases p with
  | var name => exact admit?_extends (extend?_var test name t b ▸ h)
  | node text ps =>
    cases t with
    | node v ts => exact extendAll?_extends ((extend?_node_some test).1 h).2.2
theorem extendAll?_extends {ps : List Pattern} {ts : List (Tree α)} {b b' : Bindings (Tree α)}
    (h : extendAll? test ps ts b = some b') : b'.Extends b := by
  cases ps with
  | nil => exact Option.some.inj h ▸ fun _ _ hx => hx
  | cons p ps =>
    cases ts with
    | nil => exact Option.some.inj h ▸ fun _ _ hx => hx
    | cons t ts =>
      obtain ⟨c, hp, hps⟩ := (extendAll?_cons_some test).1 h
      exact (extendAll?_extends hps).trans (extend?_extends hp)
end

mutual
theorem instantiate_of_extend? (refl : ∀ v : α, (v == v) = true)
    (sound : ∀ v text, test v text = true → (mapper text == v) = true) {p : Pattern} {t : Tree α}
    {b b' c : Bindings (Tree α)} (h : extend? test p t b = some b') (hc : c.Extends b') :
    ∃ u, p.instantiate mapper c = .ok u ∧ u.agrees t = true := by
  cases p with
  | var name =>
    rw [extend?_var] at h
    rcases Bindings.admit?_eq_some.1 h with ⟨_, rfl⟩ | ⟨bound, found, agree, rfl⟩
    · have found : c.find? name = some t := hc name t (by rw [Bindings.find?_insert, if_pos rfl])
      exact ⟨t, (instantiate_var_ok mapper c).2 found,
        (Tree.agrees_self_iff t).2 fun v _ => refl v⟩
    · exact ⟨bound, (instantiate_var_ok mapper c).2 (hc name bound found), agree⟩
  | node text ps =>
    cases t with
    | node v ts =>
      obtain ⟨passed, arity, hps⟩ := (extend?_node_some test).1 h
      obtain ⟨us, hus, length, agree⟩ := instantiateAll_of_extendAll? refl sound hps hc arity
      refine ⟨.node (mapper text) us, (instantiate_node_ok mapper c).2 ⟨us, hus, rfl⟩, ?_⟩
      rw [Tree.agrees_node, sound v text passed, length, agree, beq_self_eq_true]
      rfl
theorem instantiateAll_of_extendAll? (refl : ∀ v : α, (v == v) = true)
    (sound : ∀ v text, test v text = true → (mapper text == v) = true) {ps : List Pattern}
    {ts : List (Tree α)} {b b' c : Bindings (Tree α)} (h : extendAll? test ps ts b = some b')
    (hc : c.Extends b') (arity : ts.length = ps.length) :
    ∃ us, instantiateAll mapper c ps = .ok us ∧ us.length = ts.length ∧
      Tree.agreesAll us ts = true := by
  cases ps with
  | nil =>
    obtain rfl := List.length_eq_zero_iff.1 arity
    exact ⟨[], instantiateAll_nil mapper c, rfl, rfl⟩
  | cons p ps =>
    cases ts with
    | nil => simp at arity
    | cons t ts =>
      obtain ⟨d, hp, hps⟩ := (extendAll?_cons_some test).1 h
      have early : c.Extends d := hc.trans (extendAll?_extends test hps)
      obtain ⟨u, hu, agree⟩ := instantiate_of_extend? refl sound hp early
      obtain ⟨us, hus, length, rest⟩ :=
        instantiateAll_of_extendAll? refl sound hps hc (by simpa using arity)
      refine ⟨u :: us, (instantiateAll_cons_ok mapper c).2 ⟨u, us, hu, hus, rfl⟩, ?_, ?_⟩
      · rw [List.length_cons, length, List.length_cons]
      · rw [Tree.agreesAll, agree, rest]
        rfl
end

mutual
theorem extend?_of_instantiate [LawfulBEq α] {p : Pattern} {t : Tree α} {b c : Bindings (Tree α)}
    (complete : ∀ text ∈ p.literals, test (mapper text) text = true)
    (h : p.instantiate mapper c = .ok t) (hb : c.Extends b) :
    ∃ b', extend? test p t b = some b' ∧ c.Extends b' := by
  cases p with
  | var name =>
    have found := (instantiate_var_ok mapper c).1 h
    rw [extend?_var]
    -- `c` binds the name to `t`, so `b` binds it to `t` or not at all
    cases known : b.find? name with
    | none =>
      refine ⟨b.insert name t, Bindings.admit?_eq_some.2 (Or.inl ⟨known, rfl⟩), ?_⟩
      intro other x hx
      rw [Bindings.find?_insert] at hx
      split at hx
      · next same => rw [same, found, hx]
      · exact hb other x hx
    | some bound =>
      have same : bound = t := Option.some.inj ((hb name bound known).symm.trans found)
      have agree : bound.agrees t = true := Tree.agrees_iff_eq.2 same
      exact ⟨b, Bindings.admit?_eq_some.2 (Or.inr ⟨bound, known, agree, rfl⟩), hb⟩
  | node text ps =>
    obtain ⟨ts, hts, rfl⟩ := (instantiate_node_ok mapper c).1 h
    have below : ∀ text ∈ literalsAll ps, test (mapper text) text = true :=
      fun other ho => complete other (List.mem_cons_of_mem text ho)
    obtain ⟨length, b', hb', hc⟩ := extendAll?_of_instantiateAll below hts hb
    exact ⟨b', (extend?_node_some test).2 ⟨complete text List.mem_cons_self, length, hb'⟩, hc⟩
theorem extendAll?_of_instantiateAll [LawfulBEq α] {ps : List Pattern} {ts : List (Tree α)}
    {b c : Bindings (Tree α)} (complete : ∀ text ∈ literalsAll ps, test (mapper text) text = true)
    (h : instantiateAll mapper c ps = .ok ts) (hb : c.Extends b) :
    ts.length = ps.length ∧ ∃ b', extendAll? test ps ts b = some b' ∧ c.Extends b' := by
  cases ps with
  | nil =>
    obtain rfl := Except.ok.inj ((instantiateAll_nil mapper c).symm.trans h)
    exact ⟨rfl, b, rfl, hb⟩
  | cons p ps =>
    obtain ⟨t, rest, ht, hrest, rfl⟩ := (instantiateAll_cons_ok mapper c).1 h
    have head : ∀ text ∈ p.literals, test (mapper text) text = true :=
      fun other ho => complete other (List.mem_append_left _ ho)
    have tail : ∀ text ∈ literalsAll ps, test (mapper text) text = true :=
      fun other ho => complete other (List.mem_append_right _ ho)
    obtain ⟨d, hd, hcd⟩ := extend?_of_instantiate head ht hb
    obtain ⟨length, b', hb', hcb⟩ := extendAll?_of_instantiateAll tail hrest hcd
    refine ⟨by rw [List.length_cons, length, List.length_cons], b', ?_, hcb⟩
    exact (extendAll?_cons_some test).2 ⟨d, hd, hb'⟩
end

/-- A match succeeds exactly on the instances of the pattern, and then its bindings are the only
ones, as far as the variables of the pattern go, that make the tree. -/
def Inverts (p : Pattern) (test : α → String → Bool) (mapper : String → α) (t : Tree α) : Prop :=
  ((p.captureWith? test t).isSome = true ↔ ∃ c, p.instantiate mapper c = .ok t) ∧
    ∀ b, p.captureWith? test t = some b → p.instantiate mapper b = .ok t ∧
      ∀ c, p.instantiate mapper c = .ok t → ∀ name ∈ p.vars, b.find? name = c.find? name

theorem inverts [LawfulBEq α] (p : Pattern) (t : Tree α)
    (sound : ∀ v text, test v text = true → mapper text = v)
    (complete : ∀ text ∈ p.literals, test (mapper text) text = true) :
    p.Inverts test mapper t := by
  have made (b : Bindings (Tree α)) (hb : p.captureWith? test t = some b) :
      p.instantiate mapper b = .ok t := by
    obtain ⟨u, hu, agree⟩ := instantiate_of_extend? test mapper beq_self_eq_true
      (fun v text passed => beq_iff_eq.2 (sound v text passed)) hb fun _ _ hx => hx
    rw [hu, Tree.agrees_iff_eq.1 agree]
  have matched (c : Bindings (Tree α)) (hc : p.instantiate mapper c = .ok t) :
      ∃ b, p.captureWith? test t = some b ∧ c.Extends b :=
    extend?_of_instantiate test mapper complete hc fun _ _ hx => absurd hx (by simp)
  constructor
  · rw [Option.isSome_iff_exists]
    constructor
    · rintro ⟨b, hb⟩
      exact ⟨b, made b hb⟩
    · rintro ⟨c, hc⟩
      obtain ⟨b, hb, _⟩ := matched c hc
      exact ⟨b, hb⟩
  · intro b hb
    refine ⟨made b hb, ?_⟩
    intro c hc name hn
    obtain ⟨b', hb', extends'⟩ := matched c hc
    obtain rfl := Option.some.inj (hb.symm.trans hb')
    have bound := Bindings.mem_names.1 ((mem_names_capture hb name).2 hn)
    obtain ⟨x, hx⟩ := Option.isSome_iff_exists.1 bound
    rw [hx, extends' name x hx]

theorem inverts_texts (p : Pattern) (t : Tree String) : p.Inverts displays id t :=
  inverts displays id p t (fun _ _ shown => (beq_iff_eq.1 shown).symm)
    fun text _ => beq_self_eq_true text

abbrev Matched (p : Pattern) : Type := {t : Tree String // p.matchesWith displays t = true}

theorem matches_iff_instance {p : Pattern} {t : Tree String} :
    p.matchesWith displays t = true ↔ ∃ b, p.instantiate id b = .ok t :=
  (p.inverts_texts t).1

/-- For a reflexive value equality a match undoes instantiation up to agreement; for equality itself
it is the exact inverse, in particular for texts that stand for themselves. -/
theorem capture_inverts_instantiate (p : Pattern) (t : Tree α) (test : α → String → Bool)
    (mapper : String → α) :
    ((∀ v : α, (v == v) = true) →
      (∀ v text, test v text = true → (mapper text == v) = true) →
      ∀ b, p.captureWith? test t = some b →
        ∃ u, p.instantiate mapper b = .ok u ∧ u.agrees t = true) ∧
    ((∀ v w : α, (v == w) = true ↔ v = w) →
      (∀ v text, test v text = true → mapper text = v) →
      (∀ text ∈ p.literals, test (mapper text) text = true) → p.Inverts test mapper t) ∧
    ∀ s : Tree String, p.Inverts displays id s := by
  refine ⟨?_, ?_, ?_⟩
  · intro refl sound b hb
    exact instantiate_of_extend? test mapper refl sound hb fun _ _ hx => hx
  · intro exact' sound complete
    have : LawfulBEq α :=
      { eq_of_beq := fun h => (exact' _ _).1 h, rfl := (exact' _ _).2 rfl }
    exact inverts test mapper p t sound complete
  · intro s
    refine inverts displays id p s ?_ ?_
    · intro v text shown
      exact (beq_iff_eq.1 shown).symm
    · intro text _
      exact beq_self_eq_true text

/-- The labels `a` and `A` are equal, but not the same: the instance agrees with the tree, and it is
another tree. -/
theorem capture_inverts_instantiate_caseless :
    ∃ b u, (node "f" [var "x", var "x"]).captureWith? (fun v text => sameUpToCase v.text text)
        (.node ⟨"F"⟩ [.leaf ⟨"a"⟩, .leaf ⟨"A"⟩]) = some b ∧
      (node "f" [var "x", var "x"]).instantiate CaselessLabel.mk b = .ok u ∧
      u.agrees (.node ⟨"F"⟩ [.leaf ⟨"a"⟩, .leaf ⟨"A"⟩]) = true := by
  have refl (v : CaselessLabel) : (v == v) = true :=
    beq_self_eq_true (v.text.toList.map Char.toLower)
  have sound (v : CaselessLabel) (text : String) (h : sameUpToCase v.text text = true) :
      (CaselessLabel.mk text == v) = true := by
    rw [sameUpToCase, beq_iff_eq] at h
    change sameUpToCase text v.text = true
    rw [sameUpToCase, h, beq_iff_eq]
  obtain ⟨u, made, agree⟩ := (capture_inverts_instantiate (node "f" [var "x", var "x"])
    (.node ⟨"F"⟩ [.leaf ⟨"a"⟩, .leaf ⟨"A"⟩]) (fun v text => sameUpToCase v.text text)
    CaselessLabel.mk).1 refl sound ⟨[("x", .leaf ⟨"a"⟩)]⟩ rfl
  exact ⟨_, u, rfl, made, agree⟩

end Pattern
end TreeRules
