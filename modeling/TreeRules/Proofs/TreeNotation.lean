import TreeRules.Tree.Printer
import TreeRules.Proofs.GrammarReading
set_option autoImplicit false

namespace TreeRules

open Text

theorem isToken_iff {text : String} :
    isToken text = true ↔ text.toList ≠ [] ∧ ∀ c ∈ text.toList, isTokenChar c = true := by
  simp [isToken]

namespace Tree

variable {α β : Type}

theorem writeSiblingsOnto_eq_flatMap (text : α → String) (ts : List (Tree α)) (rest : List Char) :
    writeSiblingsOnto text ts rest = (ts.flatMap fun t => ',' :: t.write text) ++ ')' :: rest := by
  induction ts with
  | nil => rfl
  | cons t ts ih => simp [writeSiblingsOnto, writeOnto_eq text t, ih]

theorem write_node (text : α → String) (v : α) (t : Tree α) (ts : List (Tree α)) :
    (node v (t :: ts)).write text = (text v).toList ++
      '(' :: (t.write text ++ ts.flatMap fun t => ',' :: t.write text) ++ [')'] := by
  rw [write_node_cons, writeSiblingsOnto_eq_flatMap]
  simp

theorem write_map (text : β → String) (f : α → β) (t : Tree α) :
    (t.map f).write text = t.write (text ∘ f) := by
  induction t using induction with
  | node v ts ih =>
    cases ts with
    | nil => simp [write, writeOnto, writeChildrenOnto]
    | cons t ts =>
      have later : ts.flatMap (fun u => ',' :: (u.map f).write text) =
          ts.flatMap fun u => ',' :: u.write (text ∘ f) := by
        rw [List.flatMap_def, List.flatMap_def]
        refine congrArg _ (List.map_congr_left fun u hu => ?_)
        rw [ih u (List.mem_cons_of_mem t hu)]
      rw [map_node, List.map_cons, write_node, write_node, ih t List.mem_cons_self,
        List.flatMap_map, later]
      rfl

theorem named_token {v : String} (hv : isToken v = true) {before pre post after : List Char}
    (hpre : Blank pre) (hpost : Blank post) (starts : Starts before) (stops : Stops after) :
    Named before (pre ++ v.toList ++ post) after v := by
  obtain ⟨nonempty, token⟩ := isToken_iff.1 hv
  have run : MaximalRun (before ++ pre) v.toList (post ++ after) :=
    ⟨nonempty, token, starts_append_blank starts hpre, stops_blank_append hpost stops⟩
  have named := Named.intro hpre run hpost
  rwa [String.ofList_toList] at named

theorem derivesAll_write {t : Tree String} {ts : List (Tree String)}
    (each : ∀ u ∈ t :: ts, ∀ before after, Starts before → Stops after →
      Derives before (u.write id) after u) {before after : List Char} (starts : Starts before)
    (stops : Stops after) :
    DerivesAll before (t.write id ++ ts.flatMap fun u => ',' :: u.write id) after (t :: ts) := by
  induction ts generalizing t before with
  | nil =>
    rw [List.flatMap_nil, List.append_nil]
    exact .one (each t List.mem_cons_self before after starts stops)
  | cons u us ih =>
    have first := each t List.mem_cons_self
    have rest := ih (t := u) (fun w hw => each w (List.mem_cons_of_mem t hw))
      (starts_concat (before ++ t.write id) (c := ',') (by decide))
    rw [List.flatMap_cons, List.cons_append]
    exact .more (first before _ starts (stops_cons (by decide) _)) rest

theorem derives_write {t : Tree String} (h : ∀ v ∈ t.values, isToken v = true)
    {before pre post after : List Char} (hpre : Blank pre) (hpost : Blank post)
    (starts : Starts before) (stops : Stops after) :
    Derives before (pre ++ t.write id ++ post) after t := by
  induction t using induction generalizing before pre post after with
  | node v ts ih =>
    rw [values_node, List.forall_mem_cons] at h
    obtain ⟨hv, hts⟩ := h
    cases ts with
    | nil =>
      have text : (node v []).write id = v.toList := write_leaf id v
      rw [text]
      exact .leaf (named_token hv hpre hpost starts stops)
    | cons t ts =>
      have each (u : Tree String) (hu : u ∈ t :: ts) (before after : List Char)
          (starts : Starts before) (stops : Stops after) :
          Derives before (u.write id) after u := by
        have tokens : ∀ v ∈ u.values, isToken v = true := fun v hv =>
          hts v (List.mem_flatMap.2 ⟨u, hu, hv⟩)
        simpa using ih u hu tokens blank_nil blank_nil starts stops
      let inner := t.write id ++ ts.flatMap fun u => ',' :: u.write id
      have whole : pre ++ (node v (t :: ts)).write id ++ post =
          (pre ++ v.toList ++ []) ++ '(' :: inner ++ ')' :: post := by
        rw [write_node]
        simp [inner]
      rw [whole]
      refine .node (named_token hv hpre blank_nil starts (stops_cons (by decide) _)) ?_ hpost
      exact derivesAll_write each (starts_concat _ (by decide)) (stops_cons (by decide) _)

end Tree

theorem Named.token {before cs after : List Char} {name : String}
    (h : Named before cs after name) :
    isToken name = true ∧ withoutBlanks cs = name.toList := by
  cases h with
  | intro blankPre run blankPost =>
    rw [isToken_iff, String.toList_ofList, withoutBlanks_append, withoutBlanks_append,
      withoutBlanks_eq_nil.2 blankPre, withoutBlanks_eq_nil.2 blankPost,
      withoutBlanks_token run.token]
    exact ⟨⟨run.nonempty, run.token⟩, by simp⟩

mutual
/-- The text of a tree is its notation but for blanks. -/
theorem Derives.write : ∀ {before cs after : List Char} {t : Tree String},
    Derives before cs after t →
      (∀ v ∈ t.values, isToken v = true) ∧ withoutBlanks cs = t.write id
  | _, _, _, _, .leaf named => by
    obtain ⟨token, text⟩ := named.token
    rw [text, Tree.write_leaf]
    refine ⟨fun v hv => ?_, rfl⟩
    rw [Tree.leaf, Tree.values_node, List.flatMap_nil, List.mem_singleton] at hv
    rwa [hv]
  | _, _, _, _, .node named children blankLast => by
    rename_i before head inner last after name ts
    obtain ⟨token, text⟩ := named.token
    obtain ⟨t, us, rfl, tokens, siblings⟩ := children.write
    constructor
    · rw [Tree.values_node]
      exact List.forall_mem_cons.2 ⟨token, tokens⟩
    · rw [withoutBlanks_append, withoutBlanks_append, withoutBlanks_cons (by decide),
        withoutBlanks_cons (by decide), text, siblings, withoutBlanks_eq_nil.2 blankLast,
        Tree.write_node]
      rfl
theorem DerivesAll.write : ∀ {before cs after : List Char} {ts : List (Tree String)},
    DerivesAll before cs after ts →
      ∃ t us, ts = t :: us ∧ (∀ v ∈ ts.flatMap Tree.values, isToken v = true) ∧
        withoutBlanks cs = t.write id ++ us.flatMap fun u => ',' :: u.write id
  | _, _, _, _, .one tree => by
    obtain ⟨tokens, text⟩ := tree.write
    exact ⟨_, [], rfl, by simpa using tokens, by simpa using text⟩
  | _, _, _, _, .more tree rest => by
    obtain ⟨tokens, text⟩ := tree.write
    obtain ⟨u, us, rfl, tokens', text'⟩ := rest.write
    refine ⟨_, u :: us, rfl, ?_, ?_⟩
    · rw [List.flatMap_cons]
      exact List.forall_mem_append.2 ⟨tokens, tokens'⟩
    · rw [withoutBlanks_append, withoutBlanks_cons (by decide), text, text']
      rfl
end

end TreeRules
