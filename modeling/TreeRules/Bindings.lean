set_option autoImplicit false

namespace TreeRules

/-- The entries, the latest first. -/
structure Bindings (β : Type) where
  entries : List (String × β)

namespace Bindings

variable {β : Type}

def empty : Bindings β := ⟨[]⟩

def find? (b : Bindings β) (name : String) : Option β := b.entries.lookup name

def erase (b : Bindings β) (name : String) : Bindings β := ⟨b.entries.filter (·.1 != name)⟩

def insert (b : Bindings β) (name : String) (x : β) : Bindings β :=
  ⟨(name, x) :: (b.erase name).entries⟩

/-- Of several entries for a name the last one counts. -/
def ofList (entries : List (String × β)) : Bindings β :=
  entries.foldl (fun b e => b.insert e.1 e.2) empty

def contains (b : Bindings β) (name : String) : Bool := (b.find? name).isSome

def size (b : Bindings β) : Nat := b.entries.length

def isEmpty (b : Bindings β) : Bool := b.entries.isEmpty

def names (b : Bindings β) : List String := b.entries.map (·.1)

@[simp] theorem find?_empty (name : String) : (empty : Bindings β).find? name = none := rfl

theorem lookup_filter_ne (entries : List (String × β)) (name other : String) :
    (entries.filter (·.1 != other)).lookup name =
      if name = other then none else entries.lookup name := by
  induction entries with
  | nil => simp
  | cons e es ih =>
    by_cases he : e.1 = other
    · rw [List.filter_cons_of_neg (by simp [he]), ih]
      by_cases hn : name = other
      · simp [hn]
      · have miss : (name == e.1) = false := by simp [he, hn]
        rw [if_neg hn, if_neg hn, List.lookup_cons, miss]
    · rw [List.filter_cons_of_pos (by simp [he]), List.lookup_cons, List.lookup_cons, ih]
      by_cases hn : name = e.1
      · simp [hn, he]
      · have miss : (name == e.1) = false := by simp [hn]
        simp [miss]

theorem find?_insert (b : Bindings β) (name other : String) (x : β) :
    (b.insert other x).find? name = if name = other then some x else b.find? name := by
  simp only [find?, insert, erase, List.lookup_cons, lookup_filter_ne]
  by_cases hn : name = other
  · simp [hn]
  · have miss : (name == other) = false := by simp [hn]
    simp [hn, miss]

theorem find?_erase (b : Bindings β) (name other : String) :
    (b.erase other).find? name = if name = other then none else b.find? name :=
  lookup_filter_ne b.entries name other

theorem find?_foldl_insert (entries : List (String × β)) (b : Bindings β) (name : String) :
    (entries.foldl (fun b e => b.insert e.1 e.2) b).find? name =
      (entries.reverse.lookup name).or (b.find? name) := by
  induction entries generalizing b with
  | nil => rfl
  | cons e es ih =>
    rw [List.foldl_cons, ih, find?_insert, List.reverse_cons, List.lookup_append, Option.or_assoc]
    refine congrArg _ ?_
    rw [List.lookup_cons, List.lookup_nil]
    by_cases hn : name = e.1
    · simp [hn]
    · have miss : (name == e.1) = false := by simp [hn]
      simp [hn, miss]

theorem find?_ofList {entries : List (String × β)} {name : String} {x : β} :
    (ofList entries).find? name = some x ↔
      ∃ before after, entries = before ++ (name, x) :: after ∧ ∀ e ∈ after, e.1 ≠ name := by
  rw [ofList, find?_foldl_insert, find?_empty, Option.or_none, List.lookup_eq_some_iff]
  constructor
  · rintro ⟨after, before, split, other⟩
    refine ⟨before.reverse, after.reverse, ?_, fun e he => ?_⟩
    · rw [← List.reverse_reverse entries, split]
      simp
    · exact (bne_iff_ne.1 (other e (List.mem_reverse.1 he))).symm
  · rintro ⟨before, after, rfl, other⟩
    refine ⟨after.reverse, before.reverse, by simp, fun e he => ?_⟩
    exact bne_iff_ne.2 (other e (List.mem_reverse.1 he)).symm

theorem mem_names {b : Bindings β} {name : String} :
    name ∈ b.names ↔ (b.find? name).isSome = true := by
  simp only [names, find?, List.mem_map, List.lookup_isSome_iff]
  constructor
  · rintro ⟨e, he, rfl⟩
    exact ⟨e, he, beq_self_eq_true e.1⟩
  · rintro ⟨e, he, h⟩
    exact ⟨e, he, (beq_iff_eq.1 h).symm⟩

theorem names_insert_nodup {b : Bindings β} (h : b.names.Nodup) (name : String) (x : β) :
    (b.insert name x).names.Nodup := by
  have rest : (b.erase name).names.Nodup := h.sublist (List.filter_sublist.map _)
  refine List.nodup_cons.2 ⟨?_, rest⟩
  intro hn
  have found := mem_names.1 hn
  simp [find?_erase] at found

end Bindings
end TreeRules
