import TreeRules.Proofs.Grammar
import TreeRules.Rule.Reading
set_option autoImplicit false

namespace TreeRules

open Text

theorem append_eq_append_of_stop {p : Char → Bool} {as bs cs ds : List Char}
    (has : ∀ c ∈ as, p c = true) (hbs : ∀ c ∈ bs, p c = true)
    (hcs : ∀ c, cs.head? = some c → p c = false) (hds : ∀ c, ds.head? = some c → p c = false)
    (h : as ++ cs = bs ++ ds) : as = bs ∧ cs = ds := by
  induction as generalizing bs with
  | nil =>
    cases bs with
    | nil => exact ⟨rfl, h⟩
    | cons b bs =>
      rw [List.nil_append] at h
      have stop := hcs b (by rw [h]; rfl)
      simp [hbs b List.mem_cons_self] at stop
  | cons a as ih =>
    cases bs with
    | nil =>
      rw [List.nil_append] at h
      have stop := hds a (by rw [← h]; rfl)
      simp [has a List.mem_cons_self] at stop
    | cons b bs =>
      obtain ⟨rfl, rest⟩ := List.cons.inj h
      have tails := ih (fun c hc => has c (List.mem_cons_of_mem a hc))
        (fun c hc => hbs c (List.mem_cons_of_mem a hc)) rest
      exact ⟨congrArg _ tails.1, tails.2⟩

theorem Starts.eq_nil {cs ds : List Char} (h : Starts (cs ++ ds))
    (hds : ∀ c ∈ ds, isTokenChar c = true) : ds = [] := by
  cases hlast : ds.getLast? with
  | none => exact List.getLast?_eq_none_iff.1 hlast
  | some c =>
    have starts := h c (by rw [List.getLast?_append, hlast]; rfl)
    simp [hds c (List.mem_of_getLast? hlast)] at starts

theorem Starts.append {ds : List Char} (h : Starts ds) (nonempty : ds ≠ []) (cs : List Char) :
    Starts (cs ++ ds) := by
  intro c hc
  rw [List.getLast?_append] at hc
  cases hlast : ds.getLast? with
  | none => exact absurd (List.getLast?_eq_none_iff.1 hlast) nonempty
  | some d =>
    rw [hlast] at hc
    exact h c (hlast.trans hc)

theorem Stops.append {cs : List Char} (h : Stops cs) (nonempty : cs ≠ []) (ds : List Char) :
    Stops (cs ++ ds) := by
  cases cs with
  | nil => exact absurd rfl nonempty
  | cons d cs => exact h

theorem Starts.of_append {cs ds : List Char} (h : Starts (cs ++ ds)) : Starts ds := by
  intro c hc
  exact h c (by rw [List.getLast?_append, hc]; rfl)

theorem Stops.of_append {cs ds : List Char} (h : Stops (cs ++ ds)) : Stops cs := by
  intro c hc
  exact h c (by rw [List.head?_append, hc]; rfl)

namespace ArrowSearch

theorem arrow_token : ∀ c ∈ arrow, isTokenChar c = true := List.all_eq_true.1 (by decide)

/-- The number of open parentheses at the end of the text. One that closes nothing does not count. -/
def depthOf (cs : List Char) : Nat := cs.foldl depthAfter 0

theorem depthOf_concat (cs : List Char) (c : Char) :
    depthOf (cs ++ [c]) = depthAfter (depthOf cs) c := by
  rw [depthOf, List.foldl_append]
  rfl

theorem depthAfter_plain {c : Char} (hopen : c ≠ '(') (hclose : c ≠ ')') (depth : Nat) :
    depthAfter depth c = depth := by
  rw [depthAfter, if_neg hopen, if_neg hclose]

theorem depthOf_append (cs : List Char) {ds : List Char} (h : ∀ c ∈ ds, c ≠ '(' ∧ c ≠ ')') :
    depthOf (cs ++ ds) = depthOf cs := by
  induction ds generalizing cs with
  | nil => rw [List.append_nil]
  | cons d ds ih =>
    obtain ⟨⟨hopen, hclose⟩, hds⟩ := List.forall_mem_cons.1 h
    rw [List.append_cons, ih (cs ++ [d]) hds, depthOf_concat, depthAfter_plain hopen hclose]

theorem depthOf_append_token (cs : List Char) {ds : List Char}
    (h : ∀ c ∈ ds, isTokenChar c = true) : depthOf (cs ++ ds) = depthOf cs := by
  exact depthOf_append cs fun c hc =>
    ⟨ne_of_kind (h c hc) (by decide), ne_of_kind (h c hc) (by decide)⟩

theorem depthOf_blank {cs : List Char} (h : Blank cs) : depthOf cs = 0 := by
  exact depthOf_append [] fun c hc =>
    ⟨ne_of_kind (h c hc) (by decide), ne_of_kind (h c hc) (by decide)⟩

theorem depthOf_append_closed {cs : List Char} (h : depthOf cs = 0) (ds : List Char) :
    depthOf (cs ++ ds) = depthOf ds := by
  rw [depthOf, List.foldl_append]
  exact congrArg (ds.foldl depthAfter ·) h

end ArrowSearch

open ArrowSearch

/-- An arrow of the text that stands outside all parentheses. -/
structure OuterArrow (text left right : List Char) : Prop where
  whole : text = left ++ arrow ++ right
  run : MaximalRun left arrow right
  outside : depthOf left = 0

theorem outerArrow_within {before word rest : List Char} (starts : Starts before)
    (token : ∀ c ∈ word, isTokenChar c = true) (stops : Stops rest) (left right : List Char) :
    OuterArrow (before ++ word ++ rest) left right ∧ before.length ≤ left.length ∧
        left.length ≤ before.length + word.length ↔
      depthOf before = 0 ∧ word = arrow ∧ left = before ∧ right = rest := by
  constructor
  · rintro ⟨⟨whole, run, outside⟩, low, high⟩
    rw [List.append_assoc, List.append_assoc] at whole
    rcases List.append_eq_append_iff.1 whole with ⟨gap, rfl, htail⟩ | ⟨gap, rfl, htail⟩
    · have inside : gap <+: word := by
        refine List.prefix_of_prefix_length_le ⟨_, htail.symm⟩ (List.prefix_append word rest) ?_
        rw [List.length_append] at high
        omega
      obtain rfl : gap = [] := run.starts.eq_nil fun c hc => token c (inside.subset hc)
      rw [List.append_nil] at outside ⊢
      obtain ⟨rfl, rfl⟩ := append_eq_append_of_stop token arrow_token stops run.stops htail
      exact ⟨outside, rfl, rfl, rfl⟩
    · obtain rfl : gap = [] := by
        rw [List.length_append] at low
        exact List.length_eq_zero_iff.1 (by omega)
      rw [List.append_nil]
      obtain ⟨rfl, rfl⟩ := append_eq_append_of_stop arrow_token token run.stops stops htail
      exact ⟨outside, rfl, rfl, rfl⟩
  · rintro ⟨outside, rfl, rfl, rfl⟩
    exact ⟨⟨rfl, ⟨by decide, arrow_token, starts, stops⟩, outside⟩, by omega, by omega⟩

/-- Around an arrow between two parts, the left one of which leaves nothing open, the other arrows of
the text are those of the parts. -/
theorem outerArrow_append {left right l r : List Char} (starts : Starts left) (stops : Stops right)
    (closed : depthOf left = 0) :
    OuterArrow (left ++ arrow ++ right) l r ↔ (l = left ∧ r = right) ∨
      (∃ gap, OuterArrow left l gap ∧ r = gap ++ arrow ++ right) ∨
      ∃ gap, OuterArrow right gap r ∧ l = left ++ arrow ++ gap := by
  have nonempty : arrow ≠ [] := by decide
  constructor
  · rintro ⟨whole, run, outside⟩
    rw [List.append_assoc, List.append_assoc] at whole
    -- tokens do not overlap, so the arrow found is the middle one or lies within one of the parts
    rcases List.append_eq_append_iff.1 whole with ⟨gap, rfl, htail⟩ | ⟨gap, rfl, htail⟩
    · rcases List.append_eq_append_iff.1 htail with ⟨inner, rfl, rfl⟩ | ⟨inner, harrow, _⟩
      · have inner_closed : depthOf inner = 0 := by
          rw [depthOf_append_closed closed, depthOf_append_closed (by decide)] at outside
          exact outside
        have inner_run : MaximalRun inner arrow r :=
          ⟨nonempty, arrow_token, run.starts.of_append.of_append, run.stops⟩
        exact Or.inr (Or.inr ⟨inner, ⟨by simp, inner_run, inner_closed⟩, by simp⟩)
      · obtain rfl : gap = [] := run.starts.eq_nil fun c hc =>
          arrow_token c (by rw [harrow]; exact List.mem_append_left _ hc)
        exact Or.inl ⟨List.append_nil left, (List.append_cancel_left htail).symm⟩
    · rcases List.append_eq_append_iff.1 htail with ⟨inner, rfl, rfl⟩ | ⟨inner, harrow, _⟩
      · have inner_run : MaximalRun l arrow inner :=
          ⟨nonempty, arrow_token, run.starts, run.stops.of_append⟩
        exact Or.inr (Or.inl ⟨inner, ⟨by simp, inner_run, outside⟩, by simp⟩)
      · obtain rfl : gap = [] := starts.eq_nil fun c hc =>
          arrow_token c (by rw [harrow]; exact List.mem_append_left _ hc)
        exact Or.inl ⟨(List.append_nil l).symm, List.append_cancel_left htail⟩
  · rintro (⟨rfl, rfl⟩ | ⟨gap, ⟨rfl, run, outside⟩, rfl⟩ | ⟨gap, ⟨rfl, run, outside⟩, rfl⟩)
    · exact ⟨rfl, ⟨nonempty, arrow_token, starts, stops⟩, closed⟩
    · have apart : gap ≠ [] := by
        rintro rfl
        rw [List.append_nil] at starts
        exact nonempty (starts.eq_nil arrow_token)
      refine ⟨by simp, ⟨nonempty, arrow_token, run.starts, ?_⟩, outside⟩
      rw [List.append_assoc]
      exact run.stops.append apart _
    · have apart : gap ≠ [] := by
        rintro rfl
        have stop := stops '-' rfl
        exact absurd stop (by decide)
      refine ⟨by simp, ⟨nonempty, arrow_token, run.starts.append apart _, run.stops⟩, ?_⟩
      rw [List.append_assoc, depthOf_append_closed closed, depthOf_append_closed (by decide)]
      exact outside

namespace ArrowSearch

structure At (text : List Char) (s : ArrowSearch) (rest : List Char) : Prop where
  whole : text = s.before.reverse ++ s.word.reverse ++ rest
  starts : Starts s.before.reverse
  token : ∀ c ∈ s.word, isTokenChar c = true
  depth : s.depth = depthOf s.before.reverse

variable {text cs rest : List Char} {s : ArrowSearch} {p : List Char × List Char}

theorem at_start : start.At text text := ⟨rfl, starts_nil, fun _ h => by simp [start] at h, rfl⟩

theorem At.token_char {c : Char} (h : s.At text (c :: cs)) (hc : isTokenChar c = true) :
    At text { s with word := c :: s.word } cs := by
  refine ⟨?_, h.starts, List.forall_mem_cons.2 ⟨hc, h.token⟩, h.depth⟩
  rw [h.whole]
  simp

theorem At.other_char {c : Char} (h : s.At text (c :: cs)) (hc : isTokenChar c = false)
    (found : List (List Char × List Char)) :
    At text ⟨depthAfter s.depth c, c :: (s.word ++ s.before), [], found⟩ cs := by
  refine ⟨?_, ?_, fun _ h => by simp at h, ?_⟩
  · rw [h.whole]
    simp
  · rw [List.reverse_cons]
    exact starts_concat _ hc
  · have word : ∀ c ∈ s.word.reverse, isTokenChar c = true := fun c hc =>
      h.token c (List.mem_reverse.1 hc)
    rw [List.reverse_cons, List.reverse_append, depthOf_concat, depthOf_append_token _ word, h.depth]

theorem mem_endWord (h : s.At text rest) (stops : Stops rest) :
    p ∈ s.endWord rest ↔ p ∈ s.found ∨ OuterArrow text p.1 p.2 ∧
      s.before.length ≤ p.1.length ∧ p.1.length ≤ s.before.length + s.word.length := by
  have token : ∀ c ∈ s.word.reverse, isTokenChar c = true := fun c hc =>
    h.token c (List.mem_reverse.1 hc)
  have within := outerArrow_within h.starts token stops p.1 p.2
  rw [← h.whole, List.length_reverse, List.length_reverse, ← h.depth] at within
  rw [within, endWord, List.reverse_eq_iff]
  split
  · next hit => rw [List.mem_cons, Prod.ext_iff, or_comm, and_iff_right hit.1, and_iff_right hit.2]
  · next miss =>
    rw [← and_assoc, iff_false_intro miss, false_and, or_false]

theorem mem_run (h : s.At text rest) :
    p ∈ s.run rest ↔
      p ∈ s.found ∨ OuterArrow text p.1 p.2 ∧ s.before.length ≤ p.1.length := by
  induction rest generalizing s with
  | nil =>
    rw [run, List.mem_reverse, mem_endWord h stops_nil]
    refine or_congr_right (and_congr_right fun arrow => and_iff_left ?_)
    have size := congrArg List.length (h.whole.symm.trans arrow.whole)
    simp only [List.length_append, List.length_reverse, List.length_nil] at size
    omega
  | cons c cs ih =>
    rw [run]
    split
    · next hc => exact ih (h.token_char hc)
    · next hc =>
      have hc : isTokenChar c = false := by simpa using hc
      rw [ih (h.other_char hc _), mem_endWord h (stops_cons hc cs), or_assoc, ← and_or_left]
      refine or_congr_right (and_congr_right fun _ => ?_)
      rw [List.length_cons, List.length_append]
      omega

structure Ascending (s : ArrowSearch) : Prop where
  ordered : s.found.Pairwise fun p q => q.1.length < p.1.length
  early : ∀ p ∈ s.found, p.1.length < s.before.length

theorem endWord_ascending (h : s.Ascending) (rest : List Char) :
    (s.endWord rest).Pairwise (fun p q => q.1.length < p.1.length) ∧
      ∀ p ∈ s.endWord rest, p.1.length ≤ s.before.length := by
  have early (p : List Char × List Char) (hp : p ∈ s.found) : p.1.length ≤ s.before.length :=
    Nat.le_of_lt (h.early p hp)
  rw [endWord]
  split
  · refine ⟨List.pairwise_cons.2 ⟨fun p hp => ?_, h.ordered⟩, List.forall_mem_cons.2 ⟨?_, early⟩⟩
    · rw [List.length_reverse]
      exact h.early p hp
    · exact Nat.le_of_eq List.length_reverse
  · exact ⟨h.ordered, early⟩

theorem run_ascending (h : s.Ascending) (rest : List Char) :
    (s.run rest).Pairwise fun p q => p.1.length < q.1.length := by
  induction rest generalizing s with
  | nil =>
    rw [run, List.pairwise_reverse]
    exact (endWord_ascending h []).1
  | cons c cs ih =>
    rw [run]
    split
    · exact ih ⟨h.ordered, h.early⟩
    · obtain ⟨ordered, early⟩ := endWord_ascending h (c :: cs)
      refine ih ⟨ordered, fun p hp => ?_⟩
      have behind := early p hp
      rw [List.length_cons, List.length_append]
      omega

theorem run_nodup (h : s.Ascending) (rest : List Char) : (s.run rest).Nodup :=
  (run_ascending h rest).imp fun {p q} hpq (e : p = q) => Nat.lt_irrefl _ (e ▸ hpq)

end ArrowSearch

theorem eq_singleton_iff {α : Type} {l : List α} (h : l.Nodup) {a : α} :
    l = [a] ↔ ∀ b, b ∈ l ↔ b = a := by
  rw [← List.perm_singleton, List.perm_ext_iff_of_nodup h (List.pairwise_singleton _ a)]
  simp only [List.mem_singleton]

/-- The text has one arrow outside all parentheses, with these sides. -/
structure SoleArrow (text left right : String) : Prop where
  outer : OuterArrow text.toList left.toList right.toList
  sole : ∀ l r, OuterArrow text.toList l r → l = left.toList ∧ r = right.toList

theorem SoleArrow.unique {text left right l r : String} (h : SoleArrow text left right)
    (h' : SoleArrow text l r) : l = left ∧ r = right := by
  obtain ⟨hl, hr⟩ := h.sole _ _ h'.outer
  exact ⟨String.toList_inj.1 hl, String.toList_inj.1 hr⟩

theorem arrowSplits_eq_singleton {text left right : String} :
    arrowSplits text = [(left, right)] ↔ SoleArrow text left right := by
  have listed : arrowSplits text = [(left, right)] ↔
      start.run text.toList = [(left.toList, right.toList)] := by
    rw [arrowSplits, List.map_eq_singleton_iff]
    constructor
    · rintro ⟨p, hp, hsides⟩
      obtain ⟨rfl, rfl⟩ := Prod.mk.inj hsides
      simp [hp]
    · intro h
      exact ⟨_, h, by simp⟩
  have ascending : start.Ascending := ⟨List.Pairwise.nil, fun p hp => by simp [start] at hp⟩
  have member (l r : List Char) : (l, r) ∈ start.run text.toList ↔ OuterArrow text.toList l r := by
    rw [mem_run at_start]
    simp [start]
  rw [listed, eq_singleton_iff (run_nodup ascending _), Prod.forall]
  simp only [member, Prod.mk.injEq]
  constructor
  · exact fun h => ⟨(h _ _).2 ⟨rfl, rfl⟩, fun l r => (h l r).1⟩
  · rintro h l r
    exact ⟨h.sole l r, fun ⟨hl, hr⟩ => hl ▸ hr ▸ h.outer⟩

-- arrows in parentheses and inside tokens are passed over
example : arrowSplits "f(->) -> a->b(->)" = [("f(->) ", " a->b(->)")] := by decide +kernel

end TreeRules
