import TreeRules.Tree.Children
set_option autoImplicit false

namespace TreeRules.Children

variable {α : Type}

/-- What a queue answers, and what is left in it. A child is looked up among all children `ts`. -/
def queueAnswer (ts queue : List (Tree α)) : Request → Answer α × List (Tree α)
  | .next => (.tree queue.head?, queue.tail)
  | .nextBack => (.tree queue.getLast?, queue.dropLast)
  | .length => (.count queue.length, queue)
  | .child i => (.tree ts[i]?, queue)

def queueRun (ts queue : List (Tree α)) : List Request → List (Answer α)
  | [] => []
  | r :: rs => (queueAnswer ts queue r).1 :: queueRun ts (queueAnswer ts queue r).2 rs

def exhaustedAnswer (ts : List (Tree α)) : Request → Answer α
  | .next => .tree none
  | .nextBack => .tree none
  | .length => .count 0
  | .child i => .tree ts[i]?

def after (c : Children α) : List Request → Children α
  | [] => c
  | r :: rs => after (c.answer r).2 rs

def atFront? : Request × Answer α → Option (Tree α)
  | (.next, .tree found) => found
  | _ => none

def atBack? : Request × Answer α → Option (Tree α)
  | (.nextBack, .tree found) => found
  | _ => none

def takenFront (rs : List Request) (as : List (Answer α)) : List (Tree α) :=
  (rs.zip as).filterMap atFront?

def takenBack (rs : List Request) (as : List (Answer α)) : List (Tree α) :=
  (rs.zip as).filterMap atBack?

/-- The window `d` is what `c` leaves when the trees `fronts` are taken at the front, in this order,
and `backs` at the back. -/
structure Narrowed (c d : Children α) (fronts backs : List (Tree α)) : Prop where
  items : d.items = c.items
  whole : c.remaining = fronts ++ d.remaining ++ backs.reverse
  front : d.front = c.front + fronts.length
  back : d.back + backs.length = c.back

theorem Narrowed.refl (c : Children α) : Narrowed c c [] [] := by
  refine ⟨rfl, ?_, rfl, rfl⟩
  rw [List.nil_append, List.reverse_nil, List.append_nil]

theorem Narrowed.trans {c d e : Children α} {fronts backs fronts' backs' : List (Tree α)}
    (h : Narrowed c d fronts backs) (h' : Narrowed d e fronts' backs') :
    Narrowed c e (fronts ++ fronts') (backs ++ backs') := by
  refine ⟨h'.items.trans h.items, ?_, ?_, ?_⟩
  · rw [h.whole, h'.whole]
    simp only [List.reverse_append, List.append_assoc]
  · rw [h'.front, h.front, List.length_append, Nat.add_assoc]
  · have inner := h'.back
    have outer := h.back
    rw [List.length_append]
    omega

section

variable (c : Children α)

theorem remaining_eq_nil : c.remaining = [] ↔ c.front = c.back := by
  have ordered := c.front_le_back
  rw [← List.length_eq_zero_iff, length_remaining, length]
  omega

theorem next_exhausted (h : c.front = c.back) : c.next = (none, c) := by rw [next, dif_pos h]

theorem nextBack_exhausted (h : c.front = c.back) : c.nextBack = (none, c) := by
  rw [nextBack, dif_pos h]

theorem next_yields (h : c.front ≠ c.back) :
    ∃ t, c.next.1 = some t ∧ Narrowed c c.next.2 [t] [] := by
  have ordered := c.front_le_back
  have bounded := c.back_le_length
  have inside : c.front < c.items.length := by omega
  rw [next, dif_neg h]
  refine ⟨c.items[c.front], List.getElem?_eq_getElem inside, rfl, ?_, rfl, rfl⟩
  have short : c.front < (c.items.take c.back).length := by
    rw [List.length_take]
    omega
  rw [remaining, List.drop_eq_getElem_cons short, List.getElem_take]
  simp [remaining]

theorem nextBack_yields (h : c.front ≠ c.back) :
    ∃ t, c.nextBack.1 = some t ∧ Narrowed c c.nextBack.2 [] [t] := by
  have ordered := c.front_le_back
  have bounded := c.back_le_length
  have inside : c.back - 1 < c.items.length := by omega
  have last : c.items.take c.back = c.items.take (c.back - 1) ++ [c.items[c.back - 1]] := by
    rw [List.take_append_getElem inside, Nat.sub_add_cancel (by omega)]
  have before : c.front ≤ (c.items.take (c.back - 1)).length := by
    rw [List.length_take]
    omega
  rw [nextBack, dif_neg h]
  refine ⟨c.items[c.back - 1], List.getElem?_eq_getElem inside, rfl, ?_, rfl, ?_⟩
  · rw [remaining, last, List.drop_append_of_le_length before]
    rfl
  · change c.back - 1 + 1 = c.back
    omega

/-- What a request may be answered with, and the window that it leaves. -/
inductive Answers (c : Children α) : Request → Answer α → Children α → Prop
  | next {t : Tree α} {d : Children α} (taken : Narrowed c d [t] []) :
      Answers c .next (.tree (some t)) d
  | noNext (exhausted : c.remaining = []) : Answers c .next (.tree none) c
  | nextBack {t : Tree α} {d : Children α} (taken : Narrowed c d [] [t]) :
      Answers c .nextBack (.tree (some t)) d
  | noNextBack (exhausted : c.remaining = []) : Answers c .nextBack (.tree none) c
  | length : Answers c .length (.count c.remaining.length) c
  | child (i : Nat) : Answers c (.child i) (.tree c.items[i]?) c

theorem answers (r : Request) : Answers c r (c.answer r).1 (c.answer r).2 := by
  cases r with
  | next =>
    by_cases h : c.front = c.back
    · rw [answer, next_exhausted c h]
      exact .noNext ((remaining_eq_nil c).2 h)
    · obtain ⟨t, found, narrowed⟩ := next_yields c h
      rw [answer, found]
      exact .next narrowed
  | nextBack =>
    by_cases h : c.front = c.back
    · rw [answer, nextBack_exhausted c h]
      exact .noNextBack ((remaining_eq_nil c).2 h)
    · obtain ⟨t, found, narrowed⟩ := nextBack_yields c h
      rw [answer, found]
      exact .nextBack narrowed
  | length =>
    rw [answer, ← length_remaining]
    exact .length
  | child i => exact .child i

variable {c}

theorem Answers.narrowed {d : Children α} {r : Request} {a : Answer α} (h : Answers c r a d) :
    Narrowed c d (atFront? (r, a)).toList (atBack? (r, a)).toList := by
  cases h with
  | next taken => exact taken
  | nextBack taken => exact taken
  | noNext _ | noNextBack _ | length | child i => exact .refl c

theorem Answers.eq_queueAnswer {d : Children α} {r : Request} {a : Answer α}
    (h : Answers c r a d) : queueAnswer c.items c.remaining r = (a, d.remaining) := by
  cases h with
  | next taken => simp [queueAnswer, taken.whole]
  | nextBack taken => simp [queueAnswer, taken.whole]
  | noNext exhausted => simp [queueAnswer, exhausted]
  | noNextBack exhausted => simp [queueAnswer, exhausted]
  | length | child i => rfl

variable (c)

theorem run_eq_queueRun (rs : List Request) : c.run rs = queueRun c.items c.remaining rs := by
  induction rs generalizing c with
  | nil => rfl
  | cons r rs ih =>
    have step := answers c r
    rw [run, queueRun, step.eq_queueAnswer, ih (c.answer r).2, step.narrowed.items]

theorem narrowed_after (rs : List Request) :
    Narrowed c (c.after rs) (takenFront rs (c.run rs)) (takenBack rs (c.run rs)) := by
  have taken {kind : Request × Answer α → Option (Tree α)} (r : Request) (a : Answer α)
      (rs : List Request) (as : List (Answer α)) :
      ((r :: rs).zip (a :: as)).filterMap kind =
        (kind (r, a)).toList ++ (rs.zip as).filterMap kind := by
    rw [List.zip_cons_cons, List.filterMap_cons]
    cases kind (r, a) <;> rfl
  induction rs generalizing c with
  | nil => exact .refl c
  | cons r rs ih =>
    rw [after, run, takenFront, takenBack, taken, taken]
    exact (answers c r).narrowed.trans (ih (c.answer r).2)

theorem run_append (rs more : List Request) :
    c.run (rs ++ more) = c.run rs ++ (c.after rs).run more := by
  induction rs generalizing c with
  | nil => rfl
  | cons r rs ih => rw [List.cons_append, run, run, after, ih, List.cons_append]

theorem queueRun_nil (ts : List (Tree α)) (rs : List Request) :
    queueRun ts [] rs = rs.map (exhaustedAnswer ts) := by
  induction rs with
  | nil => rfl
  | cons r rs ih => cases r <;> exact congrArg _ ih

end

/-- Any run of requests is answered as by a queue of the children. The children given out at the
front, those left, and those given out at the back are all children in their order, so none is given
out twice; the two cursors count what was given out, and their distance is the number of those left.
When none is left, both ends stay empty. -/
theorem run_as_queue (t : Tree α) (rs : List Request) :
    (ofTree t).run rs = queueRun t.children t.children rs ∧
    (∃ fronts backs rest : List (Tree α), fronts = takenFront rs ((ofTree t).run rs) ∧
      backs = takenBack rs ((ofTree t).run rs) ∧ t.children = fronts ++ rest ++ backs.reverse ∧
      ((ofTree t).after rs).length = rest.length ∧
      ((ofTree t).after rs).front = fronts.length ∧
      ((ofTree t).after rs).back + backs.length = t.children.length ∧
      ((ofTree t).after rs).front + ((ofTree t).after rs).length = ((ofTree t).after rs).back) ∧
    ∀ more, (ofTree t).run (rs ++ more) = (ofTree t).run rs ++ ((ofTree t).after rs).run more ∧
      (((ofTree t).after rs).length = 0 →
        ((ofTree t).after rs).run more = more.map (exhaustedAnswer t.children)) := by
  have narrowed := narrowed_after (ofTree t) rs
  have ordered := ((ofTree t).after rs).front_le_back
  refine ⟨?_, ⟨_, _, ((ofTree t).after rs).remaining, rfl, rfl, ?_, ?_, ?_, narrowed.back, ?_⟩, ?_⟩
  · rw [run_eq_queueRun, remaining_ofTree]
    rfl
  · rw [← narrowed.whole, remaining_ofTree]
  · rw [length_remaining]
  · rw [narrowed.front]
    exact Nat.zero_add _
  · rw [length]
    omega
  · refine fun more => ⟨run_append (ofTree t) rs more, fun none => ?_⟩
    rw [← length_remaining, List.length_eq_zero_iff] at none
    rw [run_eq_queueRun, none, queueRun_nil, narrowed.items]
    rfl

end TreeRules.Children
