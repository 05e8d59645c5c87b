import SharedBuffer.Proofs.Refusal

/-!
Comparing what two buffers hold for reading. Byte strings are ordered by the first place where they
differ, and a beginning comes before the whole. Main statement: of two buffers in use the order of
their readable bytes is found, one way round as the other, and they are the same exactly if that
order says so; of a released buffer nothing is compared, though regions of different lengths are
still told apart.
-/

namespace SharedBuffer

namespace Bytes

/-- The first string is a proper beginning of the second, or has the smaller byte in the first place
where the two differ. -/
inductive Precedes : Bytes → Bytes → Prop
  | beginning (u : Bytes) {t : Bytes} (ht : t ≠ []) : Precedes u (u ++ t)
  | difference (w : Bytes) {p q : UInt8} (hpq : p < q) (s t : Bytes) :
    Precedes (w ++ p :: s) (w ++ q :: t)

variable {u v : Bytes} {r s : Ordering}

theorem Precedes.cons (h : Precedes u v) (p : UInt8) : Precedes (p :: u) (p :: v) := by
  cases h with
  | beginning _ ht => exact .beginning (p :: u) ht
  | difference w hpq s t => exact .difference (p :: w) hpq s t

theorem precedes_of_lt (h : u < v) : Precedes u v := by
  change List.Lex (· < ·) u v at h
  induction h with
  | nil => exact .beginning [] (List.cons_ne_nil _ _)
  | rel hpq => exact .difference [] hpq _ _
  | cons _ ih => exact ih.cons _

theorem Precedes.lt (h : Precedes u v) : u < v := by
  change List.Lex (· < ·) u v
  cases h with
  | beginning _ ht =>
    induction u with
    | nil =>
      obtain ⟨p, t, rfl⟩ := List.exists_cons_of_ne_nil ht
      exact .nil
    | cons p u ih => exact .cons ih
  | difference w hpq s t =>
    induction w with
    | nil => exact .rel hpq
    | cons p w ih => exact .cons ih

theorem lt_iff_precedes : u < v ↔ Precedes u v := ⟨precedes_of_lt, Precedes.lt⟩

def Stands (u v : Bytes) : Ordering → Prop
  | .lt => Precedes u v
  | .eq => u = v
  | .gt => Precedes v u

theorem stands_iff : Stands u v r ↔ r = compareOfLessAndEq u v := by
  rw [eq_comm]
  cases r with
  | lt => exact (compareOfLessAndEq_eq_lt.trans lt_iff_precedes).symm
  | eq => exact (compareOfLessAndEq_eq_eq List.le_refl List.not_le).symm
  | gt =>
    have hgt : compareOfLessAndEq u v = .gt ↔ v < u :=
      compareOfLessAndEq_eq_gt List.le_antisymm List.le_total List.not_le u v
    exact (hgt.trans lt_iff_precedes).symm

theorem compare_swap (u v : Bytes) :
    compareOfLessAndEq v u = (compareOfLessAndEq u v).swap :=
  compareOfLessAndEq_eq_swap List.le_antisymm List.le_total List.not_le

end Bytes

namespace Buffer

variable {b o : Buffer} {ours theirs : Bytes}

theorem compareContent_eq (hours : b.content = .ok ours) (htheirs : o.content = .ok theirs) :
    b.compareContent o = .ok (compareOfLessAndEq ours theirs) := by
  rw [compareContent, htheirs, hours]
  rfl

theorem sameContent_eq (hours : b.content = .ok ours) (htheirs : o.content = .ok theirs) :
    b.sameContent o = .ok (compareOfLessAndEq ours theirs == .eq) := by
  rw [sameContent, compareContent_eq hours htheirs]
  by_cases hlen : b.handle.readable = o.handle.readable
  · rw [if_pos hlen]
    rfl
  · have hne : ours ≠ theirs := by
      rintro rfl
      exact hlen ((length_of_read hours).symm.trans (length_of_read htheirs))
    have hdiffer : compareOfLessAndEq ours theirs ≠ .eq := fun heq =>
      hne (Bytes.stands_iff.2 heq.symm)
    rw [if_neg hlen, beq_false_of_ne hdiffer]

theorem compareContent_of_some_released (ho : o.Valid)
    (h : ¬(0 < b.group.count ∧ 0 < o.group.count)) : b.compareContent o = .error .released := by
  by_cases hours : b.group.count = 0
  · exact compareContent_of_released hours ho
  · exact compareContent_with_released (by omega)

theorem sameContent_of_some_released (ho : o.Valid)
    (h : ¬(0 < b.group.count ∧ 0 < o.group.count)) :
    b.sameContent o =
      if b.handle.readable = o.handle.readable then .error .released else .ok false := by
  rw [sameContent, compareContent_of_some_released ho h]
  rfl

end Buffer

namespace Exchange

open Arena (Seat)

variable {a : Arena} {name other : String} {m mo : Member} {e eo : Estate} {p po : Pool}

theorem question_of_seat (hs : a.Seat name m e p) (ho : a.Seat other mo eo po) {α β : Type}
    (g : Buffer → Buffer → Except Fault α) (f : α → β) :
    (do
      let o ← Action.ask (Arena.buffer other)
      let b ← Action.ask (Arena.buffer name)
      f <$> Arena.lift (Action.ask fun _ => g b o) : Action Failure Arena β) a =
      ⟨((g (a.bufferOf name m e p) (a.bufferOf other mo eo po)).mapError .fault).map f, a, []⟩ := by
  refine (Action.ask_bind_of_ok (Arena.buffer_of_seat ho)).trans ?_
  refine (Action.ask_bind_of_ok (Arena.buffer_of_seat hs)).trans ?_
  cases g (a.bufferOf name m e p) (a.bufferOf other mo eo po) with
  | error fault => rfl
  | ok v => rfl

theorem run_of_seats (hs : a.Seat name m e p) (ho : a.Seat other mo eo po) {x : Exchange}
    (hx : x.compares = true) : x.run name other a = answer name other x a := by
  refine (Action.ask_bind_of_ok (Arena.buffer_of_seat ho)).trans ?_
  refine (Action.ask_bind_of_ok (Arena.buffer_of_seat hs)).trans ?_
  rw [if_neg]
  rintro ⟨-, hother⟩
  rw [hx] at hother
  cases hother

end Exchange

namespace Arena

variable {a : Arena} {name other : String} {b o : Buffer}

/-- Both commands answer by the comparison of the two buffers and leave everything as it is. Both
buffers in use, the order of their readable bytes is found, the reverse of it the other way round,
and they are the same if it says so. One of them released, the order is refused; whether they are the
same is refused with it just if the readable lengths do not tell them apart. -/
theorem Reachable.comparisons_agree_iff (h : a.Reachable) (hb : a.buffer name = .ok b)
    (ho : a.buffer other = .ok o) :
    let live := 0 < b.group.count ∧ 0 < o.group.count
    ((b.sameContent o).isOk = (b.compareContent o).isOk ↔
        live ∨ b.handle.readable = o.handle.readable) ∧
      (live → ∃ ours theirs r, b.content = .ok ours ∧ o.content = .ok theirs ∧
        (∀ s, Bytes.Stands ours theirs s ↔ s = r) ∧ b.compareContent o = .ok r ∧
        o.compareContent b = .ok r.swap ∧ b.sameContent o = .ok (r == .eq)) ∧
      (¬live → b.compareContent o = .error .released ∧
        b.sameContent o =
          if b.handle.readable = o.handle.readable then .error .released else .ok false) ∧
      (Command.exchange name other .compare).run a =
        ⟨((b.compareContent o).mapError .fault).map .order, a, []⟩ ∧
      (Command.exchange name other .equals).run a =
        ⟨((b.sameContent o).mapError .fault).map .flag, a, []⟩ := by
  intro live
  have hbv := h.valid.of_buffer hb
  have hov := h.valid.of_buffer ho
  have hlive : live → ∃ ours theirs, b.content = .ok ours ∧ o.content = .ok theirs := by
    intro ⟨hours, htheirs⟩
    obtain ⟨ours, hours⟩ := Buffer.content_of_live hbv hours
    obtain ⟨theirs, htheirs⟩ := Buffer.content_of_live hov htheirs
    exact ⟨ours, theirs, hours, htheirs⟩
  refine ⟨?agree, ?compared, ?released, ?answered⟩
  case agree =>
    by_cases hboth : live
    · obtain ⟨ours, theirs, hours, htheirs⟩ := hlive hboth
      rw [Buffer.sameContent_eq hours htheirs, Buffer.compareContent_eq hours htheirs]
      exact iff_of_true rfl (.inl hboth)
    · rw [Buffer.sameContent_of_some_released hov hboth,
        Buffer.compareContent_of_some_released hov hboth]
      by_cases hlen : b.handle.readable = o.handle.readable
      · rw [if_pos hlen]
        exact iff_of_true rfl (.inr hlen)
      · rw [if_neg hlen]
        exact iff_of_false Bool.true_eq_false.mp (not_or.2 ⟨hboth, hlen⟩)
  case compared =>
    intro hboth
    obtain ⟨ours, theirs, hours, htheirs⟩ := hlive hboth
    refine ⟨ours, theirs, compareOfLessAndEq ours theirs, hours, htheirs, ?_, ?_, ?_, ?_⟩
    · exact fun s => Bytes.stands_iff
    · exact Buffer.compareContent_eq hours htheirs
    · rw [← Bytes.compare_swap]
      exact Buffer.compareContent_eq htheirs hours
    · exact Buffer.sameContent_eq hours htheirs
  case released =>
    intro hnone
    exact ⟨Buffer.compareContent_of_some_released hov hnone,
      Buffer.sameContent_of_some_released hov hnone⟩
  case answered =>
    obtain ⟨m, e, p, hs, rfl⟩ := seat_of_buffer h.valid hb
    obtain ⟨mo, eo, po, hso, rfl⟩ := seat_of_buffer h.valid ho
    exact ⟨(Exchange.run_of_seats hs hso rfl).trans
        (Exchange.question_of_seat hs hso Buffer.compareContent Answer.order),
      (Exchange.run_of_seats hs hso rfl).trans
        (Exchange.question_of_seat hs hso Buffer.sameContent Answer.flag)⟩

def parted : Arena :=
  after {} [.make (.adopt [1, 2, 3]) "whole", .derive "whole" (.slice (.within 0 2)) "part"]

theorem reachable_parted : parted.Reachable := ⟨_, _, by decide, rfl⟩

theorem comparisons_agree_parted :
    (Command.exchange "part" "whole" .compare).run parted = ⟨.ok (.order .lt), parted, []⟩ ∧
      (Command.exchange "part" "whole" .equals).run parted = ⟨.ok (.flag false), parted, []⟩ := by
  have hpart : parted.buffer "part" = .ok ⟨⟨0, 2, 2, .between 0 2, false, false, .slice⟩,
    .holding ⟨.heap, [1, 2, 3], defaultMaxCapacity⟩, .plain {}, true⟩ := rfl
  have hwhole : parted.buffer "whole" = .ok ⟨.root 3 defaultMaxCapacity 3 true,
    .holding ⟨.heap, [1, 2, 3], defaultMaxCapacity⟩, .plain {}, true⟩ := rfl
  obtain ⟨-, hlive, -, horder, hflag⟩ := reachable_parted.comparisons_agree_iff hpart hwhole
  obtain ⟨ours, theirs, r, hours, htheirs, hstands, hcompare, -, hsame⟩ := hlive (by decide)
  cases hours
  cases htheirs
  have hlt : .lt = r := (hstands .lt).1 (.beginning [1, 2] (List.cons_ne_nil 3 []))
  rw [horder, hflag, hcompare, hsame, ← hlt]
  exact ⟨rfl, rfl⟩

def partedReleased : Arena := ((Command.change "whole" (.release 1)).run parted).state

/-- The readable lengths still tell the two apart, though nothing of either can be read. -/
theorem equality_answers_released :
    partedReleased.Reachable ∧ ∃ part whole, partedReleased.buffer "part" = .ok part ∧
      partedReleased.buffer "whole" = .ok whole ∧ part.compareContent whole = .error .released ∧
      part.sameContent whole = .ok false := by
  refine ⟨reachable_parted.run (c := .change "whole" (.release 1)) trivial, _, _, rfl, rfl, ?_⟩
  exact ⟨rfl, rfl⟩

end Arena

end SharedBuffer
