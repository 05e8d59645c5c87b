import SharedBuffer.Proofs.Refitting

/-!
Setting the capacity of a handle outright. Main statement: the window gets the capacity that is asked
for, shows the same bytes as far as both windows reach, and has its reader, its writer and the mark of
the writer held within it. The mark of the reader is held behind the mark of the writer as well, which
takes it back where the two marks were set the other way round, also if the capacity grows.
-/

namespace SharedBuffer

namespace Cursor

def clamp (n : Nat) (c : Cursor) : Cursor :=
  ⟨min n c.reader, min n c.writer, min n c.markedReader, min n c.markedWriter⟩

variable {c : Cursor} {n : Nat}

theorem clamp_of_within (h : c.Within n) : c.clamp n = c := by
  have hreader := Nat.le_trans h.reader_le_writer h.writer_le
  simp only [clamp, Nat.min_eq_right hreader, Nat.min_eq_right h.writer_le,
    Nat.min_eq_right h.markedReader_le, Nat.min_eq_right h.markedWriter_le]

theorem truncate_eq (h : c.reader ≤ c.writer) (n : Nat) :
    c.truncate n =
      ⟨min n c.reader, min n c.writer, min (min n c.markedReader) c.markedWriter,
        min n c.markedWriter⟩ := by
  simp only [truncate, Cursor.mk.injEq]
  omega

theorem truncate_eq_clamp_iff (h : c.reader ≤ c.writer) :
    c.truncate n = c.clamp n ↔ min n c.markedReader ≤ c.markedWriter := by
  rw [truncate_eq h, clamp, Cursor.mk.injEq]
  omega

end Cursor

namespace Buffer

open SharedBuffer.Action (meets_bind current_bind ask_bind_of_ok)

/-- The marks stay in order at the capacity `n`, or the capacity is what it was. -/
def MarksInOrder (n : Nat) (b : Buffer) : Prop :=
  n = b.handle.capacity ∨ min n b.handle.cursor.markedReader ≤ b.handle.cursor.markedWriter

structure Adjusted (n : Nat) (b c : Buffer) : Prop where
  capacity : c.handle.capacity = n
  reader : c.handle.cursor.reader = min n b.handle.cursor.reader
  writer : c.handle.cursor.writer = min n b.handle.cursor.writer
  markedWriter : c.handle.cursor.markedWriter = min n b.handle.cursor.markedWriter
  shown : ∃ bytes, b.read 0 (min b.handle.capacity n) = .ok bytes ∧
    c.read 0 (min b.handle.capacity n) = .ok bytes
  storage : ∃ s t, b.group.storage = some s ∧ c.group.storage = some t ∧
    (t.capacity < s.capacity → b.shared = false)

variable {b c : Buffer} {s : Storage} {n : Nat}

theorem adjusted_self (hb : b.Valid) (live : 0 < b.group.count) : b.Adjusted b.handle.capacity b := by
  have hcursor := Cursor.clamp_of_within hb.handle.cursor
  obtain ⟨s, hs, -⟩ := hb.window live
  have hretains : b.Retains (min b.handle.capacity b.handle.capacity) b := fun _ _ _ => rfl
  exact ⟨rfl, (congrArg Cursor.reader hcursor).symm, (congrArg Cursor.writer hcursor).symm,
    (congrArg Cursor.markedWriter hcursor).symm, hretains.shown hb live (Nat.min_le_left _ _),
    s, s, hs, hs, fun hless => absurd hless (Nat.lt_irrefl _)⟩

theorem Refitted.shrinks (h : b.Refitted n s c) (hs : b.group.storage = some s) :
    ∃ s t, b.group.storage = some s ∧ c.group.storage = some t ∧
      (t.capacity < s.capacity → b.shared = false) := by
  refine ⟨s, s.refit (b.extent n s), hs, by rw [h.group], fun hless => ?_⟩
  rw [Storage.capacity_refit, extent] at hless
  split at hless
  · have hle := Nat.le_max_left s.capacity n
    omega
  · next hshared => exact Bool.eq_false_iff.2 hshared

theorem Refitted.cursor_truncate (h : b.Refitted n s c) :
    (c.moveCursor (Cursor.truncate n)).handle.cursor = b.handle.cursor.truncate n := by
  change c.handle.cursor.truncate n = _
  rw [h.handle]

theorem Refitted.adjusted (h : b.Refitted n s c) (hb : b.Valid) (hs : b.group.storage = some s)
    (hretains : b.Retains (min b.handle.capacity n) c) :
    b.Adjusted n (c.moveCursor (Cursor.truncate n)) := by
  have live := hb.group.live s hs
  have hcursor := h.cursor_truncate
  rw [Cursor.truncate_eq hb.handle.cursor.reader_le_writer] at hcursor
  exact ⟨congrArg Handle.capacity h.handle, congrArg Cursor.reader hcursor,
    congrArg Cursor.writer hcursor, congrArg Cursor.markedWriter hcursor,
    hretains.shown hb live (Nat.min_le_left _ _), h.shrinks hs⟩

theorem changeCapacity_meets (hb : b.Valid) (live : 0 < b.group.count)
    (hopen : b.handle.readOnly = false) (hfree : b.handle.origin ≠ .slice)
    (hn : n ≤ b.handle.maxCapacity) :
    (changeCapacity n b).Meets
      (fun _ c _ => c.shared = b.shared ∧ b.Adjusted n c ∧
        (c.handle.cursor = b.handle.cursor.clamp n ↔ b.MarksInOrder n))
      fun f _ _ => Storage.checkKind b.pool.system b.group.kind n = .error f := by
  obtain ⟨s, hs, -⟩ := hb.window live
  have hcheck : b.checkCapacity n = .ok () :=
    checkCapacity_eq_ok_iff.2 ⟨(checkMutable_eq_ok_iff b).2 ⟨live, hopen⟩, hfree, hn⟩
  simp only [changeCapacity]
  rw [current_bind, ask_bind_of_ok hcheck]
  split
  · next hsame =>
    rw [hsame]
    exact ⟨rfl, adjusted_self hb live,
      fun _ => .inl rfl, fun _ => (Cursor.clamp_of_within hb.handle.cursor).symm⟩
  · next hother =>
    apply meets_bind
    refine ((resize_refits hb hs hfree hn).and (resize_retains hb hs hfree hn)).mono ?_
      fun _ _ _ h => h.1.1.1
    rintro _ c log ⟨hrefit, -, hretains⟩
    have hpositions : (c.moveCursor (Cursor.truncate n)).handle.cursor = b.handle.cursor.clamp n ↔
        b.MarksInOrder n := by
      rw [hrefit.cursor_truncate, Cursor.truncate_eq_clamp_iff hb.handle.cursor.reader_le_writer,
        MarksInOrder, or_iff_right hother]
    exact ⟨hrefit.shared, hrefit.adjusted hb hs hretains, hpositions⟩

end Buffer

namespace Arena

variable {a : Arena} {name : String} {b : Buffer} {n : Nat}

/-- Where the storage can be had, the capacity of a handle that may change it is set. All that
belongs to the handle stays as far as it lies within the new capacity, but the mark of the reader
does so only if it is not taken back to that of the writer. -/
theorem Reachable.capacity_adjusted (h : a.Reachable) (hb : a.buffer name = .ok b)
    (live : 0 < b.group.count) (hopen : b.handle.readOnly = false)
    (hfree : b.handle.origin ≠ .slice) (hn : n ≤ b.handle.maxCapacity) :
    ((Command.change name (.changeCapacity n)).run a).Meets
      (fun _ a' _ => ∃ c, a'.buffer name = .ok c ∧ b.Adjusted n c ∧
        (c.handle.cursor = b.handle.cursor.clamp n ↔ b.MarksInOrder n))
      fun f _ _ => ∃ g, f = .fault g ∧ Storage.checkKind b.pool.system b.group.kind n = .error g := by
  obtain ⟨m, e, p, hs, rfl⟩ := seat_of_buffer h.valid hb
  have hmeets := Buffer.changeCapacity_meets (h.valid.buffer hs) live hopen hfree hn
  refine (hs.onBuffer_meets (Change.done_meets hmeets)).mono ?_ ?_
  · rintro _ _ log ⟨c, rfl, -, hshared, hadjusted⟩
    exact ⟨c, buffer_settle hs hshared, hadjusted⟩
  · rintro _ _ log ⟨c, -, g, rfl, hg⟩
    exact ⟨g, rfl, hg⟩

def doubled : Arena :=
  after {} [.make (.allocate 4 8) "root", .change "root" (.append [1, 2, 3]),
    .change "root" .markWriter, .derive "root" .duplicate "view"]

theorem capacity_adjusted_doubled :
    ∃ b c, doubled.buffer "root" = .ok b ∧ b.MarksInOrder 2 ∧
      ((Command.change "root" (.changeCapacity 2)).run doubled).state.buffer "root" = .ok c ∧
      b.Adjusted 2 c ∧ c.handle.cursor = b.handle.cursor.clamp 2 ∧
      c.handle.cursor = ⟨0, 2, 0, 2⟩ ∧ b.shared = true := by
  have hreach : doubled.Reachable := ⟨_, _, by decide, rfl⟩
  have hb : doubled.buffer "root" = .ok ⟨{ Handle.root 4 8 3 true with cursor := ⟨0, 3, 0, 3⟩ },
      .holding ⟨.heap, [1, 2, 3, 0], 8⟩, (Pool.lend .heap 4 8 (.plain {})).state, true⟩ := rfl
  have hmeets := hreach.capacity_adjusted hb (by decide) rfl (by decide) (show 2 ≤ 8 by decide)
  obtain ⟨c, hc, hadjusted, hpositions⟩ := hmeets.of_ok rfl
  have hcursor := hpositions.2 (.inr (by decide))
  exact ⟨_, c, hb, .inr (by decide), hc, hadjusted, hcursor, hcursor.trans rfl, rfl⟩

def marked : Arena :=
  after {} [.make (.allocate 4 8) "root", .change "root" (.append [1, 2]), .change "root" (.skip 2),
    .change "root" .markReader]

/-- The capacity grows from four to eight, and the mark at two is lost. -/
theorem growth_loses_mark :
    marked.Reachable ∧ ∃ b c, marked.buffer "root" = .ok b ∧ 0 < b.group.count ∧
      b.handle.readOnly = false ∧ b.handle.origin ≠ .slice ∧ 8 ≤ b.handle.maxCapacity ∧
      ((Command.change "root" (.changeCapacity 8)).run marked).result = .ok .done ∧
      ((Command.change "root" (.changeCapacity 8)).run marked).state.buffer "root" = .ok c ∧
      b.handle.capacity = 4 ∧ b.handle.cursor.markedReader = 2 ∧ c.handle.cursor.markedReader = 0 :=
  ⟨⟨_, _, by decide, rfl⟩, _, _, rfl, by decide, rfl, by decide, by decide, rfl, rfl, rfl, rfl, rfl⟩

end Arena

end SharedBuffer
