import SharedBuffer.Buffer.Basic

/-!
What holds of every buffer between two operations: the indexes are in order, indexes and marks are
within the window, the window lies in the storage as long as the group is not released, and all sizes
are words. Main
statements: on a valid buffer the window is never detached from its storage, so that a range is
read or overwritten exactly if the buffer is accessible and the range lies in the window.
-/

namespace SharedBuffer

theorem except_bind_eq_ok {ε α β : Type} {x : Except ε α} {f : α → Except ε β} {b : β} :
    x >>= f = .ok b ↔ ∃ a, x = .ok a ∧ f a = .ok b := by
  cases x with
  | error e => simp [bind, Except.bind]
  | ok a => simp [bind, Except.bind]

theorem except_bind_eq_error {ε α β : Type} {x : Except ε α} {f : α → Except ε β} {e : ε} :
    x >>= f = .error e ↔ x = .error e ∨ ∃ a, x = .ok a ∧ f a = .error e := by
  cases x with
  | error e => simp [bind, Except.bind]
  | ok a => simp [bind, Except.bind]

theorem except_map_eq_ok {ε α β : Type} {x : Except ε α} {f : α → β} {b : β} :
    x.map f = .ok b ↔ ∃ a, x = .ok a ∧ f a = b := by
  cases x with
  | error e => simp [Except.map]
  | ok a => simp [Except.map]

theorem except_map_eq_error {ε α β : Type} {x : Except ε α} {f : α → β} {e : ε} :
    f <$> x = .error e ↔ x = .error e := by
  cases x with
  | error e => simp [Functor.map, Except.map]
  | ok a => simp [Functor.map, Except.map]

namespace Fault

def Foreseen : Fault → Prop
  | .windowDetached .. => False
  | _ => True

end Fault

def Sound {α : Type} (x : Except Fault α) : Prop := ∀ f, x = .error f → f.Foreseen

section Sound

variable {α β : Type} {x : Except Fault α}

theorem sound_ok (a : α) : Sound (.ok a : Except Fault α) := by
  intro f hf
  simp at hf

theorem sound_error {f : Fault} (hf : f.Foreseen) : Sound (.error f : Except Fault α) := by
  intro g hg
  cases hg
  exact hf

theorem Sound.bind {f : α → Except Fault β} (hx : Sound x) (hf : ∀ a, x = .ok a → Sound (f a)) :
    Sound (x >>= f) := by
  intro e he
  rcases except_bind_eq_error.1 he with he | ⟨a, ha, he⟩
  · exact hx e he
  · exact hf a ha e he

theorem Sound.map (hx : Sound x) (f : α → β) : Sound (f <$> x) := by
  intro e he
  exact hx e (except_map_eq_error.1 he)

theorem Sound.ite {c : Prop} [Decidable c] {y : Except Fault α} (hx : c → Sound x)
    (hy : ¬c → Sound y) : Sound (if c then x else y) := by
  split
  · next h => exact hx h
  · next h => exact hy h

theorem sound_checkBounds (index length capacity : Nat) :
    Sound (checkBounds index length capacity) := by
  simp only [checkBounds]
  exact .ite (fun _ => sound_ok _) (fun _ => sound_error trivial)

end Sound

structure Cursor.Within (c : Cursor) (capacity : Nat) : Prop where
  reader_le_writer : c.reader ≤ c.writer
  writer_le : c.writer ≤ capacity
  markedReader_le : c.markedReader ≤ capacity
  markedWriter_le : c.markedWriter ≤ capacity

namespace Cursor

theorem within_between {r w n : Nat} (hr : r ≤ w) (hw : w ≤ n) : (between r w).Within n :=
  ⟨hr, hw, Nat.zero_le n, Nat.zero_le n⟩

theorem Within.advanceReader {c : Cursor} {n k : Nat} (h : c.Within n) (hk : k ≤ c.readable) :
    (c.advanceReader k).Within n := by
  have hrw := h.reader_le_writer
  simp only [readable] at hk
  exact ⟨by simp only [Cursor.advanceReader]; omega, h.writer_le, h.markedReader_le,
    h.markedWriter_le⟩

theorem Within.advanceWriter {c : Cursor} {n k : Nat} (h : c.Within n) (hk : c.writer + k ≤ n) :
    (c.advanceWriter k).Within n :=
  ⟨Nat.le_trans h.reader_le_writer (Nat.le_add_right _ _), hk, h.markedReader_le, h.markedWriter_le⟩

theorem Within.clear {c : Cursor} {n : Nat} (h : c.Within n) : c.clear.Within n :=
  ⟨Nat.le_refl 0, Nat.zero_le n, h.markedReader_le, h.markedWriter_le⟩

theorem Within.markReader {c : Cursor} {n : Nat} (h : c.Within n) : c.markReader.Within n :=
  ⟨h.reader_le_writer, h.writer_le, Nat.le_trans h.reader_le_writer h.writer_le, h.markedWriter_le⟩

theorem Within.markWriter {c : Cursor} {n : Nat} (h : c.Within n) : c.markWriter.Within n :=
  ⟨h.reader_le_writer, h.writer_le, h.markedReader_le, h.writer_le⟩

theorem Within.shift {c : Cursor} {n : Nat} (h : c.Within n) (k : Nat) : (c.shift k).Within n :=
  ⟨reader_le_writer_shift h.reader_le_writer k, Nat.le_trans (Nat.sub_le _ _) h.writer_le,
    Nat.le_trans (Nat.sub_le _ _) h.markedReader_le, Nat.le_trans (Nat.sub_le _ _) h.markedWriter_le⟩

theorem Within.mono {c : Cursor} {m n : Nat} (h : c.Within m) (hmn : m ≤ n) : c.Within n :=
  ⟨h.reader_le_writer, Nat.le_trans h.writer_le hmn, Nat.le_trans h.markedReader_le hmn,
    Nat.le_trans h.markedWriter_le hmn⟩

theorem within_truncate (c : Cursor) (n : Nat) : (c.truncate n).Within n :=
  ⟨reader_le_writer_truncate c n, writer_truncate_le c n,
    Nat.le_trans (Nat.min_le_right _ _) (Nat.min_le_right _ _), Nat.min_le_right _ _⟩

theorem setIndexes_eq_ok {c c' : Cursor} {r w n : Nat} (hc : c.Within n)
    (h : c.setIndexes r w n = .ok c') : c'.Within n ∧ c' = { c with reader := r, writer := w } := by
  simp only [setIndexes] at h
  split at h
  · next hw =>
    cases h
    exact ⟨⟨hw.1, hw.2, hc.markedReader_le, hc.markedWriter_le⟩, rfl⟩
  · simp at h

theorem sound_setIndexes (c : Cursor) (r w n : Nat) : Sound (c.setIndexes r w n) := by
  simp only [setIndexes]
  exact .ite (fun _ => sound_ok _) (fun _ => sound_error trivial)

theorem checkReadable_eq_ok_iff {c : Cursor} {n : Nat} :
    c.checkReadable n = .ok () ↔ n ≤ c.readable := by
  simp only [checkReadable]
  split
  · next h => exact ⟨fun _ => h, fun _ => rfl⟩
  · next h =>
    simp only [reduceCtorEq, false_iff]
    exact h

theorem sound_checkReadable (c : Cursor) (n : Nat) : Sound (c.checkReadable n) := by
  simp only [checkReadable]
  exact .ite (fun _ => sound_ok _) (fun _ => sound_error trivial)

end Cursor

structure Handle.Valid (h : Handle) : Prop where
  cursor : h.cursor.Within h.capacity
  capacity_le_max : h.capacity ≤ h.maxCapacity
  max_le_largest : h.maxCapacity ≤ Word.largest
  slice_fixed : h.origin = .slice → h.capacity = h.maxCapacity
  offset_zero : h.origin ≠ .slice → h.offset = 0

theorem Handle.Valid.capacity_le_largest {h : Handle} (hv : h.Valid) :
    h.capacity ≤ Word.largest :=
  Nat.le_trans hv.capacity_le_max hv.max_le_largest

structure Storage.Valid (s : Storage) : Prop where
  capacity_le_max : s.capacity ≤ s.maxCapacity
  max_le_largest : s.maxCapacity ≤ Word.largest

/-- The window of the handle lies in the storage, and only a slice is less than it may become. -/
structure Handle.On (h : Handle) (s : Storage) : Prop where
  window_le : h.offset + h.capacity ≤ s.capacity
  max_eq : h.origin ≠ .slice → h.maxCapacity = s.maxCapacity

theorem Storage.Valid.capacity_le_largest {s : Storage} (h : s.Valid) : s.capacity ≤ Word.largest :=
  Nat.le_trans h.capacity_le_max h.max_le_largest

theorem Storage.Valid.min_le_largest {s : Storage} (h : s.Valid) (n : Nat) :
    min s.capacity n ≤ Word.largest :=
  Nat.le_trans (Nat.min_le_left _ _) h.capacity_le_largest

structure Group.Valid (g : Group) : Prop where
  count_le : g.count ≤ Word.largest
  storage : ∀ s, g.storage = some s → s.Valid ∧ s.kind = g.kind
  live : ∀ s, g.storage = some s → 0 < g.count

def Pool.Valid (p : Pool) : Prop :=
  ∀ l, p.freeList = some l → ∀ s ∈ l.parked, 0 < s.capacity ∧ s.bytes = Bytes.zeros s.capacity

namespace Buffer

structure Valid (b : Buffer) : Prop where
  handle : b.handle.Valid
  group : b.group.Valid
  pool : b.pool.Valid
  window : 0 < b.group.count → ∃ s, b.group.storage = some s ∧ b.handle.On s

variable {b b' : Buffer}

theorem Valid.on (hb : b.Valid) {s : Storage} (hs : b.group.storage = some s) : b.handle.On s := by
  obtain ⟨t, ht, hon⟩ := hb.window (hb.group.live s hs)
  rw [hs] at ht
  cases ht
  exact hon

theorem readable_le (hb : b.Valid) : b.handle.reader + b.handle.readable ≤ b.handle.capacity := by
  have hrw := hb.handle.cursor.reader_le_writer
  have hwc := hb.handle.cursor.writer_le
  simp only [Handle.reader, Handle.readable, Cursor.readable]
  omega

theorem sound_checkLive (b : Buffer) : Sound b.checkLive := by
  simp only [checkLive]
  exact .ite (fun _ => sound_error trivial) (fun _ => sound_ok _)

theorem sound_checkMutable (b : Buffer) : Sound b.checkMutable := by
  simp only [checkMutable]
  exact b.sound_checkLive.bind fun _ _ => .ite (fun _ => sound_error trivial) (fun _ => sound_ok _)

theorem sound_heldStorage (b : Buffer) : Sound b.heldStorage := by
  simp only [heldStorage]
  split
  · exact sound_error trivial
  · exact sound_ok _

theorem heldStorage_eq_ok {s : Storage} : b.heldStorage = .ok s ↔ b.group.storage = some s := by
  simp only [heldStorage]
  split
  · next h => simp [h]
  · next h => simp [h]

theorem locate_eq_ok {i n start : Nat} {s : Storage} (h : b.locate i n = .ok (s, start)) :
    i + n ≤ b.handle.capacity ∧ b.group.storage = some s ∧ start = b.handle.offset + i ∧
      start + n ≤ s.capacity := by
  rw [locate] at h
  obtain ⟨⟨⟩, hbounds, h⟩ := except_bind_eq_ok.1 h
  obtain ⟨t, ht, h⟩ := except_bind_eq_ok.1 h
  simp only [checkBounds] at hbounds
  split at hbounds
  · next hin =>
    dsimp only at h
    split at h
    · next hle =>
      cases h
      exact ⟨hin.1, heldStorage_eq_ok.1 ht, rfl, hle⟩
    · simp at h
  · simp at hbounds

theorem Valid.sound_locate (hb : b.Valid) (live : 0 < b.group.count) (i n : Nat) :
    Sound (b.locate i n) := by
  obtain ⟨s, hs, hon⟩ := hb.window live
  have hw := hon.window_le
  simp only [locate]
  refine (sound_checkBounds _ _ _).bind fun _ hbounds => b.sound_heldStorage.bind fun t ht => ?_
  rw [heldStorage_eq_ok, hs] at ht
  cases ht
  have hin : i + n ≤ b.handle.capacity :=
    (checkBounds_eq_ok_iff hb.handle.capacity_le_largest).1 hbounds
  refine .ite (fun _ => sound_ok _) fun hout => ?_
  exact absurd (by omega) hout

theorem Valid.locate_of_le (hb : b.Valid) {s : Storage} (hs : b.group.storage = some s) {i n : Nat}
    (hin : i + n ≤ b.handle.capacity) : b.locate i n = .ok (s, b.handle.offset + i) := by
  have hw := (hb.on hs).window_le
  have hbounds : checkBounds i n b.handle.capacity = .ok () :=
    (checkBounds_eq_ok_iff hb.handle.capacity_le_largest).2 hin
  have hfit : b.handle.offset + i + n ≤ s.capacity := by omega
  simp only [locate, hbounds, heldStorage_eq_ok.2 hs, bind, Except.bind, if_pos hfit]

theorem read_eq_ok {i n : Nat} {bytes : Bytes} (h : b.read i n = .ok bytes) :
    0 < b.group.count ∧ i + n ≤ b.handle.capacity ∧
      ∃ s, b.group.storage = some s ∧ b.handle.offset + i + n ≤ s.capacity ∧
        bytes = s.bytes.window (b.handle.offset + i) n := by
  simp only [read] at h
  obtain ⟨⟨⟩, hlive, h⟩ := except_bind_eq_ok.1 h
  obtain ⟨⟨s, start⟩, hloc, h⟩ := except_bind_eq_ok.1 h
  obtain ⟨hin, hs, rfl, hle⟩ := locate_eq_ok hloc
  cases h
  exact ⟨(checkLive_eq_ok_iff b).1 hlive, hin, s, hs, hle, rfl⟩

theorem length_of_read {i n : Nat} {bytes : Bytes} (h : b.read i n = .ok bytes) :
    bytes.length = n := by
  obtain ⟨-, -, s, -, hle, rfl⟩ := read_eq_ok h
  exact Bytes.length_window hle

theorem Valid.sound_read (hb : b.Valid) (i n : Nat) : Sound (b.read i n) := by
  simp only [read]
  apply b.sound_checkLive.bind
  intro _ hlive
  exact (hb.sound_locate ((checkLive_eq_ok_iff b).1 hlive) i n).bind fun _ _ => sound_ok _

theorem Valid.read_of_le (hb : b.Valid) {s : Storage} (hs : b.group.storage = some s) {i n : Nat}
    (hin : i + n ≤ b.handle.capacity) :
    b.read i n = .ok (s.bytes.window (b.handle.offset + i) n) := by
  have hlive : b.checkLive = .ok () := (checkLive_eq_ok_iff b).2 (hb.group.live s hs)
  simp only [read, hlive, hb.locate_of_le hs hin, bind, Except.bind, pure, Except.pure]

def patch (start : Nat) (data : Bytes) (s : Storage) (b : Buffer) : Buffer :=
  b.setStorage { s with bytes := s.bytes.splice start data }

theorem overwrite_eq_ok {i n : Nat} {data : Bytes} (h : b.overwrite i n data = .ok b') :
    0 < b.group.count ∧ b.handle.readOnly = false ∧ i + n ≤ b.handle.capacity ∧
      ∃ s, b.group.storage = some s ∧ b.handle.offset + i + n ≤ s.capacity ∧
        b' = b.patch (b.handle.offset + i) (data.take n) s := by
  simp only [overwrite] at h
  obtain ⟨⟨⟩, hmut, h⟩ := except_bind_eq_ok.1 h
  obtain ⟨⟨s, start⟩, hloc, h⟩ := except_bind_eq_ok.1 h
  obtain ⟨hin, hs, rfl, hle⟩ := locate_eq_ok hloc
  obtain ⟨hlive, hopen⟩ := (checkMutable_eq_ok_iff b).1 hmut
  cases h
  exact ⟨hlive, hopen, hin, s, hs, hle, rfl⟩

theorem Valid.sound_overwrite (hb : b.Valid) (i n : Nat) (data : Bytes) :
    Sound (b.overwrite i n data) := by
  simp only [overwrite]
  apply b.sound_checkMutable.bind
  intro _ hmut
  have hlive := ((checkMutable_eq_ok_iff b).1 hmut).1
  exact (hb.sound_locate hlive i n).bind fun _ _ => sound_ok _

theorem Valid.overwrite_of_le (hb : b.Valid) (hopen : b.handle.readOnly = false) {s : Storage}
    (hs : b.group.storage = some s) {i n : Nat} (hin : i + n ≤ b.handle.capacity) (data : Bytes) :
    b.overwrite i n data = .ok (b.patch (b.handle.offset + i) (data.take n) s) := by
  have hmut : b.checkMutable = .ok () :=
    (checkMutable_eq_ok_iff b).2 ⟨hb.group.live s hs, hopen⟩
  simp only [overwrite, hmut, hb.locate_of_le hs hin, bind, Except.bind, pure, Except.pure, patch]

end Buffer

end SharedBuffer
