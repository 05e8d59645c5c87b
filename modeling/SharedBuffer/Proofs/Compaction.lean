import SharedBuffer.Proofs.Appending

/-!
Compaction, and what a mark of the reader index still finds afterwards. A buffer is compacted by moving the
readable bytes to the front of the window and all four positions with them. What the mark holds is what is
readable from there; the changes at the two indexes and the compactions before the mark add to it what they
write, and lose nothing of it.
-/

namespace SharedBuffer

namespace Cursor

def rewound (c : Cursor) : Cursor := { c with reader := c.markedReader }

theorem Within.rewound {c : Cursor} {n : Nat} (h : c.Within n) (hmark : c.markedReader ≤ c.writer) :
    c.rewound.Within n :=
  ⟨hmark, h.writer_le, h.markedReader_le, h.markedWriter_le⟩

theorem rewound_eq_advanceReader {c : Cursor} (h : c.reader ≤ c.markedReader) :
    c.rewound = c.advanceReader (c.markedReader - c.reader) := by
  rw [rewound, advanceReader, Nat.add_sub_cancel' h]

end Cursor

namespace Buffer

variable {b c : Buffer} {s : Storage} {n : Nat} {q data : Bytes}

/-- The readable bytes are now at the front of the window, the positions have moved with them as far as the
front lets them, and the storage is the same outside the place of the readable bytes. -/
structure Compacted (b c : Buffer) : Prop where
  handle : c.handle = { b.handle with
    cursor := ⟨0, b.handle.writer - b.handle.reader, b.handle.cursor.markedReader - b.handle.reader,
      b.handle.cursor.markedWriter - b.handle.reader⟩ }
  content : ∃ bytes, b.content = .ok bytes ∧ c.content = .ok bytes
  storage : ∃ s bytes, b.group.storage = some s ∧
    c.group = { b.group with storage := some { s with bytes } } ∧ bytes.length = s.capacity ∧
    ∀ p, p < b.handle.offset ∨ b.handle.offset + b.handle.readable ≤ p → bytes[p]? = s.bytes[p]?
  pool : c.pool = b.pool
  shared : c.shared = b.shared

section Compact

variable (hb : b.Valid) (live : 0 < b.group.count)
include hb live

theorem compacted_self (hfirst : b.handle.reader = 0) : b.Compacted b := by
  obtain ⟨s, hs, -⟩ := hb.window live
  refine ⟨?_, ⟨b.unread, hb.content_eq live, hb.content_eq live⟩,
    ⟨s, s.bytes, hs, ?_, rfl, fun _ _ => rfl⟩, rfl, rfl⟩
  · simp only [hfirst, Nat.sub_zero]
    simp only [Handle.reader] at hfirst
    rw [← hfirst]
    rfl
  · rw [← hs]

theorem compacted_moved (hopen : b.handle.readOnly = false) (hs : b.group.storage = some s) :
    b.Compacted ((b.patch b.handle.offset b.unread s).moveCursor (Cursor.shift b.handle.reader)) := by
  have hlength := hb.length_unread live
  have hle := readable_le hb
  have hwindow := (hb.on hs).window_le
  have hfit : b.handle.offset + b.unread.length ≤ s.bytes.length := by
    simp only [Storage.capacity] at hwindow
    omega
  have hpatch : (b.patch (b.handle.offset + 0) b.unread s).Valid :=
    (course_patch hs hopen (by omega)).valid hb
  have hmoved := (course_seek (hpatch.handle.cursor.shift b.handle.reader)).valid hpatch
  refine ⟨?_, ⟨b.unread, hb.content_eq live, ?_⟩,
    ⟨s, _, hs, rfl, Bytes.length_splice hfit, fun p hp => ?_⟩, rfl, rfl⟩
  · have hfront : b.handle.cursor.reader - b.handle.reader = 0 := Nat.sub_self _
    change { b.handle with cursor := b.handle.cursor.shift b.handle.reader } = _
    rw [Cursor.shift, hfront]
    rfl
  · exact (hmoved.content_eq live).trans (congrArg Except.ok (unread_compacted hb hs hopen))
  · rw [Bytes.getElem?_splice hfit, if_neg (by omega)]

theorem compact_compacted (hopen : b.handle.readOnly = false) :
    ∃ c, b.compact = .ok c ∧ b.Compacted c ∧ c.Valid := by
  obtain ⟨s, hs, -⟩ := hb.window live
  have hmut := (checkMutable_eq_ok_iff b).2 ⟨live, hopen⟩
  suffices hcompacted : ∃ c, b.compact = .ok c ∧ b.Compacted c by
    obtain ⟨c, hc, h⟩ := hcompacted
    exact ⟨c, hc, h, (course_compact hb hc).valid hb⟩
  by_cases hfirst : b.handle.reader = 0
  · refine ⟨b, ?_, compacted_self hb live hfirst⟩
    simp only [compact, hmut, bind, Except.bind, if_pos hfirst, pure, Except.pure]
  · refine ⟨_, ?_, compacted_moved hb live hopen hs⟩
    simp only [compact, hmut, bind, Except.bind, if_neg hfirst, moveReadable_eq hb hs, pure, Except.pure]

/-- The lazy compaction compacts or does nothing, and that only where nothing has been read, or where bytes
are readable and less than half of the window has been read. -/
theorem compactLazily_cases (hopen : b.handle.readOnly = false) : b.compactLazily = b.compact ∨
    b.compactLazily = .ok b ∧ (b.handle.reader = 0 ∨
      0 < b.handle.readable ∧ b.handle.reader < b.handle.capacity / 2) := by
  have hmut := (checkMutable_eq_ok_iff b).2 ⟨live, hopen⟩
  have horder := hb.handle.cursor.reader_le_writer
  simp only [compactLazily, hmut, bind, Except.bind, pure, Except.pure]
  split
  · next hfirst => exact .inr ⟨rfl, .inl hfirst⟩
  · next hfirst =>
    split
    · next hempty =>
      -- without readable bytes there is nothing to move
      have hnone : b.handle.readable = 0 := by
        simp only [Handle.reader, Handle.writer] at hempty
        simp only [Handle.readable, Cursor.readable, hempty, Nat.sub_self]
      left
      simp only [compact, hmut, bind, Except.bind, if_neg hfirst, moveReadable, if_pos hnone, pure,
        Except.pure]
    · next hsome =>
      split
      · exact .inl rfl
      · next hhalf =>
        refine .inr ⟨rfl, .inr ⟨?_, Nat.lt_of_not_le hhalf⟩⟩
        simp only [Handle.reader, Handle.writer] at hsome
        simp only [Handle.readable, Cursor.readable]
        omega

end Compact

def kept (b : Buffer) : Bytes := (b.moveCursor Cursor.rewound).unread

/-- The mark of the reader index can be gone back to, and finds these bytes. -/
structure Holds (q : Bytes) (b : Buffer) : Prop where
  mark_le : b.handle.cursor.markedReader ≤ b.handle.writer
  kept : b.kept = q

theorem Holds.rewound (h : b.Holds q) (hb : b.Valid) : (b.moveCursor Cursor.rewound).Valid :=
  (course_seek (hb.handle.cursor.rewound h.mark_le)).valid hb

theorem holds_markReader (hb : b.Valid) : (b.moveCursor Cursor.markReader).Holds b.unread :=
  ⟨hb.handle.cursor.reader_le_writer, rfl⟩

theorem Holds.resetReader (h : b.Holds q) (hb : b.Valid) (live : 0 < b.group.count) :
    b.resetReader = .ok (b.moveCursor Cursor.rewound) ∧
      (b.moveCursor Cursor.rewound).content = .ok q := by
  refine ⟨?_, ?_⟩
  · have horder : b.handle.cursor.markedReader ≤ b.handle.writer ∧ b.handle.writer ≤ b.handle.capacity :=
      ⟨h.mark_le, writer_le hb⟩
    simp only [Buffer.resetReader, setReader, setIndexes, Cursor.setIndexes, if_pos horder, bind,
      Except.bind, pure, Except.pure]
    rfl
  · rw [← h.kept]
    exact (h.rewound hb).content_eq live

theorem Strode.read (h : b.Strode n c) (live : 0 < b.group.count) (i k : Nat) :
    c.read i k = b.read i k := by
  have hbefore := (checkLive_eq_ok_iff b).2 live
  have hafter := (checkLive_eq_ok_iff c).2 (Nat.lt_of_lt_of_le live h.count)
  simp only [Buffer.read, locate, heldStorage, hbefore, hafter, h.handle, h.storage, Handle.moveCursor]

theorem Holds.strode (h : b.Holds q) (live : 0 < b.group.count) (hc : b.Strode n c) : c.Holds q := by
  have hhandle : (c.moveCursor Cursor.rewound).handle = (b.moveCursor Cursor.rewound).handle := by
    change c.handle.moveCursor Cursor.rewound = _
    rw [hc.handle]
    rfl
  have hrewound : (b.moveCursor Cursor.rewound).Strode 0 (c.moveCursor Cursor.rewound) :=
    ⟨Nat.zero_le _, hhandle, hc.storage, hc.count⟩
  have hcontent : (c.moveCursor Cursor.rewound).content = (b.moveCursor Cursor.rewound).content := by
    rw [content, content, hhandle]
    exact hrewound.read live _ _
  refine ⟨?_, ?_⟩
  · rw [hc.handle]
    exact h.mark_le
  · rw [← h.kept, Buffer.kept, Buffer.kept, Buffer.unread, Buffer.unread, hcontent]

theorem Holds.extended (h : b.Holds q) (hb : b.Valid) (hc : b.Extended data c) :
    c.Holds (q ++ data) := by
  obtain ⟨capacity, hlong⟩ := hc
  have hwriter : c.handle.writer = b.handle.writer + data.length := by rw [hlong.handle]; rfl
  have hmark : c.handle.cursor.markedReader = b.handle.cursor.markedReader := by rw [hlong.handle]; rfl
  have hle : c.handle.cursor.markedReader ≤ c.handle.writer := by
    rw [hwriter, hmark]
    exact Nat.le_add_right_of_le h.mark_le
  refine ⟨hle, ?_⟩
  -- what is appended does not depend on where the reader index is
  have hrewound : (b.moveCursor Cursor.rewound).Lengthened capacity data (c.moveCursor Cursor.rewound) :=
    ⟨congrArg (Handle.moveCursor Cursor.rewound) hlong.handle,
      ⟨hlong.group.count, hlong.group.kind, hlong.group.shared, hlong.group.system, hlong.group.held⟩,
      (course_seek (hlong.valid.handle.cursor.rewound hle)).valid hlong.valid, hlong.written⟩
  rw [Buffer.kept, hrewound.unread (h.rewound hb)]
  exact congrArg (· ++ data) h.kept

theorem kept_of_le (hb : b.Valid) (live : 0 < b.group.count)
    (hreader : b.handle.reader ≤ b.handle.cursor.markedReader)
    (hmark : b.handle.cursor.markedReader ≤ b.handle.writer) :
    b.kept = b.unread.drop (b.handle.cursor.markedReader - b.handle.reader) := by
  have hle : b.handle.cursor.markedReader - b.handle.reader ≤ b.handle.readable :=
    Nat.sub_le_sub_right hmark _
  rw [← unread_advance hb live hle, kept, moveCursor, moveCursor, Handle.moveCursor, Handle.moveCursor,
    Cursor.rewound_eq_advanceReader hreader]
  rfl

theorem Holds.compacted (h : b.Holds q) (hb : b.Valid) (hc : c.Valid) (live : 0 < b.group.count)
    (hcompacted : b.Compacted c) (hreader : b.handle.reader ≤ b.handle.cursor.markedReader) :
    c.Holds q := by
  obtain ⟨hhandle, ⟨bytes, hbefore, hafter⟩, ⟨s, t, -, hgroup, -⟩, -, -⟩ := hcompacted
  have hlive : 0 < c.group.count := by rw [hgroup]; exact live
  have hzero : c.handle.reader = 0 := by rw [hhandle]; rfl
  have hmark : c.handle.cursor.markedReader = b.handle.cursor.markedReader - b.handle.reader := by
    rw [hhandle]
  have hwriter : c.handle.writer = b.handle.writer - b.handle.reader := by rw [hhandle]; rfl
  have hle : c.handle.cursor.markedReader ≤ c.handle.writer := by
    rw [hmark, hwriter]
    exact Nat.sub_le_sub_right h.mark_le _
  refine ⟨hle, ?_⟩
  rw [kept_of_le hc hlive (by omega) hle, unread_of_content hafter, ← unread_of_content hbefore, hmark,
    hzero, Nat.sub_zero, ← kept_of_le hb live hreader h.mark_le, h.kept]

theorem Holds.compact (h : b.Holds q) (hb : b.Valid) (live : 0 < b.group.count)
    (hreader : b.handle.reader ≤ b.handle.cursor.markedReader) (hc : b.compact = .ok c) : c.Holds q := by
  cases hopen : b.handle.readOnly with
  | false =>
    obtain ⟨d, hd, hcompacted, hvalid⟩ := compact_compacted hb live hopen
    cases hd.symm.trans hc
    exact h.compacted hb hvalid live hcompacted hreader
  | true =>
    have hshut := open_of_checkMutable hc
    rw [hopen] at hshut
    cases hshut

theorem Holds.compactLazily (h : b.Holds q) (hb : b.Valid) (live : 0 < b.group.count)
    (hreader : b.handle.reader ≤ b.handle.cursor.markedReader) (hc : b.compactLazily = .ok c) :
    c.Holds q := by
  have hopen := open_of_checkMutable hc
  rcases compactLazily_cases hb live hopen with hsame | ⟨hstill, -⟩
  · exact h.compact hb live hreader (hsame.symm.trans hc)
  · cases hstill.symm.trans hc
    exact h

end Buffer

namespace Change

open Buffer (InUse Holds)

variable {b : Buffer} {c : Change} {q : Bytes}

def discards : Change → Bool
  | .compact | .compactLazily => true
  | _ => false

theorem payload_of_reads (hc : c.reads = true) (b : Buffer) : c.payload b = [] := by
  cases c with
  | skip | consume | consumeInto | readScalar | readString | readLine | store | storeFile | readSome
  | readRest => rfl
  | _ => cases hc

theorem payload_of_discards (hc : c.discards = true) (b : Buffer) : c.payload b = [] := by
  cases c with
  | compact | compactLazily => rfl
  | _ => cases hc

theorem landed_nil (r : Except Failure Answer) : landed [] r = [] := by
  rw [landed.eq_def]
  split
  · rfl
  · rfl
  · exact ite_self _
  · rfl

theorem holds_update {g : Buffer → Except Fault Buffer} (h : b.Holds q)
    (hg : ∀ d, g b = .ok d → d.Holds q) : (update g b).state.Holds q := by
  have hstate : (update g b).state = (Action.update g b).state := by
    rw [update, Action.state_then_pure]
    rfl
  rw [hstate]
  cases hd : g b with
  | error f =>
    rw [Action.update_of_error hd]
    exact h
  | ok d =>
    rw [Action.update_of_ok hd]
    exact hg d hd

theorem holds_of_discards (hb : b.InUse) (h : b.Holds q) (hc : c.discards = true)
    (hspares : b.handle.cursor.markedReader < b.handle.reader → (c.run b).state = b) :
    (c.run b).state.Holds q := by
  by_cases hreader : b.handle.reader ≤ b.handle.cursor.markedReader
  · cases c with
    | compact => exact holds_update h fun d hd => h.compact hb.valid hb.live hreader hd
    | compactLazily => exact holds_update h fun d hd => h.compactLazily hb.valid hb.live hreader hd
    | _ => cases hc
  · rw [hspares (Nat.lt_of_not_le hreader)]
    exact h

/-- A step of the reading and writing: the mark holds what it held and then what has been written. -/
theorem run_holds (hb : b.InUse) (hfits : c.Fits) (h : b.Holds q)
    (hc : c.reads = true ∨ c.writes = true ∨ c.discards = true)
    (hspares : c.discards = true → b.handle.cursor.markedReader < b.handle.reader →
      (c.run b).state = b) :
    (c.run b).state.Holds (q ++ landed (c.payload b) (c.run b).result) := by
  rcases hc with hreads | hwrites | hdiscards
  · rw [payload_of_reads hreads, landed_nil, List.append_nil]
    obtain ⟨n, hstrode⟩ := run_strides hreads b
    exact h.strode hb.live hstrode
  · exact h.extended hb.valid (run_extends hb hfits hwrites)
  · rw [payload_of_discards hdiscards, landed_nil, List.append_nil]
    exact holds_of_discards hb h hdiscards (hspares hdiscards)

end Change

end SharedBuffer
