import SharedBuffer.Proofs.Reading
import SharedBuffer.Proofs.Recycling

/-!
The readable bytes of a buffer before and after an operation. Main statements: what an append, a
resize and a compaction leave to be read; and one that fails leaves the readable bytes as they were.
-/

namespace SharedBuffer

namespace Bytes

variable {bs : Bytes} {i k m n : Nat}

theorem window_add (bs : Bytes) (i m n : Nat) :
    bs.window i (m + n) = bs.window i m ++ bs.window (i + m) n := by
  rw [window, window, window, List.take_add, List.drop_drop]

theorem take_window (bs : Bytes) (i : Nat) (h : m ≤ n) : (bs.window i n).take m = bs.window i m := by
  rw [window, window, List.take_take, Nat.min_eq_left h]

theorem drop_window (bs : Bytes) (i m n : Nat) :
    (bs.window i n).drop m = bs.window (i + m) (n - m) := by
  rw [window, window, List.drop_take, List.drop_drop]

theorem window_fit (hn : i + k ≤ n) (hk : i + k ≤ bs.length) :
    (bs.fit n).window i k = bs.window i k := by
  refine List.ext_getElem? fun j => ?_
  rw [getElem?_window, getElem?_window]
  split
  · exact getElem?_fit (by omega) (by omega)
  · rfl

end Bytes

theorem Outcome.Meets.and {ε σ α : Type} {o : Outcome ε σ α} {Q Q' : α → σ → List Event → Prop}
    {E E' : ε → σ → List Event → Prop} (h : o.Meets Q E) (h' : o.Meets Q' E') :
    o.Meets (fun v s log => Q v s log ∧ Q' v s log) (fun f s log => E f s log ∧ E' f s log) := by
  rcases o with ⟨f | v, s, log⟩
  · exact ⟨h, h'⟩
  · exact ⟨h, h'⟩

def Handle.Takes (n : Nat) (h : Handle) : Prop :=
  n ≤ h.writable ∨ h.autoExpand = true ∧ h.origin ≠ .slice ∧ h.writer + n ≤ h.maxCapacity

theorem Handle.Takes.mono {h : Handle} {m n : Nat} (ht : h.Takes n) (hm : m ≤ n) : h.Takes m := by
  rcases ht with hfits | ⟨hauto, hfree, hle⟩
  · exact .inl (Nat.le_trans hm hfits)
  · exact .inr ⟨hauto, hfree, by omega⟩

theorem Handle.takes_iff {h : Handle} {n : Nat} : h.Takes n ↔ n ≤ h.writable ∨ h.Grows n := by
  constructor
  · rintro (hfits | ⟨hauto, hfree, hmax⟩)
    · exact .inl hfits
    · by_cases hfits : n ≤ h.writable
      · exact .inl hfits
      · exact .inr ⟨Nat.lt_of_not_le hfits, Handle.canGrow_iff.2 ⟨hauto, hfree⟩, hmax⟩
  · rintro (hfits | hgrows)
    · exact .inl hfits
    · obtain ⟨hauto, hfree⟩ := Handle.canGrow_iff.1 hgrows.canGrow
      exact .inr ⟨hauto, hfree, hgrows.le_max⟩

namespace Buffer

open SharedBuffer.Action (meets_bind meets_ask_bind meets_update meets_map meets_then_pure
  ask_bind_of_ok current_bind)

variable {b c : Buffer} {s : Storage} {i k n : Nat} {data q : Bytes}

section Unread

theorem Valid.content_eq (hb : b.Valid) (live : 0 < b.group.count) : b.content = .ok b.unread := by
  obtain ⟨s, hs, -⟩ := hb.window live
  rw [unread_eq hb hs, content, hb.read_of_le hs (readable_le hb)]

theorem unread_of_content (h : b.content = .ok q) : b.unread = q := by rw [unread, h]

theorem Valid.length_unread (hb : b.Valid) (live : 0 < b.group.count) :
    b.unread.length = b.handle.readable :=
  length_of_read (hb.content_eq live)

theorem Unmoved.unread (h : b.Unmoved c) : c.unread = b.unread := by
  rw [h.same]
  rfl

theorem unread_empty (h : b.handle.readable = 0) : b.unread = [] := by
  rcases hc : b.content with f | bytes
  · rw [Buffer.unread, hc]
  · rw [unread_of_content hc]
    exact List.eq_nil_of_length_eq_zero ((length_of_read hc).trans h)

theorem unread_advance (hb : b.Valid) (live : 0 < b.group.count) (hn : n ≤ b.handle.readable) :
    (b.moveCursor (Cursor.advanceReader n)).unread = b.unread.drop n := by
  obtain ⟨s, hs, -⟩ := hb.window live
  have hmoved := (course_seek (hb.handle.cursor.advanceReader hn)).valid hb
  have hrest : (b.moveCursor (Cursor.advanceReader n)).handle.readable = b.handle.readable - n := by
    simp only [Handle.readable, Cursor.readable]
    exact Nat.sub_add_eq _ _ _
  rw [unread_eq hb hs, Bytes.drop_window, unread_eq hmoved hs, hrest, Nat.add_assoc]
  rfl

theorem peek_of_readable (hb : b.Valid) (live : 0 < b.group.count) (hn : n ≤ b.handle.readable) :
    b.peek n = .ok (b.unread.take n) := by
  obtain ⟨s, hs, -⟩ := hb.window live
  obtain ⟨bytes, hpeek⟩ := hb.peek_of_le live hn
  have hread := (peek_eq_ok hpeek).2
  have hle := readable_le hb
  rw [hb.read_of_le hs (by omega), Except.ok.injEq] at hread
  rw [hpeek, ← hread, unread_eq hb hs, Bytes.take_window _ _ hn]

theorem unread_appended (hb : b.Valid) (hs : b.group.storage = some s)
    (hopen : b.handle.readOnly = false)
    (hroom : b.handle.cursor.writer + data.length ≤ b.handle.capacity) :
    (b.appended data s).unread = b.unread ++ data := by
  have hafter := (course_appended hb hs hopen hroom).valid hb
  have hwindow := (hb.on hs).window_le
  have horder := hb.handle.cursor.reader_le_writer
  have hfit : b.front + data.length ≤ s.bytes.length := by
    simp only [front]
    simp only [Storage.capacity] at hwindow
    omega
  have hfront : b.handle.offset + b.handle.reader + b.handle.readable = b.front := by
    simp only [Handle.reader, Handle.readable, Cursor.readable, front]
    omega
  have hlength : (b.appended data s).handle.readable = b.handle.readable + data.length := by
    change b.handle.cursor.writer + data.length - b.handle.cursor.reader = _
    simp only [Handle.readable, Cursor.readable]
    omega
  have hstorage : (b.appended data s).group.storage =
      some { s with bytes := s.bytes.splice b.front data } := rfl
  have hplace : (b.appended data s).handle.offset + (b.appended data s).handle.reader =
      b.handle.offset + b.handle.reader := rfl
  rw [unread_eq hafter hstorage, unread_eq hb hs, hlength, hplace, Bytes.window_add, hfront,
    Bytes.window_splice_outside hfit (Or.inl (by omega)), Bytes.window_splice hfit]

theorem unread_compacted (hb : b.Valid) (hs : b.group.storage = some s)
    (hopen : b.handle.readOnly = false) :
    ((b.patch b.handle.offset b.unread s).moveCursor (Cursor.shift b.handle.reader)).unread =
      b.unread := by
  have live := hb.group.live s hs
  have hlength := hb.length_unread live
  have hle := readable_le hb
  have hwindow := (hb.on hs).window_le
  have hpatch : (b.patch (b.handle.offset + 0) b.unread s).Valid :=
    (course_patch hs hopen (by omega)).valid hb
  have hmoved := (course_seek (hpatch.handle.cursor.shift b.handle.reader)).valid hpatch
  have hfit : b.handle.offset + b.unread.length ≤ s.bytes.length := by
    simp only [Storage.capacity] at hwindow
    omega
  have hreadable : (b.handle.cursor.shift b.handle.reader).readable = b.unread.length :=
    (Cursor.readable_shift b.handle.reader (Nat.le_refl b.handle.cursor.reader)).trans hlength.symm
  have hplace : (b.handle.cursor.shift b.handle.reader).reader = 0 := Nat.sub_self _
  have hunread := unread_eq hmoved (s := { s with bytes := s.bytes.splice b.handle.offset b.unread })
    rfl
  refine hunread.trans ?_
  change (s.bytes.splice b.handle.offset b.unread).window
    (b.handle.offset + (b.handle.cursor.shift b.handle.reader).reader)
    (b.handle.cursor.shift b.handle.reader).readable = _
  rw [hplace, hreadable, Nat.add_zero, Bytes.window_splice hfit]

end Unread

section Resize

def Retains (n : Nat) (b c : Buffer) : Prop := ∀ i k, i + k ≤ n → c.read i k = b.read i k

theorem Retains.unread (h : b.Retains n c) (hcursor : c.handle.cursor = b.handle.cursor)
    (hn : b.handle.reader + b.handle.readable ≤ n) : c.unread = b.unread := by
  have hcontent : c.content = b.content := by
    simp only [content, Handle.reader, Handle.readable, hcursor]
    exact h _ _ hn
  rw [Buffer.unread, Buffer.unread, hcontent]

theorem read_resized {t : Storage} (live : 0 < c.group.count) (ht : c.group.storage = some t)
    (hc : c.handle = { b.handle with capacity := n }) (hn : n ≤ Word.largest) (hin : i + k ≤ n)
    (hfit : b.handle.offset + i + k ≤ t.capacity) :
    c.read i k = .ok (t.bytes.window (b.handle.offset + i) k) := by
  have hlive : c.checkLive = .ok () := (checkLive_eq_ok_iff c).2 live
  have hbounds : checkBounds i k n = .ok () := (checkBounds_eq_ok_iff hn).2 hin
  simp only [read, locate, hlive, hc, hbounds, heldStorage_eq_ok.2 ht, bind, Except.bind,
    if_pos hfit, pure, Except.pure]

/-- A window of another capacity shows the old bytes as far as both windows reach, in the old storage
or in the one that took its place. -/
theorem resize_retains (hb : b.Valid) (hs : b.group.storage = some s)
    (hfree : b.handle.origin ≠ .slice) (hn : n ≤ b.handle.maxCapacity) :
    (resize n b).Meets
      (fun _ c _ => c.handle = { b.handle with capacity := n } ∧
        b.Retains (min b.handle.capacity n) c)
      fun _ c _ => b.Unmoved c := by
  have live := hb.group.live s hs
  have hzero := hb.handle.offset_zero hfree
  have hword : n ≤ Word.largest := Nat.le_trans hn hb.handle.max_le_largest
  have hwindow := (hb.on hs).window_le
  rcases resize_cases hs n with ⟨hkeep, hr⟩ | ⟨-, ⟨f, hf, hr⟩ | ⟨t, ht, hr⟩⟩
  · have hfits := le_of_not_needsReplacement hkeep
    rw [hr]
    refine ⟨rfl, fun i k hik => ?_⟩
    rw [hb.read_of_le hs (by omega)]
    exact read_resized (b := b) live hs rfl hword (by omega) (by omega)
  · rw [hr]
    exact (refuses_relend (hb.group.storage s hs).1 hf).unmoved
  · obtain ⟨-, rfl⟩ := Pool.relend_eq_ok hb.pool ht
    have hcapacity := s.capacity_refit n
    rw [hr]
    refine ⟨rfl, fun i k hik => ?_⟩
    rw [hb.read_of_le hs (by omega)]
    refine Eq.trans (read_resized (b := b) (t := s.refit n) live rfl rfl hword (by omega) (by omega)) ?_
    simp only [Storage.capacity] at hwindow
    exact congrArg Except.ok (Bytes.window_fit (by omega) (by omega))

end Resize

section Room

theorem writer_le (hb : b.Valid) : b.handle.writer ≤ b.handle.capacity := hb.handle.cursor.writer_le

theorem reserve_unread (hb : b.Valid) (n : Nat) :
    (reserve n b).Meets (fun _ c _ => c.unread = b.unread) fun _ c _ => c.unread = b.unread := by
  refine meets_ask_bind (fun o ho => ?_) fun _ _ => rfl
  obtain ⟨hmut, ⟨-, rfl⟩ | ⟨hmore, hgrow, -, m, rfl, hm⟩⟩ := growthFor_eq_ok ho
  · exact rfl
  · obtain ⟨s, hs, -⟩ := hb.window ((checkMutable_eq_ok_iff b).1 hmut).1
    have hnext := Capacity.next_eq_ok hb.handle.max_le_largest hm
    have hread := readable_le hb
    have hwriter := writer_le hb
    refine (resize_retains hb hs (not_slice_of_canGrow hgrow) hnext.2).mono ?_ fun _ _ _ h => h.unread
    rintro _ c log ⟨hhandle, hretains⟩
    refine hretains.unread (by rw [hhandle]) ?_
    simp only [Handle.writable] at hmore
    omega

theorem Reserved.ready {log : List Event} (hb : b.Valid) (hres : b.Reserved n c log)
    (hdata : data.length ≤ n) :
    ∃ s, c.appendInPlace data = .ok (c.appended data s) ∧
      append data c = ⟨.ok (), c.appended data s, []⟩ ∧
      (c.appended data s).unread = c.unread ++ data := by
  have hc := hres.does.valid hb
  have hopen := (hres.does.follows hb).readOnly.trans hres.writable
  have hroom : c.handle.cursor.writer + data.length ≤ c.handle.capacity := by
    have := hres.room
    omega
  obtain ⟨s, hs, -⟩ := hc.window (hres.does.live rfl hres.live)
  exact ⟨s, appendInPlace_of_room hc hs hopen hroom, append_of_room hc hs hopen hroom,
    unread_appended hc hs hopen hroom⟩

theorem append_unread (hb : b.Valid) (data : Bytes) :
    (append data b).Meets (fun _ c _ => c.unread = b.unread ++ data) fun _ c _ => c.unread = b.unread := by
  apply meets_bind
  refine ((reserve_meets hb data.length).and (reserve_unread hb data.length)).mono ?_
    fun _ _ _ h => h.2
  rintro _ d log ⟨hres, hunread⟩
  obtain ⟨s, hput, -, hnext⟩ := hres.ready hb (Nat.le_refl _)
  rw [Action.update_of_ok hput]
  exact hnext.trans (by rw [hunread])

/-- A slice has all the room that it may ever have, so that it never makes room for the worst case. -/
theorem takes_of_wantsReserve (hb : b.Valid) (h : wantsReserve n b.handle = true) :
    b.handle.Takes n := by
  simp only [wantsReserve, Bool.and_eq_true, decide_eq_true_eq] at h
  obtain ⟨⟨hauto, hmore⟩, hmax⟩ := h
  have hwriter := writer_le hb
  have hcapacity := hb.handle.capacity_le_max
  simp only [Handle.writable] at hmore
  simp only [Handle.maxWritable] at hmax
  refine .inr ⟨hauto, fun hslice => ?_, by omega⟩
  have hfixed := hb.handle.slice_fixed hslice
  omega

theorem checkCapacity_eq_ok_iff :
    b.checkCapacity n = .ok () ↔
      b.checkMutable = .ok () ∧ b.handle.origin ≠ .slice ∧ n ≤ b.handle.maxCapacity := by
  simp only [checkCapacity]
  rcases b.checkMutable with f | ⟨⟩
  · simp [bind, Except.bind]
  · by_cases hslice : b.handle.origin = .slice
    · simp [bind, Except.bind, hslice]
    · by_cases hmax : b.handle.maxCapacity < n
      · simp [bind, Except.bind, hslice, hmax]
      · simp [bind, Except.bind, hslice, hmax]
        omega

theorem take_readable (hb : b.Valid) (live : 0 < b.group.count) :
    b.unread.take b.handle.readable = b.unread := by
  rw [← hb.length_unread live, List.take_length]

theorem unread_truncated (hb : b.Valid) (live : 0 < b.group.count)
    (hc : c.handle = { b.handle with capacity := n })
    (hretains : b.Retains (min b.handle.capacity n) c) :
    (c.moveCursor (Cursor.truncate n)).unread =
      b.unread.take (min b.handle.writer n - min b.handle.reader n) := by
  have horder := hb.handle.cursor.reader_le_writer
  have hwriter := hb.handle.cursor.writer_le
  obtain ⟨s, hs, -⟩ := hb.window live
  have hcursor : (c.moveCursor (Cursor.truncate n)).handle.cursor = b.handle.cursor.truncate n := by
    change c.handle.cursor.truncate n = _
    rw [hc]
  have hreadable : (c.moveCursor (Cursor.truncate n)).handle.readable =
      min b.handle.writer n - min b.handle.reader n := by
    simp only [Handle.readable, hcursor, Cursor.readable, Cursor.truncate, Handle.reader, Handle.writer]
    omega
  by_cases hn : min b.handle.writer n - min b.handle.reader n = 0
  · rw [hn, List.take_zero]
    exact unread_empty (hreadable.trans hn)
  · have hreader : (c.moveCursor (Cursor.truncate n)).handle.reader = b.handle.reader := by
      simp only [Handle.reader, Handle.writer] at hn
      simp only [Handle.reader, hcursor, Cursor.truncate]
      omega
    have hle : min b.handle.writer n - min b.handle.reader n ≤ b.handle.readable := by
      simp only [Handle.readable, Cursor.readable, Handle.reader, Handle.writer]
      omega
    have hin : b.handle.reader + (min b.handle.writer n - min b.handle.reader n) ≤
        min b.handle.capacity n := by
      simp only [Handle.reader, Handle.writer] at hn ⊢
      omega
    have hread : (c.moveCursor (Cursor.truncate n)).content =
        b.read b.handle.reader (min b.handle.writer n - min b.handle.reader n) := by
      rw [content, hreader, hreadable]
      exact hretains _ _ hin
    rw [hb.read_of_le hs (by omega)] at hread
    rw [unread_of_content hread, unread_eq hb hs, Bytes.take_window _ _ hle]

end Room

section Front

theorem moveReadable_eq (hb : b.Valid) (hs : b.group.storage = some s) :
    b.moveReadable = .ok (b.patch b.handle.offset b.unread s) := by
  have live := hb.group.live s hs
  have hlength := hb.length_unread live
  simp only [moveReadable]
  split
  · next hnone =>
    have hempty : b.unread = [] := List.eq_nil_of_length_eq_zero (hlength.trans hnone)
    have hsame : b.setStorage s = b := by rw [setStorage, ← hs]
    rw [hempty, patch, Bytes.splice_nil]
    exact congrArg Except.ok hsame.symm
  · have hle := readable_le hb
    have hwindow := (hb.on hs).window_le
    have hword := (hb.group.storage s hs).1
    have hlargest := Nat.le_trans hword.capacity_le_max hword.max_le_largest
    have hfrom : checkBounds (b.handle.offset + b.handle.reader) b.handle.readable s.capacity =
        .ok () := (checkBounds_eq_ok_iff hlargest).2 (by omega)
    have hto : checkBounds b.handle.offset b.handle.readable s.capacity = .ok () :=
      (checkBounds_eq_ok_iff hlargest).2 (by omega)
    simp only [heldStorage_eq_ok.2 hs, bind, Except.bind, Storage.moveRange, hfrom, hto, pure, Except.pure,
      patch, unread_eq hb hs, Bytes.moveWithin]

theorem compact_of_open (hb : b.Valid) (live : 0 < b.group.count) (hopen : b.handle.readOnly = false) :
    ∃ c, b.compact = .ok c ∧ c.unread = b.unread := by
  obtain ⟨s, hs, -⟩ := hb.window live
  have hmut := (checkMutable_eq_ok_iff b).2 ⟨live, hopen⟩
  by_cases hfirst : b.handle.reader = 0
  · exact ⟨b, by simp only [compact, hmut, bind, Except.bind, if_pos hfirst, pure, Except.pure], rfl⟩
  · refine ⟨_, ?_, unread_compacted hb hs hopen⟩
    simp only [compact, hmut, bind, Except.bind, if_neg hfirst, moveReadable_eq hb hs, pure, Except.pure]

theorem open_of_checkMutable {α : Type} {f : Unit → Except Fault α} {v : α}
    (h : (b.checkMutable >>= f) = .ok v) : b.handle.readOnly = false := by
  obtain ⟨⟨⟩, hmut, -⟩ := except_bind_eq_ok.1 h
  exact ((checkMutable_eq_ok_iff b).1 hmut).2

theorem compactLazily_of_open (hb : b.Valid) (live : 0 < b.group.count)
    (hopen : b.handle.readOnly = false) : ∃ c, b.compactLazily = .ok c ∧ c.unread = b.unread := by
  have hmut := (checkMutable_eq_ok_iff b).2 ⟨live, hopen⟩
  simp only [compactLazily, hmut, bind, Except.bind, pure, Except.pure]
  split
  · exact ⟨b, rfl, rfl⟩
  · split
    · next hempty =>
      have hnone : b.handle.readable = 0 := by
        simp only [Handle.reader, Handle.writer] at hempty
        simp only [Handle.readable, Cursor.readable, hempty, Nat.sub_self]
      refine ⟨_, rfl, ?_⟩
      rw [unread_empty hnone]
      refine unread_empty ?_
      exact (Cursor.readable_shift _ (Nat.le_refl _)).trans hnone
    · split
      · exact compact_of_open hb live hopen
      · exact ⟨b, rfl, rfl⟩

end Front

end Buffer

end SharedBuffer
