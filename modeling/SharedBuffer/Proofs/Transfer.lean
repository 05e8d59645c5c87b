import SharedBuffer.Buffer.Streaming
import SharedBuffer.Buffer.Typed
import SharedBuffer.Proofs.Growth

/-!
Operations that move bytes, as courses: each puts its bytes in one range of the storage or none
anywhere. Where an operation makes room first and writes afterwards, the write cannot fail any more.
-/

namespace SharedBuffer

def Effect.write (start : Nat) (data : Bytes) : Effect := { written := Bytes.laid start data }

theorem Effect.write_andThen_write (start : Nat) (data more : Bytes) :
    (write start data).andThen (write (start + data.length) more) = write start (data ++ more) := by
  simp only [write, andThen, Nat.add_zero, List.append_nil, Effect.mk.injEq, and_true]
  funext p
  exact (Bytes.laid_append start data more p).symm

theorem Effect.write_nil (start : Nat) : write start [] = {} := by
  simp only [write, Bytes.laid_nil]

namespace Buffer

open SharedBuffer.Action (meets_bind meets_ask_bind meets_update meets_map meets_then_pure ask_bind_of_ok
  current_bind modify_bind)

variable {b c : Buffer} {e : Effect} {log : List Event} {s : Storage} {i n : Nat} {data : Bytes}

def front (b : Buffer) : Nat := b.handle.offset + b.handle.cursor.writer

section Steps

theorem course_seek {f : Cursor → Cursor} (hf : (f b.handle.cursor).Within b.handle.capacity) :
    Course {} b (b.moveCursor f) [] :=
  (Move.seek (f b.handle.cursor) hf).course

theorem course_patch (hs : b.group.storage = some s) (hopen : b.handle.readOnly = false)
    (hin : i + data.length ≤ b.handle.capacity) :
    Course (.write (b.handle.offset + i) data) b (b.patch (b.handle.offset + i) data s) [] :=
  (Move.write hs hopen _ data (by omega) (by omega)).course

theorem course_overwrite (h : b.overwrite i n data = .ok c) :
    Course (.write (b.handle.offset + i) (data.take n)) b c [] := by
  obtain ⟨-, hopen, hin, s, hs, -, rfl⟩ := overwrite_eq_ok h
  exact course_patch hs hopen (by rw [List.length_take]; omega)

theorem course_write (h : b.write i data = .ok c) :
    Course (.write (b.handle.offset + i) data) b c [] := by
  have hcourse := course_overwrite h
  rwa [List.take_length] at hcourse

theorem setZero_eq_overwrite (i n : Nat) (b : Buffer) :
    b.setZero i n = b.overwrite i n (Bytes.zeros n) := by
  have htake : (Bytes.zeros n).take n = Bytes.zeros n := by
    rw [List.take_of_length_le (Nat.le_of_eq (Bytes.length_zeros n))]
  simp only [setZero, overwrite, htake]

end Steps

theorem performs_update {g : Buffer → Except Fault Buffer} (hg : Sound (g b))
    (h : ∀ c, g b = .ok c → Course e b c []) (hback : e.back = []) : Performs (Action.update g) e b := by
  refine meets_update ?_ (refuses_of_sound hg)
  intro c hc
  exact .of_quiet (h c hc) hback

theorem sound_setIndexes (r w : Nat) (b : Buffer) : Sound (b.setIndexes r w) := by
  simp only [setIndexes]
  exact (Cursor.sound_setIndexes _ _ _ _).bind fun _ _ => sound_ok _

theorem setIndexes_performs (hb : b.Valid) (r w : Nat) :
    Performs (Action.update (setIndexes r w)) {} b := by
  refine performs_update (b.sound_setIndexes r w) ?_ rfl
  intro c hc
  simp only [setIndexes] at hc
  obtain ⟨cursor, hcursor, hc⟩ := except_bind_eq_ok.1 hc
  cases hc
  exact course_seek (f := fun _ => cursor) (Cursor.setIndexes_eq_ok hb.handle.cursor hcursor).1

theorem sound_skip (n : Nat) (b : Buffer) : Sound (b.skip n) := by
  simp only [skip]
  apply b.sound_checkLive.bind
  intro _ _
  exact (Cursor.sound_checkReadable _ _).bind fun _ _ => sound_ok _

theorem skip_of_le (live : 0 < b.group.count) (hn : n ≤ b.handle.cursor.readable) :
    b.skip n = .ok (b.moveCursor (Cursor.advanceReader n)) := by
  have hlive : b.checkLive = .ok () := (checkLive_eq_ok_iff b).2 live
  have hread : b.handle.cursor.checkReadable n = .ok () := Cursor.checkReadable_eq_ok_iff.2 hn
  simp only [skip, hlive, hread, bind, Except.bind, pure, Except.pure]

theorem skip_of_lt (live : 0 < b.group.count) (hn : b.handle.cursor.readable < n) :
    b.skip n = .error (.notReadable b.handle.reader n b.handle.writer) := by
  have hlive : b.checkLive = .ok () := (checkLive_eq_ok_iff b).2 live
  have hread : b.handle.cursor.checkReadable n =
      .error (.notReadable b.handle.reader n b.handle.writer) := if_neg (Nat.not_le_of_lt hn)
  simp only [skip, hlive, hread, bind, Except.bind]

theorem skip_performs (hb : b.Valid) (n : Nat) : Performs (Action.update (skip n)) {} b := by
  refine performs_update (b.sound_skip n) ?_ rfl
  intro c hc
  obtain ⟨-, hle, rfl⟩ := skip_eq_ok hc
  exact course_seek (hb.handle.cursor.advanceReader hle)

theorem write_performs (hb : b.Valid) (i : Nat) (data : Bytes) :
    Performs (Action.update (write i data)) (.write (b.handle.offset + i) data) b :=
  performs_update (hb.sound_overwrite i _ data) (fun _ hc => course_write hc) rfl

theorem setZero_performs (hb : b.Valid) (i n : Nat) :
    Performs (Action.update (setZero i n)) (.write (b.handle.offset + i) (Bytes.zeros n)) b := by
  refine performs_update ?_ ?_ rfl
  · rw [setZero_eq_overwrite]
    exact hb.sound_overwrite i n _
  · intro c hc
    rw [setZero_eq_overwrite] at hc
    have hcourse := course_overwrite hc
    rwa [List.take_of_length_le (Nat.le_of_eq (Bytes.length_zeros n))] at hcourse

section Append

def appended (data : Bytes) (s : Storage) (b : Buffer) : Buffer :=
  (b.patch b.front data s).moveCursor (Cursor.advanceWriter data.length)

theorem course_appended (hb : b.Valid) (hs : b.group.storage = some s)
    (hopen : b.handle.readOnly = false)
    (hroom : b.handle.cursor.writer + data.length ≤ b.handle.capacity) :
    Course (.write b.front data) b (b.appended data s) [] := by
  have hpatch : Course (.write b.front data) b (b.patch b.front data s) [] :=
    course_patch hs hopen hroom
  have hseek : Course {} (b.patch b.front data s) (b.appended data s) [] :=
    course_seek (hb.handle.cursor.advanceWriter hroom)
  have hboth := hpatch.trans hseek
  rwa [Effect.andThen_none] at hboth

theorem appendInPlace_of_room (hb : b.Valid) (hs : b.group.storage = some s)
    (hopen : b.handle.readOnly = false)
    (hroom : b.handle.cursor.writer + data.length ≤ b.handle.capacity) :
    b.appendInPlace data = .ok (b.appended data s) := by
  have hwrite := hb.overwrite_of_le hopen hs hroom data
  rw [List.take_length] at hwrite
  simp only [appendInPlace, write, Handle.writer, hwrite, bind, Except.bind, pure, Except.pure,
    appended, front]

theorem appendZeroInPlace_eq (n : Nat) (b : Buffer) :
    b.appendZeroInPlace n = b.appendInPlace (Bytes.zeros n) := by
  simp only [appendZeroInPlace, appendInPlace, setZero_eq_overwrite, write, Bytes.length_zeros]

theorem appendZero_eq (n : Nat) : appendZero n = append (Bytes.zeros n) := by
  have h : appendZeroInPlace n = appendInPlace (Bytes.zeros n) := funext (appendZeroInPlace_eq n)
  simp only [appendZero, append, h, Bytes.length_zeros]

theorem reserve_of_room (live : 0 < b.group.count) (hopen : b.handle.readOnly = false)
    (hroom : b.handle.cursor.writer + n ≤ b.handle.capacity) : reserve n b = ⟨.ok (), b, []⟩ := by
  have hmut : b.checkMutable = .ok () := (checkMutable_eq_ok_iff b).2 ⟨live, hopen⟩
  have hfits : n ≤ b.handle.writable := by
    simp only [Handle.writable, Handle.writer]
    omega
  exact reserve_of_fits hmut hfits

theorem append_of_room (hb : b.Valid) (hs : b.group.storage = some s)
    (hopen : b.handle.readOnly = false)
    (hroom : b.handle.cursor.writer + data.length ≤ b.handle.capacity) :
    append data b = ⟨.ok (), b.appended data s, []⟩ := by
  have live := hb.group.live s hs
  simp only [append]
  rw [Action.bind_of_ok (reserve_of_room live hopen hroom),
    Action.update_of_ok (appendInPlace_of_room hb hs hopen hroom)]
  rfl

structure Appended (b : Buffer) (data : Bytes) (b' : Buffer) (log : List Event) : Prop where
  does : b.Does (.write b.front data) b' log
  cursor : b'.handle.cursor = b.handle.cursor.advanceWriter data.length
  autoExpand : b'.handle.autoExpand = b.handle.autoExpand
  live : 0 < b.group.count
  writable : b.handle.readOnly = false
  same : data.length ≤ b.handle.writable → b'.handle.capacity = b.handle.capacity

theorem append_meets (hb : b.Valid) (data : Bytes) :
    (append data b).Meets (fun _ => b.Appended data) b.Refuses := by
  apply meets_bind
  apply (reserve_meets hb data.length).imp
  intro _ d log hres
  have hd := hres.does.valid hb
  have hfollows := hres.does.follows hb
  have hopen : d.handle.readOnly = false := hfollows.readOnly.trans hres.writable
  obtain ⟨back, hback, hcourse⟩ := hres.does
  have hcount := hcourse.count
  have live : 0 < d.group.count := by
    have := hres.live
    simp only [Nat.add_zero] at hcount
    omega
  obtain ⟨s, hs, -⟩ := hd.window live
  have hfront : d.front = b.front := by
    rw [front, front, hfollows.offset, hres.cursor]
  have hput := course_appended hd hs hopen hres.room
  rw [Action.update_of_ok (appendInPlace_of_room hd hs hopen hres.room)]
  refine ⟨?_, ?_, hres.autoExpand, hres.live, hres.writable, fun hfits => ?_⟩
  · rw [hfront] at hput
    have hdoes := hres.does.then (f := .write b.front data) hput
    rwa [Effect.none_andThen] at hdoes
  · change d.handle.cursor.advanceWriter data.length = _
    rw [hres.cursor]
  · change d.handle.capacity = b.handle.capacity
    rw [(hres.same hfits).1]

theorem append_performs (hb : b.Valid) (data : Bytes) :
    Performs (append data) (.write b.front data) b :=
  (append_meets hb data).imp fun _ _ _ h => h.does

theorem forM_append_of_room (chunks : List Bytes) (hb : b.Valid) (live : 0 < b.group.count)
    (hopen : b.handle.readOnly = false)
    (hroom : b.handle.cursor.writer + chunks.flatten.length ≤ b.handle.capacity) :
    ∃ c, chunks.forM append b = ⟨.ok (), c, []⟩ ∧
      Course (.write b.front chunks.flatten) b c [] := by
  induction chunks generalizing b with
  | nil =>
    refine ⟨b, rfl, ?_⟩
    rw [List.flatten_nil, Effect.write_nil]
    exact .refl b
  | cons chunk chunks ih =>
    obtain ⟨s, hs, -⟩ := hb.window live
    rw [List.flatten_cons, List.length_append] at hroom
    have hfirst : b.handle.cursor.writer + chunk.length ≤ b.handle.capacity := by omega
    have hcourse := course_appended hb hs hopen hfirst
    have hrest : (b.appended chunk s).handle.cursor.writer + chunks.flatten.length ≤
        (b.appended chunk s).handle.capacity := by
      change b.handle.cursor.writer + chunk.length + _ ≤ b.handle.capacity
      omega
    obtain ⟨c, hc, hmore⟩ := ih (hcourse.valid hb) live hopen hrest
    refine ⟨c, ?_, ?_⟩
    · change (append chunk >>= fun _ => chunks.forM append) b = _
      rw [Action.bind_of_ok (append_of_room hb hs hopen hfirst), hc]
      rfl
    · have hfront : (b.appended chunk s).front = b.front + chunk.length := by
        change b.handle.offset + (b.handle.cursor.writer + chunk.length) = _
        rw [front, Nat.add_assoc]
      rw [hfront] at hmore
      have hall := hcourse.trans hmore
      rwa [Effect.write_andThen_write, ← List.flatten_cons] at hall

theorem Does.live (h : b.Does e c log) (hlost : e.lost = 0) (live : 0 < b.group.count) :
    0 < c.group.count := by
  obtain ⟨back, -, hcourse⟩ := h
  have hcount := hcourse.count
  simp only [hlost] at hcount
  omega

theorem appendAll_performs (hb : b.Valid) (chunks : List Bytes) :
    Performs (appendAll chunks) (.write b.front chunks.flatten) b := by
  apply meets_bind
  apply (reserve_meets hb chunks.flatten.length).imp
  intro _ d log hres
  have hfollows := hres.does.follows hb
  obtain ⟨c, hc, hcourse⟩ := forM_append_of_room chunks (hres.does.valid hb)
    (hres.does.live rfl hres.live) (hfollows.readOnly.trans hres.writable) hres.room
  have hfront : d.front = b.front := by
    rw [front, front, hfollows.offset, hres.cursor]
  rw [hfront] at hcourse
  change ((chunks.forM append >>= fun _ => pure chunks.flatten.length) d).Meets _ _
  rw [Action.bind_of_ok hc]
  have hdoes := hres.does.then (f := .write b.front chunks.flatten) hcourse
  rwa [Effect.none_andThen] at hdoes

/-- Room made for the worst case is room for the text, so that only one of the two steps grows. -/
theorem appendEncoded_performs (hb : b.Valid) {worst : Nat} {bytes : Bytes}
    (hworst : bytes.length ≤ worst) :
    Performs (appendEncoded worst bytes) (.write b.front bytes) b := by
  simp only [appendEncoded, Performs]
  rw [current_bind]
  refine meets_ask_bind (fun _ _ => ?_) (refuses_of_sound b.sound_checkMutable)
  split
  · apply meets_bind
    apply (reserve_meets hb worst).imp
    intro _ d log hres
    have hd := hres.does.valid hb
    have hfollows := hres.does.follows hb
    have hopen := hfollows.readOnly.trans hres.writable
    have hroom : d.handle.cursor.writer + bytes.length ≤ d.handle.capacity := by
      have := hres.room
      omega
    obtain ⟨s, hs, -⟩ := hd.window (hres.does.live rfl hres.live)
    have hcourse := course_appended hd hs hopen hroom
    have hfront : d.front = b.front := by
      rw [front, front, hfollows.offset, hres.cursor]
    rw [hfront] at hcourse
    change ((append bytes >>= fun _ => pure bytes.length) d).Meets _ _
    rw [Action.bind_of_ok (append_of_room hd hs hopen hroom)]
    have hdoes := hres.does.then (f := .write b.front bytes) hcourse
    rwa [Effect.none_andThen] at hdoes
  · exact meets_then_pure (append_performs hb bytes)

end Append

section Overwrite

theorem overwriteArray_performs (hb : b.Valid) (data : Bytes) :
    Performs (Action.update (overwriteArray data))
      (.write b.handle.offset (data.take b.handle.capacity)) b := by
  refine performs_update ?_ ?_ rfl
  · simp only [overwriteArray, checkArray]
    refine b.sound_checkMutable.bind fun _ _ => Sound.bind ?_ fun _ _ => hb.sound_overwrite _ _ _
    exact .ite (fun _ => sound_ok _) (fun _ => sound_error trivial)
  · intro c hc
    simp only [overwriteArray] at hc
    obtain ⟨⟨⟩, -, hc⟩ := except_bind_eq_ok.1 hc
    obtain ⟨⟨⟩, -, hc⟩ := except_bind_eq_ok.1 hc
    exact course_overwrite hc

theorem overwriteWritable_performs (hb : b.Valid) (data : Bytes) :
    Performs (Action.update (overwriteWritable data))
      (.write b.front (data.take b.handle.writable)) b := by
  refine performs_update ?_ ?_ rfl
  · simp only [overwriteWritable]
    exact b.sound_checkLive.bind fun _ _ => hb.sound_overwrite _ _ _
  · intro c hc
    simp only [overwriteWritable] at hc
    obtain ⟨⟨⟩, -, hc⟩ := except_bind_eq_ok.1 hc
    exact course_overwrite hc

theorem sound_bytes (v : Scalar) : Sound v.bytes := by
  cases v with
  | char value => exact .ite (fun _ => sound_ok _) (fun _ => sound_error trivial)
  | _ => exact sound_ok _

def bytesOf (v : Scalar) : Bytes :=
  match v.bytes with
  | .ok bytes => bytes
  | .error _ => []

theorem bytesOf_eq {v : Scalar} {bytes : Bytes} (h : v.bytes = .ok bytes) : bytesOf v = bytes := by
  rw [bytesOf, h]

theorem setScalar_performs (hb : b.Valid) (i : Nat) (v : Scalar) :
    Performs (Action.update (setScalar i v)) (.write (b.handle.offset + i) (bytesOf v)) b := by
  refine performs_update ?_ ?_ rfl
  · simp only [setScalar]
    exact (sound_bytes v).bind fun _ _ => hb.sound_overwrite _ _ _
  · intro c hc
    simp only [setScalar] at hc
    obtain ⟨bytes, hbytes, hc⟩ := except_bind_eq_ok.1 hc
    rw [bytesOf_eq hbytes]
    exact course_write hc

theorem writeScalar_performs (hb : b.Valid) (v : Scalar) :
    Performs (writeScalar v) (.write b.front (bytesOf v)) b := by
  refine meets_ask_bind (fun bytes hbytes => ?_) fun f hf => refuses_self (sound_bytes v f hf)
  rw [bytesOf_eq hbytes]
  exact append_performs hb bytes

end Overwrite

end Buffer

namespace Charset

open Text

theorem length_encodeChar (c : Char) :
    1 ≤ (Utf16.unitsOfChar c).length ∧
      (Utf16.unitsOfChar c).length ≤ (Utf8.encodeChar c).length ∧
      (Utf8.encodeChar c).length ≤ (Utf16.unitsOfChar c).length * 3 := by
  simp only [Utf16.unitsOfChar, Utf8.encodeChar]
  by_cases h : c.toNat < 0x10000
  · simp only [if_pos h]
    split
    · simp
    · split
      · simp
      · simp
  · rw [if_neg h, if_neg (by omega), if_neg (by omega), if_neg h]
    simp

theorem length_units (text : List Char) :
    text.length ≤ (Utf16.units text).length ∧
      (Utf16.units text).length ≤ (Utf8.encode text).length ∧
      (Utf8.encode text).length ≤ (Utf16.units text).length * 3 := by
  induction text with
  | nil => exact ⟨Nat.le_refl 0, Nat.le_refl 0, Nat.le_refl 0⟩
  | cons c text ih =>
    have hchar := length_encodeChar c
    simp only [Utf16.units, Utf8.encode, List.flatMap_cons, List.length_append,
      List.length_cons] at ih ⊢
    omega

theorem length_utf16 (order : ByteOrder) (text : List Char) :
    (Utf16.encode order text).length = (Utf16.units text).length * 2 := by
  simp only [Utf16.encode]
  induction Utf16.units text with
  | nil => rfl
  | cons u us ih =>
    rw [List.flatMap_cons, List.length_append, ih, Utf16.bytesOfUnit, ByteOrder.length_arrange,
      Bytes.length_ofInt, List.length_cons]
    omega

theorem length_encode_le (charset : Charset) (text : List Char) :
    (charset.encode text).length ≤ (Utf16.units text).length * charset.maxBytesPerUnit := by
  have hlen := length_units text
  cases charset with
  | utf8 => exact hlen.2.2
  | usAscii | iso8859 =>
    simp only [encode, length_encodeBelow, maxBytesPerUnit]
    omega
  | utf16 order => exact Nat.le_of_eq (length_utf16 order text)

/-- The worst length of a text in memory is a word, so it is not held below the real length. -/
theorem length_encode_le_worst (charset : Charset) {text : List Char}
    (h : (Utf8.encode text).length ≤ Word.longest) :
    (charset.encode text).length ≤ charset.worstLength text := by
  have hlargest : (charset.encode text).length ≤ Word.largest := by
    have hlen := length_units text
    have hword : 2 * Word.longest ≤ Word.largest := by decide
    cases charset with
    | utf8 =>
      simp only [encode]
      omega
    | usAscii | iso8859 =>
      simp only [encode, length_encodeBelow]
      omega
    | utf16 order =>
      simp only [encode, length_utf16]
      omega
  exact Nat.le_min.2 ⟨length_encode_le charset text, hlargest⟩

theorem length_line_le_worst {text : List Char} (h : (Utf8.encode text).length ≤ Word.longest) :
    (utf8.encode text ++ [10]).length ≤ Word.addSaturating (utf8.worstLength text) 1 := by
  have hworst := utf8.length_encode_le_worst h
  have hword : Word.longest + 1 ≤ Word.largest := by decide
  rw [List.length_append, List.length_singleton, Word.addSaturating]
  refine Nat.le_min.2 ⟨Nat.succ_le_succ hworst, ?_⟩
  exact Nat.le_trans (Nat.succ_le_succ h) hword

end Charset

namespace Buffer

variable {b : Buffer} {text : List Char}

theorem writeString_performs (hb : b.Valid) (charset : Charset)
    (h : (Text.Utf8.encode text).length ≤ Word.longest) :
    Performs (writeString text charset) (.write b.front (charset.encode text)) b :=
  appendEncoded_performs hb (charset.length_encode_le_worst h)

theorem writeLine_performs (hb : b.Valid) (h : (Text.Utf8.encode text).length ≤ Word.longest) :
    Performs (writeLine text) (.write b.front (Charset.utf8.encode text ++ [10])) b :=
  appendEncoded_performs hb (Charset.length_line_le_worst h)

end Buffer

end SharedBuffer
