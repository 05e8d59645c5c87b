import SharedBuffer.Command
import SharedBuffer.Proofs.Transfer

/-!
Operations that look at a buffer or move its reader. Every question is answered or refused for a
foreseen cause, a byte that is found lies in the range that was searched, and what has been found
or measured can be consumed.
-/

namespace SharedBuffer

theorem Visit.stop_ofBytes_lt {σ : Type} {feed : Feed σ} {s : σ} {bs : Bytes} {i : Nat}
    (h : (ofBytes feed s bs).stop = some i) : i < bs.length := by
  induction bs generalizing s i with
  | nil => cases h
  | cons b bs ih =>
    rw [ofBytes] at h
    split at h
    · obtain ⟨k, hk, rfl⟩ := Option.map_eq_some_iff.1 h
      exact Nat.succ_lt_succ (ih hk)
    · cases h
      exact Nat.zero_lt_succ _

namespace Buffer

open SharedBuffer.Action (meets_bind meets_ask_bind meets_update meets_map ask_bind_of_ok current_bind)

variable {b c : Buffer} {n : Nat}

section Search

variable {σ : Type}

theorem stop_scanForward {feed : Feed σ} {s : σ} {i n : Nat} {v : Visit σ}
    (h : scanForward feed b s i n = .ok v) {p : Nat} (hp : v.stop = some p) :
    i ≤ p ∧ p < i + n := by
  fun_induction scanForward feed b s i n generalizing v with
  | case1 s i =>
    cases h
    simp at hp
  | case2 => cases h
  | case3 s i n hn m bytes hread w k =>
    rename_i hstop
    cases h
    cases hp
    have hk := Visit.stop_ofBytes_lt hstop
    have hlen := length_of_read hread
    omega
  | case4 => cases h
  | case5 s i n hn m bytes hread w hstop u hrest =>
    rename_i ih
    cases h
    have hin := ih hrest hp
    omega

theorem Valid.sound_scanForward (hb : b.Valid) (feed : Feed σ) (s : σ) (i n : Nat) :
    Sound (scanForward feed b s i n) := by
  fun_induction scanForward feed b s i n with
  | case1 => exact sound_ok _
  | case2 s i n hn m f hread => exact sound_error (hb.sound_read _ _ f hread)
  | case3 => exact sound_ok _
  | case4 s i n hn m bytes hread w hstop f hrest ih => exact sound_error (ih f hrest)
  | case5 => exact sound_ok _

theorem Valid.sound_scanBackward (hb : b.Valid) (feed : Feed σ) (s : σ) (i n : Nat) :
    Sound (scanBackward feed b s i n) := by
  fun_induction scanBackward feed b s i n with
  | case1 => exact sound_ok _
  | case2 s n hn m start f hread => exact sound_error (hb.sound_read _ _ f hread)
  | case3 => exact sound_ok _
  | case4 s n hn m start bytes hread w hstop f hrest ih => exact sound_error (ih f hrest)
  | case5 => exact sound_ok _

theorem Valid.sound_scan (hb : b.Valid) (d : Direction) (feed : Feed σ) (s : σ) (i n : Nat) :
    Sound (scan d feed b s i n) := by
  cases d with
  | forward => exact hb.sound_scanForward feed s i n
  | backward => exact hb.sound_scanBackward feed s i n

theorem Valid.sound_visitBytes (hb : b.Valid) (d : Direction) (feed : Feed σ) (s : σ) (i n : Nat) :
    Sound (b.visitBytes d feed s i n) := by
  simp only [visitBytes]
  refine b.sound_checkLive.bind fun _ _ => (sound_checkBounds _ _ _).bind fun _ _ => ?_
  exact hb.sound_scan d feed s i n

theorem Valid.sound_haystack (hb : b.Valid) (start stop : Nat) (pattern : Bytes) :
    Sound (b.haystack start stop pattern) := by
  simp only [haystack]
  refine .ite (fun _ => sound_error trivial) fun _ => b.sound_checkLive.bind fun _ _ => ?_
  exact .ite (fun _ => sound_ok _) (fun _ => hb.sound_read _ _)

theorem Valid.sound_findByte (hb : b.Valid) (start stop : Nat) (value : UInt8) :
    Sound (b.findByte start stop value) := by
  simp only [findByte]
  refine b.sound_checkLive.bind fun _ _ => .ite (fun _ => sound_ok _) fun _ => ?_
  exact (hb.sound_scan _ _ _ _ _).bind fun _ _ => sound_ok _

theorem Valid.sound_distanceIn (hb : b.Valid) (i n : Nat) (value : UInt8) :
    Sound (b.distanceIn i n value) := by
  simp only [distanceIn]
  exact (hb.sound_visitBytes _ _ _ _ _).bind fun _ _ => sound_ok _

theorem distanceTo_lt {value : UInt8} (h : b.distanceTo value = .ok (some n)) :
    n < b.handle.cursor.readable := by
  simp only [distanceTo, distanceIn, visitBytes] at h
  obtain ⟨v, hv, h⟩ := except_bind_eq_ok.1 h
  obtain ⟨⟨⟩, -, hv⟩ := except_bind_eq_ok.1 hv
  obtain ⟨⟨⟩, -, hv⟩ := except_bind_eq_ok.1 hv
  simp only [pure, Except.pure, Except.ok.injEq, Option.map_eq_some_iff] at h
  obtain ⟨p, hp, rfl⟩ := h
  have hin := stop_scanForward hv hp
  simp only [Handle.readable] at hin
  omega

end Search

section Consume

theorem peek_eq_ok {bytes : Bytes} (h : b.peek n = .ok bytes) :
    n ≤ b.handle.cursor.readable ∧ b.read b.handle.reader n = .ok bytes := by
  simp only [peek] at h
  obtain ⟨⟨⟩, -, h⟩ := except_bind_eq_ok.1 h
  obtain ⟨⟨⟩, hle, h⟩ := except_bind_eq_ok.1 h
  exact ⟨Cursor.checkReadable_eq_ok_iff.1 hle, h⟩

theorem Valid.sound_peek (hb : b.Valid) (n : Nat) : Sound (b.peek n) := by
  simp only [peek]
  refine b.sound_checkLive.bind fun _ _ => (Cursor.sound_checkReadable _ _).bind fun _ _ => ?_
  exact hb.sound_read _ _

theorem Valid.peek_of_le (hb : b.Valid) (live : 0 < b.group.count)
    (hn : n ≤ b.handle.cursor.readable) : ∃ bytes, b.peek n = .ok bytes := by
  obtain ⟨s, hs, -⟩ := hb.window live
  have hin : b.handle.reader + n ≤ b.handle.capacity :=
    Nat.le_trans (Nat.add_le_add_left hn _) (readable_le hb)
  have hlive : b.checkLive = .ok () := (checkLive_eq_ok_iff b).2 live
  have hread : b.handle.cursor.checkReadable n = .ok () := Cursor.checkReadable_eq_ok_iff.2 hn
  exact ⟨_, by simp only [peek, hlive, hread, bind, Except.bind]; exact hb.read_of_le hs hin⟩

theorem consume_of_peek {bytes : Bytes} (h : b.peek n = .ok bytes) :
    consume n b = ⟨.ok bytes, b.moveCursor (Cursor.advanceReader n), []⟩ := by
  simp only [consume]
  rw [ask_bind_of_ok h]
  rfl

theorem consume_performs (hb : b.Valid) (n : Nat) : Performs (consume n) {} b := by
  refine meets_ask_bind (fun bytes hpeek => ?_) (refuses_of_sound (hb.sound_peek n))
  obtain ⟨hle, -⟩ := peek_eq_ok hpeek
  exact .of_quiet (course_seek (hb.handle.cursor.advanceReader hle)) rfl

theorem consumeInto_performs (hb : b.Valid) (n room : Nat) :
    Performs (consumeInto n room) {} b := by
  refine meets_ask_bind (fun _ _ => ?_) (refuses_of_sound b.sound_checkLive)
  split
  · exact refuses_self trivial
  · exact consume_performs hb n

theorem checkLive_of_distanceTo {value : UInt8} {o : Option Nat} (h : b.distanceTo value = .ok o) :
    0 < b.group.count := by
  simp only [distanceTo, distanceIn, visitBytes] at h
  obtain ⟨v, hv, -⟩ := except_bind_eq_ok.1 h
  obtain ⟨⟨⟩, hlive, -⟩ := except_bind_eq_ok.1 hv
  exact (checkLive_eq_ok_iff b).1 hlive

/-- The line feed that ends a line is still readable after the line, so it can be skipped. -/
theorem readLine_performs (hb : b.Valid) : Performs readLine {} b := by
  refine meets_ask_bind ?_ (refuses_of_sound (hb.sound_distanceIn _ _ _))
  rintro (_ | n) hfound
  · exact does_refl b
  · have hlt := distanceTo_lt hfound
    have live := checkLive_of_distanceTo hfound
    obtain ⟨bytes, hpeek⟩ := hb.peek_of_le live (Nat.le_of_lt hlt)
    have hone : 1 ≤ (b.handle.cursor.advanceReader n).readable := by
      simp only [Cursor.readable, Cursor.advanceReader] at hlt ⊢
      omega
    have hskip := skip_of_le (b := b.moveCursor (Cursor.advanceReader n)) live hone
    change ((consume n >>= fun line => Action.update (skip 1) >>= fun _ =>
      pure (some (Charset.utf8.decode (trimReturn line)))) b).Meets _ _
    rw [Action.bind_of_ok (consume_of_peek hpeek),
      Action.bind_of_ok (Action.update_of_ok hskip)]
    have hfirst := hb.handle.cursor.advanceReader (Nat.le_of_lt hlt)
    have hboth := hfirst.advanceReader hone
    exact .of_quiet (course_seek (f := fun k => (k.advanceReader n).advanceReader 1) hboth) rfl

end Consume

section Compact

def unread (b : Buffer) : Bytes :=
  match b.content with
  | .ok bytes => bytes
  | .error _ => []

theorem unread_eq (hb : b.Valid) {s : Storage} (hs : b.group.storage = some s) :
    b.unread = s.bytes.window (b.handle.offset + b.handle.reader) b.handle.readable := by
  simp only [unread, content, hb.read_of_le hs (readable_le hb)]

theorem moveRange_eq_ok {s t : Storage} {src n dest : Nat} (h : s.moveRange src n dest = .ok t) :
    t = { s with bytes := s.bytes.splice dest (s.bytes.window src n) } := by
  simp only [Storage.moveRange] at h
  split at h
  · simp at h
  · simp at h
  · cases h
    rfl

theorem sound_moveRange (s : Storage) (src n dest : Nat) : Sound (s.moveRange src n dest) := by
  simp only [Storage.moveRange]
  split
  · next f hf => exact sound_error (sound_checkBounds _ _ _ f hf)
  · next f _ hf => exact sound_error (sound_checkBounds _ _ _ f hf)
  · exact sound_ok _

theorem sound_moveReadable (b : Buffer) : Sound b.moveReadable := by
  simp only [moveReadable]
  refine .ite (fun _ => sound_ok _) fun _ => b.sound_heldStorage.bind fun s _ => ?_
  exact (sound_moveRange s _ _ _).bind fun _ _ => sound_ok _

theorem moveReadable_eq_ok (hb : b.Valid) (live : 0 < b.group.count)
    (hopen : b.handle.readOnly = false) (h : b.moveReadable = .ok c) :
    Course (.write b.handle.offset b.unread) b c [] ∧ c.handle = b.handle := by
  obtain ⟨s, hs, hon⟩ := hb.window live
  have hw := hon.window_le
  have hle := readable_le hb
  have hunread := unread_eq hb hs
  have hlen : b.unread.length = b.handle.readable := by
    rw [hunread]
    exact Bytes.length_window (show _ ≤ s.capacity by omega)
  simp only [moveReadable] at h
  split at h
  · next hnone =>
    cases h
    rw [List.length_eq_zero_iff.1 (hlen.trans hnone), Effect.write_nil]
    exact ⟨.refl b, rfl⟩
  · obtain ⟨u, hu, h⟩ := except_bind_eq_ok.1 h
    rw [heldStorage_eq_ok, hs] at hu
    cases hu
    obtain ⟨t, ht, h⟩ := except_bind_eq_ok.1 h
    cases h
    rw [moveRange_eq_ok ht, ← hunread]
    exact ⟨course_patch (i := 0) hs hopen (by omega), rfl⟩

def compaction (b : Buffer) : Effect :=
  if b.handle.reader = 0 then {} else .write b.handle.offset b.unread

theorem back_compaction (b : Buffer) : b.compaction.back = [] := by
  simp only [compaction]
  split <;> rfl

theorem sound_compact (b : Buffer) : Sound b.compact := by
  simp only [compact]
  refine b.sound_checkMutable.bind fun _ _ => .ite (fun _ => sound_ok _) fun _ => ?_
  exact b.sound_moveReadable.bind fun _ _ => sound_ok _

theorem course_compact (hb : b.Valid) (h : b.compact = .ok c) : Course b.compaction b c [] := by
  simp only [compact] at h
  obtain ⟨⟨⟩, hmut, h⟩ := except_bind_eq_ok.1 h
  obtain ⟨live, hopen⟩ := (checkMutable_eq_ok_iff b).1 hmut
  simp only [compaction]
  split at h
  · next hfirst =>
    cases h
    rw [if_pos hfirst]
    exact .refl b
  · next hfirst =>
    rw [if_neg hfirst]
    obtain ⟨d, hd, h⟩ := except_bind_eq_ok.1 h
    cases h
    obtain ⟨hcourse, hhandle⟩ := moveReadable_eq_ok hb live hopen hd
    have hshift : (d.handle.cursor.shift b.handle.reader).Within d.handle.capacity := by
      rw [hhandle]
      exact hb.handle.cursor.shift _
    have hboth := hcourse.trans (course_seek hshift)
    rwa [Effect.andThen_none] at hboth

theorem compact_performs (hb : b.Valid) : Performs (Action.update compact) b.compaction b :=
  performs_update b.sound_compact (fun _ hc => course_compact hb hc) b.back_compaction

def lazyCompaction (b : Buffer) : Effect :=
  if b.handle.reader ≠ b.handle.writer ∧ b.handle.capacity / 2 ≤ b.handle.reader then b.compaction
  else {}

theorem back_lazyCompaction (b : Buffer) : b.lazyCompaction.back = [] := by
  simp only [lazyCompaction]
  split
  · exact b.back_compaction
  · rfl

theorem compactLazily_performs (hb : b.Valid) :
    Performs (Action.update compactLazily) b.lazyCompaction b := by
  refine performs_update ?_ ?_ b.back_lazyCompaction
  · simp only [compactLazily]
    refine b.sound_checkMutable.bind fun _ _ => .ite (fun _ => sound_ok _) fun _ => ?_
    refine .ite (fun _ => sound_ok _) fun _ => ?_
    exact .ite (fun _ => b.sound_compact) (fun _ => sound_ok _)
  · intro c hc
    simp only [compactLazily] at hc
    obtain ⟨⟨⟩, -, hc⟩ := except_bind_eq_ok.1 hc
    simp only [lazyCompaction]
    split at hc
    · next hfirst =>
      cases hc
      rw [compaction, if_pos hfirst, ite_self]
      exact .refl b
    · split at hc
      · next hempty =>
        cases hc
        rw [if_neg (by simp [hempty])]
        exact course_seek (hb.handle.cursor.shift _)
      · next hsome =>
        split at hc
        · next hhalf =>
          rw [if_pos ⟨hsome, hhalf⟩]
          exact course_compact hb hc
        · next hhalf =>
          cases hc
          rw [if_neg (by simp [hhalf])]
          exact .refl b

end Compact

theorem Valid.sound_answer (hb : b.Valid) (q : Query) : Sound (q.answer b) := by
  cases q with
  | info | isReadable | isWritable | count => exact sound_ok _
  | getBytes index length => exact (hb.sound_read _ _).map _
  | wholeArray =>
    refine Sound.map ?_ _
    simp only [wholeArray]
    refine b.sound_checkLive.bind fun _ _ => b.sound_heldStorage.bind fun s _ => ?_
    split
    · exact sound_error trivial
    · exact sound_ok _
  | content | dump | contentHex => exact (hb.sound_read _ _).map _
  | arrayOffset =>
    refine Sound.map ?_ _
    simp only [arrayOffset, checkArray]
    refine Sound.bind ?_ fun _ _ => sound_ok _
    exact .ite (fun _ => sound_ok _) (fun _ => sound_error trivial)
  | getScalar type index => exact ((hb.sound_read _ _).bind fun _ _ => sound_ok _).map _
  | getString index length charset => exact ((hb.sound_read _ _).bind fun _ _ => sound_ok _).map _
  | contentString charset => exact ((hb.sound_read _ _).bind fun _ _ => sound_ok _).map _
  | findByte start stop value => exact (hb.sound_findByte _ _ _).map _
  | findFirst start stop pattern =>
    exact ((hb.sound_haystack _ _ _).bind fun _ _ => sound_ok _).map _
  | findLast start stop pattern =>
    exact ((hb.sound_haystack _ _ _).bind fun _ _ => sound_ok _).map _
  | distanceTo value => exact (hb.sound_distanceIn _ _ _).map _
  | distanceWithin n value =>
    refine Sound.map (b.sound_checkLive.bind fun _ _ => ?_) _
    exact (Cursor.sound_checkReadable _ _).bind fun _ _ => hb.sound_distanceIn _ _ _
  | distanceIn index length value => exact (hb.sound_distanceIn _ _ _).map _
  | visit direction extent processor =>
    refine Sound.map ?_ _
    cases extent with
    | within index length => exact hb.sound_visitBytes _ _ _ _ _
    | readable => exact hb.sound_visitBytes _ _ _ _ _
  | visitAll index length processors =>
    refine Sound.map ?_ _
    exact .ite (fun _ => sound_error trivial) (fun _ => hb.sound_visitBytes _ _ _ _ _)

end Buffer

end SharedBuffer
