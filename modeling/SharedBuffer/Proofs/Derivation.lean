import SharedBuffer.Command
import SharedBuffer.Proofs.Counting
import SharedBuffer.Proofs.Transfer

/-!
New handles. Main statement: a derivation makes a valid handle, either on the storage of the group
it joins or, for a copy, on a valid storage of its own, or it is refused and nothing has happened.
-/

namespace SharedBuffer

namespace Handle

variable {h : Handle} {s : Storage} {i n : Nat}

theorem valid_slice (hv : h.Valid) (hin : i + n ≤ h.capacity) : (h.slice i n).Valid where
  cursor := Cursor.within_between (Nat.zero_le n) (Nat.le_refl n)
  capacity_le_max := Nat.le_refl n
  max_le_largest := by
    have hle := hv.capacity_le_largest
    change n ≤ Word.largest
    omega
  slice_fixed _ := rfl
  offset_zero hfree := absurd rfl hfree

theorem on_slice (hon : h.On s) (hin : i + n ≤ h.capacity) : (h.slice i n).On s where
  window_le := by
    have hw := hon.window_le
    change h.offset + i + n ≤ s.capacity
    omega
  max_eq hfree := absurd rfl hfree

theorem slice_of_duplicate (hslice : h.duplicate.origin = .slice) : h.origin = .slice := by
  simp only [duplicate] at hslice
  split at hslice
  · next h => exact h
  · simp at hslice

theorem free_of_duplicate (hfree : h.duplicate.origin ≠ .slice) : h.origin ≠ .slice := by
  intro hslice
  exact hfree (if_pos hslice)

theorem valid_duplicate (hv : h.Valid) : h.duplicate.Valid where
  cursor := hv.cursor.markReader.markWriter
  capacity_le_max := hv.capacity_le_max
  max_le_largest := hv.max_le_largest
  slice_fixed hslice := hv.slice_fixed (slice_of_duplicate hslice)
  offset_zero hfree := hv.offset_zero (free_of_duplicate hfree)

theorem on_duplicate (hon : h.On s) : h.duplicate.On s where
  window_le := hon.window_le
  max_eq hfree := hon.max_eq (free_of_duplicate hfree)

theorem valid_readOnly (hv : h.Valid) : ({ h with readOnly := true } : Handle).Valid :=
  ⟨hv.cursor, hv.capacity_le_max, hv.max_le_largest, hv.slice_fixed, hv.offset_zero⟩

theorem valid_whole (hs : s.Valid) (h : Handle) : (h.whole s).Valid where
  cursor := Cursor.within_between (Nat.zero_le _) (Nat.le_refl _)
  capacity_le_max := hs.capacity_le_max
  max_le_largest := hs.max_le_largest
  slice_fixed hslice := by cases hslice
  offset_zero _ := rfl

theorem on_whole (s : Storage) (h : Handle) : (h.whole s).On s :=
  ⟨Nat.le_of_eq (Nat.zero_add _), fun _ => rfl⟩

theorem valid_root {m w : Nat} (hw : w ≤ n) (hn : n ≤ m) (hm : m ≤ Word.largest) (expand : Bool) :
    (root n m w expand).Valid where
  cursor := Cursor.within_between (Nat.zero_le w) hw
  capacity_le_max := hn
  max_le_largest := hm
  slice_fixed hslice := by cases hslice
  offset_zero _ := rfl

theorem on_root {m w : Nat} (hcap : s.capacity = n) (hmax : s.maxCapacity = m) (expand : Bool) :
    (root n m w expand).On s :=
  ⟨Nat.le_of_eq ((Nat.zero_add n).trans hcap.symm), fun _ => hmax.symm⟩

end Handle

namespace Buffer

open SharedBuffer.Action (meets_bind meets_ask_bind meets_update meets_then_pure ask_bind_of_ok
  ask_bind_of_error current_bind)

variable {b b' : Buffer} {h : Handle} {log : List Event} {i n : Nat}

/-- A handle that may join the group of the buffer. What is read-only makes no handle that is not. -/
structure View (b : Buffer) (h : Handle) : Prop where
  live : 0 < b.group.count
  valid : h.Valid
  on : ∀ s, b.group.storage = some s → h.On s
  readOnly : b.handle.readOnly = true → h.readOnly = true

theorem View.of_storage (hv : b.View h) (live : 0 < b'.group.count)
    (hs : b'.group.storage = b.group.storage) (hopen : b'.handle.readOnly = b.handle.readOnly) :
    b'.View h :=
  ⟨live, hv.valid, fun s hs' => hv.on s (hs ▸ hs'), fun h' => hv.readOnly (hopen ▸ h')⟩

section Views

theorem sound_slice (i n : Nat) (b : Buffer) : Sound (b.slice i n) := by
  simp only [slice]
  apply b.sound_checkLive.bind
  intro _ _
  exact (sound_checkBounds _ _ _).bind fun _ _ => sound_ok _

theorem slice_eq_ok (hb : b.Valid) : b.slice i n = .ok h ↔
    0 < b.group.count ∧ i + n ≤ b.handle.capacity ∧ h = b.handle.slice i n := by
  simp only [slice]
  constructor
  · intro h1
    obtain ⟨⟨⟩, hlive, h1⟩ := except_bind_eq_ok.1 h1
    obtain ⟨⟨⟩, hbounds, h1⟩ := except_bind_eq_ok.1 h1
    cases h1
    exact ⟨(checkLive_eq_ok_iff b).1 hlive,
      (checkBounds_eq_ok_iff hb.handle.capacity_le_largest).1 hbounds, rfl⟩
  · intro h
    obtain ⟨live, hin, rfl⟩ := h
    have hlive : b.checkLive = .ok () := (checkLive_eq_ok_iff b).2 live
    have hbounds : checkBounds i n b.handle.capacity = .ok () :=
      (checkBounds_eq_ok_iff hb.handle.capacity_le_largest).2 hin
    simp only [hlive, hbounds, bind, Except.bind, pure, Except.pure]

theorem view_slice (hb : b.Valid) (live : 0 < b.group.count) (hin : i + n ≤ b.handle.capacity) :
    b.View (b.handle.slice i n) := by
  refine ⟨live, Handle.valid_slice hb.handle hin, fun s hs => ?_, id⟩
  exact Handle.on_slice (hb.on hs) hin

theorem sound_duplicate (b : Buffer) : Sound b.duplicate := by
  simp only [duplicate]
  exact b.sound_checkLive.bind fun _ _ => sound_ok _

theorem duplicate_eq_ok : b.duplicate = .ok h ↔ 0 < b.group.count ∧ h = b.handle.duplicate := by
  simp only [duplicate]
  constructor
  · intro h1
    obtain ⟨⟨⟩, hlive, h1⟩ := except_bind_eq_ok.1 h1
    cases h1
    exact ⟨(checkLive_eq_ok_iff b).1 hlive, rfl⟩
  · intro h
    obtain ⟨live, rfl⟩ := h
    have hlive : b.checkLive = .ok () := (checkLive_eq_ok_iff b).2 live
    simp only [hlive, bind, Except.bind, pure, Except.pure]

theorem view_duplicate (hb : b.Valid) (live : 0 < b.group.count) : b.View b.handle.duplicate := by
  refine ⟨live, Handle.valid_duplicate hb.handle, fun s hs => ?_, id⟩
  exact Handle.on_duplicate (hb.on hs)

theorem view_readOnlyView (hb : b.Valid) (h1 : b.readOnlyView = .ok h) :
    b.View h ∧ h.readOnly = true := by
  simp only [readOnlyView] at h1
  obtain ⟨k, hk, h1⟩ := except_bind_eq_ok.1 h1
  obtain ⟨live, rfl⟩ := duplicate_eq_ok.1 hk
  cases h1
  have hview := view_duplicate hb live
  refine ⟨⟨live, Handle.valid_readOnly hview.valid, fun s hs => ?_, fun _ => rfl⟩, rfl⟩
  exact ⟨(hview.on s hs).window_le, (hview.on s hs).max_eq⟩

theorem sound_whole (b : Buffer) : Sound b.whole := by
  simp only [whole]
  refine .ite (fun _ => b.sound_duplicate) fun _ => b.sound_checkLive.bind fun _ _ => ?_
  exact b.sound_heldStorage.bind fun _ _ => sound_ok _

theorem view_whole (hb : b.Valid) (h1 : b.whole = .ok h) : b.View h := by
  simp only [whole] at h1
  split at h1
  · obtain ⟨live, rfl⟩ := duplicate_eq_ok.1 h1
    exact view_duplicate hb live
  · obtain ⟨⟨⟩, hlive, h1⟩ := except_bind_eq_ok.1 h1
    obtain ⟨s, hs, h1⟩ := except_bind_eq_ok.1 h1
    cases h1
    rw [heldStorage_eq_ok] at hs
    refine ⟨(checkLive_eq_ok_iff b).1 hlive, ?_, fun t ht => ?_, id⟩
    · exact Handle.valid_whole (hb.group.storage s hs).1 _
    · rw [hs] at ht
      cases ht
      exact Handle.on_whole s _

end Views

section Retained

/-- Retaining first does not make the slice fail afterwards. -/
theorem retainedSlice_meets (hb : b.Valid) (i n : Nat) :
    (retainedSlice i n b).Meets
      (fun h b' log => Course { gained := 1 } b b' log ∧ b'.View h ∧ b'.handle = b.handle)
      b.Refuses := by
  refine meets_ask_bind (fun _ hlive => ?_) (refuses_of_sound b.sound_checkLive)
  refine meets_ask_bind (fun _ hbounds => ?_) fun f hf =>
    refuses_self (sound_checkBounds _ _ _ f hf)
  have live := (checkLive_eq_ok_iff b).1 hlive
  have hin := (checkBounds_eq_ok_iff hb.handle.capacity_le_largest).1 hbounds
  apply meets_bind
  apply (retain_meets 1 b).imp
  intro _ c log h
  obtain ⟨hcourse, -, rfl⟩ := h
  have hslice : (b.setCount (b.group.count + 1)).slice i n = .ok (b.handle.slice i n) :=
    (slice_eq_ok (hcourse.valid hb)).2 ⟨Nat.succ_pos _, hin, rfl⟩
  rw [Action.ask_of_ok hslice]
  refine ⟨?_, (view_slice hb live hin).of_storage (Nat.succ_pos _) rfl rfl, rfl⟩
  rwa [List.append_nil]

theorem retainedDuplicate_meets (hb : b.Valid) :
    (retainedDuplicate b).Meets (fun h b' log => Course { gained := 1 } b b' log ∧ b'.View h)
      b.Refuses := by
  apply meets_bind
  apply (retain_meets 1 b).imp
  intro _ c log h
  obtain ⟨hcourse, live, rfl⟩ := h
  have hdup : (b.setCount (b.group.count + 1)).duplicate = .ok b.handle.duplicate :=
    duplicate_eq_ok.2 ⟨Nat.succ_pos _, rfl⟩
  rw [Action.ask_of_ok hdup]
  refine ⟨?_, (view_duplicate hb live).of_storage (Nat.succ_pos _) rfl rfl⟩
  rwa [List.append_nil]

theorem takeRetainedSlice_meets (hb : b.Valid) (n : Nat) :
    (takeRetainedSlice n b).Meets (fun h b' log => Course { gained := 1 } b b' log ∧ b'.View h)
      b.Refuses := by
  simp only [takeRetainedSlice]
  rw [current_bind]
  refine meets_ask_bind (fun _ _ => ?_) (refuses_of_sound b.sound_checkLive)
  refine meets_ask_bind (fun _ hread => ?_) fun f hf =>
    refuses_self (Cursor.sound_checkReadable _ _ f hf)
  have hle := Cursor.checkReadable_eq_ok_iff.1 hread
  apply meets_bind
  apply (retainedSlice_meets hb _ n).imp
  intro h c log hmeets
  obtain ⟨hcourse, hview, hhandle⟩ := hmeets
  have hseek : (c.handle.cursor.advanceReader n).Within c.handle.capacity :=
    (hcourse.valid hb).handle.cursor.advanceReader (by rw [hhandle]; exact hle)
  refine ⟨?_, hview.of_storage hview.live rfl rfl⟩
  have hboth := hcourse.trans (course_seek hseek)
  rwa [Effect.andThen_none] at hboth

end Retained

section Taken

theorem takeSlice_meets (hb : b.Valid) (n : Nat) :
    (takeSlice n b).Meets (fun h b' log => Course {} b b' log ∧ b'.View h) b.Refuses := by
  refine meets_ask_bind (fun h hh => ?_) fun f hf => refuses_self ?_
  · obtain ⟨⟨⟩, -, hh⟩ := except_bind_eq_ok.1 hh
    obtain ⟨⟨⟩, hread, hh⟩ := except_bind_eq_ok.1 hh
    obtain ⟨live, hin, rfl⟩ := (slice_eq_ok hb).1 hh
    have hseek := hb.handle.cursor.advanceReader (Cursor.checkReadable_eq_ok_iff.1 hread)
    exact ⟨course_seek hseek, (view_slice hb live hin).of_storage live rfl rfl⟩
  · refine Sound.bind b.sound_checkLive (fun _ _ => ?_) f hf
    exact (Cursor.sound_checkReadable _ _).bind fun _ _ => b.sound_slice _ _

structure Copied (b : Buffer) (made : Handle × Storage) (b' : Buffer) (log : List Event) : Prop where
  course : Course {} b b' log
  same : b' = { b with pool := b'.pool }
  handle : made.1.Valid
  storage : made.2.Valid
  on : made.1.On made.2

theorem fillFrom_of_lend (hb : b.Valid) (live : 0 < b.group.count) (hin : i + n ≤ b.handle.capacity)
    {s : Storage} (hs : s.capacity = n) (p : Pool) :
    ∃ bytes, b.read i n = .ok bytes ∧ bytes.length = n ∧
      fillFrom s i n { b with pool := p } = .ok { s with bytes := s.bytes.splice 0 bytes } := by
  obtain ⟨t, ht, -⟩ := hb.window live
  have hread := hb.read_of_le ht hin
  have hlen := length_of_read hread
  refine ⟨_, hread, hlen, ?_⟩
  have hcap := hb.handle.capacity_le_largest
  have hroom : checkBounds 0 n s.capacity = .ok () := (checkBounds_eq_ok_iff (by omega)).2 (by omega)
  have hread' : ({ b with pool := p } : Buffer).read i n = _ := hread
  simp only [fillFrom, hread', bind, Except.bind, Storage.writeRange, hlen, hroom]

theorem lend_of_onPool {kind : StorageKind} {m : Nat} {p : Pool} {r : Except Fault Storage}
    (h : Pool.lend kind n m b.pool = ⟨r, p, log⟩) :
    onPool (Pool.lend kind n m) b = ⟨r, { b with pool := p }, log⟩ := by
  rw [onPool, Action.zoom, h]

theorem copy_of_lend (hb : b.Valid) (live : 0 < b.group.count) (hin : i + n ≤ b.handle.capacity)
    {s : Storage} {p : Pool}
    (h : Pool.lend b.group.kind n (max b.handle.maxCapacity n) b.pool = ⟨.ok s, p, log⟩) :
    ∃ bytes, b.read i n = .ok bytes ∧ bytes.length = n ∧ s.capacity = n ∧
      copy i n b = ⟨.ok (.root n (max b.handle.maxCapacity n) n b.handle.autoExpand,
        { s with bytes := s.bytes.splice 0 bytes }), { b with pool := p }, log⟩ := by
  have hshape := Pool.shape_of_lend (Outcome.result_of_eq h)
  have hcap : s.capacity = n := congrArg (·.2.1) hshape
  obtain ⟨bytes, hread, hlen, hfill⟩ := fillFrom_of_lend hb live hin hcap p
  refine ⟨bytes, hread, hlen, hcap, ?_⟩
  have hlive : b.checkLive = .ok () := (checkLive_eq_ok_iff b).2 live
  have hbounds : checkBounds i n b.handle.capacity = .ok () :=
    (checkBounds_eq_ok_iff hb.handle.capacity_le_largest).2 hin
  rw [copy, current_bind, ask_bind_of_ok hlive, ask_bind_of_ok (g := fun b : Buffer => checkBounds i n b.handle.capacity) hbounds,
    Action.bind_of_ok (lend_of_onPool h),
    Action.bind_of_ok (Action.orUndo_of_ok (Action.ask_of_ok hfill) _)]
  simp only [Action.pure_apply, List.append_nil]

theorem copy_of_refused (live : 0 < b.group.count)
    (hbounds : checkBounds i n b.handle.capacity = .ok ()) {f : Fault} {p : Pool}
    (h : Pool.lend b.group.kind n (max b.handle.maxCapacity n) b.pool = ⟨.error f, p, log⟩) :
    copy i n b = ⟨.error f, { b with pool := p }, log⟩ := by
  have hlive : b.checkLive = .ok () := (checkLive_eq_ok_iff b).2 live
  rw [copy, current_bind, ask_bind_of_ok hlive, ask_bind_of_ok (g := fun b : Buffer => checkBounds i n b.handle.capacity) hbounds,
    Action.bind_of_error (lend_of_onPool h)]

/-- Only the checks and the pool can refuse a copy: what is had for it is filled. -/
theorem copy_meets (hb : b.Valid) (i n : Nat) : (copy i n b).Meets b.Copied b.Refuses := by
  cases hlive : b.checkLive with
  | error f =>
    rw [copy, current_bind, ask_bind_of_error hlive]
    exact refuses_self (b.sound_checkLive _ hlive)
  | ok =>
  have live := (checkLive_eq_ok_iff b).1 hlive
  cases hbounds : checkBounds i n b.handle.capacity with
  | error f =>
    rw [copy, current_bind, ask_bind_of_ok hlive, ask_bind_of_error (g := fun b : Buffer => checkBounds i n b.handle.capacity) hbounds]
    exact refuses_self (sound_checkBounds _ _ _ f hbounds)
  | ok =>
  have hin := (checkBounds_eq_ok_iff hb.handle.capacity_le_largest).1 hbounds
  have hcap := hb.handle.capacity_le_largest
  have hmax := hb.handle.max_le_largest
  have hlend := (Move.lend (b := b) b.group.kind n (max b.handle.maxCapacity n)).course
  rcases ho : Pool.lend b.group.kind n (max b.handle.maxCapacity n) b.pool with ⟨f | s, p, log⟩
  · obtain ⟨hf, hforget, -⟩ := Pool.lend_eq_error (Outcome.result_of_eq ho)
    rw [ho] at hforget hlend
    rw [copy_of_refused live hbounds ho]
    exact ⟨hf, ⟨rfl, hforget⟩, hlend⟩
  · obtain ⟨bytes, -, hlen, hscap, hcopy⟩ := copy_of_lend hb live hin ho
    have hs := Pool.lend_eq_ok hb.pool (Outcome.result_of_eq ho)
    rw [ho] at hlend
    have hcapacity : ({ s with bytes := s.bytes.splice 0 bytes } : Storage).capacity = n := by
      rw [Storage.capacity, Bytes.length_splice (by change 0 + _ ≤ s.capacity; omega)]
      exact hscap
    have hmaxs : s.maxCapacity = max b.handle.maxCapacity n := by rw [hs]
    rw [hcopy]
    refine ⟨hlend, rfl, ?_, ⟨?_, ?_⟩, Handle.on_root hcapacity hmaxs _⟩
    · exact Handle.valid_root (Nat.le_refl n) (Nat.le_max_right _ _) (by omega) _
    · rw [hcapacity, hmaxs]
      exact Nat.le_max_right _ _
    · rw [hmaxs]
      omega

theorem takeCopy_meets (hb : b.Valid) (n : Nat) :
    (takeCopy n b).Meets
      (fun made b' log => Course {} b b' log ∧ made.1.Valid ∧ made.2.Valid ∧ made.1.On made.2)
      b.Refuses := by
  simp only [takeCopy]
  rw [current_bind]
  refine meets_ask_bind (fun _ _ => ?_) (refuses_of_sound b.sound_checkLive)
  refine meets_ask_bind (fun _ hread => ?_) fun f hf =>
    refuses_self (Cursor.sound_checkReadable _ _ f hf)
  have hle := Cursor.checkReadable_eq_ok_iff.1 hread
  apply meets_bind
  apply (copy_meets hb _ n).imp
  intro made c log hcopied
  have hseek : (c.handle.cursor.advanceReader n).Within c.handle.capacity := by
    rw [hcopied.same]
    exact hb.handle.cursor.advanceReader hle
  refine ⟨?_, hcopied.handle, hcopied.storage, hcopied.on⟩
  have hboth := hcopied.course.trans (course_seek hseek)
  rwa [Effect.andThen_none] at hboth

end Taken

end Buffer

namespace Derivation

open SharedBuffer.Action (meets_bind meets_ask_bind meets_then_pure meets_map current_bind)

def effect : Derivation → Effect
  | .retainedSlice _ | .retainedDuplicate | .takeRetainedSlice _ => { gained := 1 }
  | _ => {}

def copies : Derivation → Bool
  | .copy _ | .takeCopy _ => true
  | _ => false

def Made (d : Derivation) (b : Buffer) (made : Handle × Option Storage) : Prop :=
  match made.2 with
  | none => d.copies = false ∧ b.View made.1 ∧ (d = .readOnlyView → made.1.readOnly = true)
  | some s => d.copies = true ∧ made.1.Valid ∧ s.Valid ∧ made.1.On s

variable {b : Buffer}

theorem run_meets (hb : b.Valid) (d : Derivation) :
    (d.run b).Meets (fun made b' log => Course d.effect b b' log ∧ d.Made b' made) b.Refuses := by
  cases d with
  | copy extent =>
    rw [run, current_bind]
    apply meets_map
    apply (Buffer.copy_meets hb _ _).imp
    exact fun made b' log h => ⟨h.course, rfl, h.handle, h.storage, h.on⟩
  | slice extent =>
    refine meets_ask_bind (fun h hh => ?_) (Buffer.refuses_of_sound (b.sound_slice _ _))
    obtain ⟨live, hin, rfl⟩ := (Buffer.slice_eq_ok hb).1 hh
    exact ⟨Course.refl b, rfl, Buffer.view_slice hb live hin, nofun⟩
  | duplicate =>
    refine meets_ask_bind (fun h hh => ?_) (Buffer.refuses_of_sound b.sound_duplicate)
    obtain ⟨live, rfl⟩ := Buffer.duplicate_eq_ok.1 hh
    exact ⟨Course.refl b, rfl, Buffer.view_duplicate hb live, nofun⟩
  | retainedSlice extent =>
    rw [run, current_bind]
    apply meets_map
    apply (Buffer.retainedSlice_meets hb _ _).imp
    exact fun h b' log hmade => ⟨hmade.1, rfl, hmade.2.1, nofun⟩
  | retainedDuplicate =>
    apply meets_map
    apply (Buffer.retainedDuplicate_meets hb).imp
    exact fun h b' log hmade => ⟨hmade.1, rfl, hmade.2, nofun⟩
  | takeSlice n =>
    apply meets_map
    apply (Buffer.takeSlice_meets hb n).imp
    exact fun h b' log hmade => ⟨hmade.1, rfl, hmade.2, nofun⟩
  | takeRetainedSlice n =>
    apply meets_map
    apply (Buffer.takeRetainedSlice_meets hb n).imp
    exact fun h b' log hmade => ⟨hmade.1, rfl, hmade.2, nofun⟩
  | takeCopy n =>
    apply meets_map
    apply (Buffer.takeCopy_meets hb n).imp
    exact fun made b' log h => ⟨h.1, rfl, h.2⟩
  | readOnlyView =>
    refine meets_ask_bind (fun h hh => ?_) (Buffer.refuses_of_sound ?_)
    · obtain ⟨hview, hsealed⟩ := Buffer.view_readOnlyView hb hh
      exact ⟨Course.refl b, rfl, hview, fun _ => hsealed⟩
    · exact b.sound_duplicate.bind fun _ _ => sound_ok _
  | whole =>
    refine meets_ask_bind (fun h hh => ?_) (Buffer.refuses_of_sound b.sound_whole)
    exact ⟨Course.refl b, rfl, Buffer.view_whole hb hh, nofun⟩

end Derivation

end SharedBuffer
