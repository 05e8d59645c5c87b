import SharedBuffer.Proofs.Commands
import SharedBuffer.Proofs.RoundTrip

/-!
What a derivation that shares the bytes of its source comes to. Main statements: it makes one certain
handle, adds to the count what its form says and moves the reader of its source by what it takes, or
it fails and nothing has happened; and in an arena the handle gets its name in the group of the
source, while every other handle stays as it is.
-/

namespace SharedBuffer

structure Grant where
  handle : Handle
  taken : Nat

def Grant.source (g : Grant) (gained : Nat) (b : Buffer) : Buffer :=
  (b.setCount (b.group.count + gained)).moveCursor (Cursor.advanceReader g.taken)

namespace Buffer

open SharedBuffer.Action (Rejects ask_bind_of_ok update_of_ok bind_of_ok rejects_ask rejects_update)

variable {b : Buffer} {f : Fault} {h : Handle} {i n : Nat}

theorem retain_of_le (live : 0 < b.group.count) (hn : 0 < n) (room : b.group.count + n ≤ Word.largest) :
    b.retain n = .ok (b.setCount (b.group.count + n)) := retain_eq_ok_iff.2 ⟨hn, live, room, rfl⟩

theorem retain_of_lt (live : 0 < b.group.count) (hn : 0 < n) (full : Word.largest < b.group.count + n) :
    b.retain n = .error (.retainOverflow b.group.count n) := by
  have hgroup : b.group.retain n = .error (.retainOverflow b.group.count n) := by
    rw [Group.retain, if_neg (Nat.ne_of_gt hn), if_neg (Nat.ne_of_gt live), Word.add?_eq_none_iff.2 full]
  rw [retain, hgroup]
  rfl

theorem checks_of_slice (hslice : b.slice i n = .ok h) :
    b.checkLive = .ok () ∧ checkBounds i n b.handle.capacity = .ok () ∧ h = b.handle.slice i n := by
  obtain ⟨⟨⟩, hlive, hslice⟩ := except_bind_eq_ok.1 hslice
  obtain ⟨⟨⟩, hbounds, hslice⟩ := except_bind_eq_ok.1 hslice
  cases hslice
  exact ⟨hlive, hbounds, rfl⟩

theorem slice_setCount {count : Nat} (hslice : b.slice i n = .ok h) (hcount : 0 < count) :
    (b.setCount count).slice i n = .ok h := by
  obtain ⟨-, hbounds, rfl⟩ := checks_of_slice hslice
  have hlive : (b.setCount count).checkLive = .ok () := (checkLive_eq_ok_iff _).2 hcount
  have hinside : checkBounds i n (b.setCount count).handle.capacity = .ok () := hbounds
  simp only [slice, hlive, hinside, bind, Except.bind, pure, Except.pure]
  rfl

theorem retainedSlice_of_slice (hslice : b.slice i n = .ok h)
    (room : b.group.count + 1 ≤ Word.largest) :
    retainedSlice i n b = ⟨.ok h, b.setCount (b.group.count + 1), []⟩ := by
  obtain ⟨hlive, hbounds, -⟩ := checks_of_slice hslice
  have live := (checkLive_eq_ok_iff b).1 hlive
  refine (ask_bind_of_ok hlive).trans ((ask_bind_of_ok (s := b) hbounds).trans ?_)
  rw [bind_of_ok (update_of_ok (retain_of_le live Nat.one_pos room)),
    Action.ask_of_ok (slice_setCount hslice (Nat.succ_pos _))]
  rfl

theorem rejects_retainedSlice (hslice : b.slice i n = .error f) : (retainedSlice i n).Rejects b f := by
  rcases except_bind_eq_error.1 hslice with hlive | ⟨⟨⟩, hlive, hslice⟩
  · exact (rejects_ask hlive).bind _
  · rcases except_bind_eq_error.1 hslice with hbounds | ⟨⟨⟩, -, hslice⟩
    · exact .after (Action.ask_of_ok hlive) ((rejects_ask (s := b) hbounds).bind _)
    · cases hslice

theorem rejects_retainedSlice_of_full (hslice : b.slice i n = .ok h)
    (full : Word.largest < b.group.count + 1) :
    (retainedSlice i n).Rejects b (.retainOverflow b.group.count 1) := by
  obtain ⟨hlive, hbounds, -⟩ := checks_of_slice hslice
  have hretain := retain_of_lt ((checkLive_eq_ok_iff b).1 hlive) Nat.one_pos full
  exact .after (Action.ask_of_ok hlive)
    (.after (Action.ask_of_ok (s := b) hbounds) ((rejects_update hretain).bind _))

def cutFront (n : Nat) (b : Buffer) : Except Fault Handle := do
  b.checkLive
  b.handle.cursor.checkReadable n
  b.slice b.handle.reader n

end Buffer

namespace Derivation

open SharedBuffer.Action (Rejects ask_bind_of_ok update_of_ok bind_of_ok bind_eq_ok map_of_ok current_bind
  rejects_ask rejects_update rejects_current_bind)

variable {b : Buffer} {d : Derivation} {g : Grant} {f : Fault}

def grant (b : Buffer) : Derivation → Except Fault Grant
  | .slice extent | .retainedSlice extent =>
    (b.slice (place b extent).1 (place b extent).2).map (⟨·, 0⟩)
  | .duplicate | .retainedDuplicate => b.duplicate.map (⟨·, 0⟩)
  | .takeSlice n | .takeRetainedSlice n => (b.cutFront n).map (⟨·, n⟩)
  | .readOnlyView => b.readOnlyView.map (⟨·, 0⟩)
  | .whole => b.whole.map (⟨·, 0⟩)
  | .copy _ | .takeCopy _ => .error .released

theorem run_of_grant (h : d.grant b = .ok g) (room : b.group.count + d.effect.gained ≤ Word.largest) :
    d.run b = ⟨.ok (g.handle, none), g.source d.effect.gained b, []⟩ := by
  cases d with
  | copy extent | takeCopy n => cases h
  | slice extent | duplicate | readOnlyView | whole =>
    obtain ⟨k, hk, rfl⟩ := except_map_eq_ok.1 h
    exact ask_bind_of_ok hk
  | retainedSlice extent =>
    obtain ⟨k, hk, rfl⟩ := except_map_eq_ok.1 h
    rw [run, current_bind]
    exact map_of_ok (·, none) (Buffer.retainedSlice_of_slice hk room)
  | retainedDuplicate =>
    obtain ⟨k, hk, rfl⟩ := except_map_eq_ok.1 h
    obtain ⟨live, rfl⟩ := Buffer.duplicate_eq_ok.1 hk
    have hduplicate : (b.setCount (b.group.count + 1)).duplicate = .ok b.handle.duplicate :=
      Buffer.duplicate_eq_ok.2 ⟨Nat.succ_pos _, rfl⟩
    exact map_of_ok (·, none) (bind_eq_ok (update_of_ok (Buffer.retain_of_le live Nat.one_pos room))
      (Action.ask_of_ok hduplicate))
  | takeSlice n =>
    obtain ⟨k, hk, rfl⟩ := except_map_eq_ok.1 h
    exact map_of_ok (·, none) (ask_bind_of_ok hk)
  | takeRetainedSlice n =>
    obtain ⟨k, hk, rfl⟩ := except_map_eq_ok.1 h
    obtain ⟨⟨⟩, hlive, hk⟩ := except_bind_eq_ok.1 hk
    obtain ⟨⟨⟩, hread, hk⟩ := except_bind_eq_ok.1 hk
    refine map_of_ok (·, none) ?_
    rw [Buffer.takeRetainedSlice, current_bind, ask_bind_of_ok hlive]
    exact (ask_bind_of_ok (s := b) hread).trans (bind_of_ok (Buffer.retainedSlice_of_slice hk room))

theorem rejects_of_refusal (live : 0 < b.group.count) (hd : d.copies = false) (h : d.grant b = .error f) :
    d.run.Rejects b f := by
  cases d with
  | copy extent | takeCopy n => cases hd
  | slice extent | duplicate | readOnlyView | whole =>
    exact (rejects_ask (except_map_eq_error.1 h)).bind _
  | retainedSlice extent =>
    exact rejects_current_bind ((Buffer.rejects_retainedSlice (except_map_eq_error.1 h)).bind _)
  | retainedDuplicate =>
    have hduplicate : b.duplicate = .ok b.handle.duplicate := Buffer.duplicate_eq_ok.2 ⟨live, rfl⟩
    rw [grant, hduplicate] at h
    cases h
  | takeSlice n => exact ((rejects_ask (except_map_eq_error.1 h)).bind _).bind _
  | takeRetainedSlice n =>
    refine Rejects.bind (rejects_current_bind ?_) _
    rcases except_bind_eq_error.1 (except_map_eq_error.1 h) with hlive | ⟨⟨⟩, hlive, h⟩
    · exact (rejects_ask hlive).bind _
    refine .after (Action.ask_of_ok hlive) ?_
    rcases except_bind_eq_error.1 h with hread | ⟨⟨⟩, hread, h⟩
    · exact (rejects_ask (s := b) hread).bind _
    · exact .after (Action.ask_of_ok (s := b) hread) ((Buffer.rejects_retainedSlice h).bind _)

/-- A reference too many is refused after all that the handle is asked for. -/
theorem rejects_of_full (hb : b.group.Valid) (h : d.grant b = .ok g)
    (full : Word.largest < b.group.count + d.effect.gained) :
    d.run.Rejects b (.retainOverflow b.group.count 1) := by
  -- A valid count is in range, so it is exceeded by those forms only that retain.
  have hplain : d.effect.gained ≠ 0 := by
    intro hgained
    have hle := hb.count_le
    omega
  cases d with
  | retainedSlice extent =>
    obtain ⟨k, hk, rfl⟩ := except_map_eq_ok.1 h
    exact rejects_current_bind ((Buffer.rejects_retainedSlice_of_full hk full).bind _)
  | retainedDuplicate =>
    obtain ⟨k, hk, rfl⟩ := except_map_eq_ok.1 h
    obtain ⟨live, rfl⟩ := Buffer.duplicate_eq_ok.1 hk
    exact ((rejects_update (Buffer.retain_of_lt live Nat.one_pos full)).bind _).bind _
  | takeRetainedSlice n =>
    obtain ⟨k, hk, rfl⟩ := except_map_eq_ok.1 h
    obtain ⟨⟨⟩, hlive, hk⟩ := except_bind_eq_ok.1 hk
    obtain ⟨⟨⟩, hread, hk⟩ := except_bind_eq_ok.1 hk
    refine Rejects.bind (rejects_current_bind (.after (Action.ask_of_ok hlive) ?_)) _
    exact .after (Action.ask_of_ok (s := b) hread)
      ((Buffer.rejects_retainedSlice_of_full hk full).bind _)
  | _ => exact absurd rfl hplain

end Derivation

namespace Arena

open Table (find? put)
open SharedBuffer.Action (current_bind modify_bind)

variable {a : Arena} {name target : String} {m : Member} {e : Estate} {p : Pool} {d : Derivation}
  {g : Grant} {f : Fault} {k : Handle}

theorem buffers_bury (m : Member) (a : Arena) : (bury m a).state.buffers = a.buffers := by
  simp only [bury]
  split
  · rfl
  · split <;> rfl

theorem buffers_enrol (name : String) (m : Member) (a : Arena) :
    (enrol name m a).state.buffers = put name m a.buffers := by
  rw [enrol, current_bind, modify_bind]
  cases find? name a.buffers with
  | none => rfl
  | some old => exact buffers_bury old _

theorem result_bury (m : Member) (a : Arena) : (bury m a).result = .ok () := by
  simp only [bury]
  split
  · rfl
  · split
    · rfl
    · next pool b hassemble =>
      cases hs : b.group.storage with
      | none => rw [lift_of_ok (Buffer.giveBack_of_none hs _)]
      | some s => rw [lift_of_ok (Buffer.giveBack_of_some hs _)]

theorem result_enrol (name : String) (m : Member) (a : Arena) : (enrol name m a).result = .ok () := by
  rw [enrol, current_bind, modify_bind]
  cases find? name a.buffers with
  | none => rfl
  | some old => exact result_bury old _

theorem groups_bury {h : Nat} (hheld : a.isHeld h = true) (m : Member) :
    (bury m a).state.groups[h]? = a.groups[h]? := by
  simp only [bury]
  split
  · rfl
  · next hfree =>
    split
    · rfl
    · refine List.getElem?_set_ne fun hsame => hfree ?_
      rw [hsame]
      exact hheld

theorem groups_enrol (name : String) (m : Member) (a : Arena) :
    (enrol name m a).state.groups[m.group]? = a.groups[m.group]? := by
  rw [enrol, current_bind, modify_bind]
  cases find? name a.buffers with
  | none => rfl
  | some old => exact groups_bury (isHeld_seatAt_self name m a) old

/-- A derivation has made the handle `k` under the target's name, in the group of its source. The
group has `gained` references more, the reader of the source has moved on by `taken`, and nothing
else in the group or of the other handles has changed. -/
structure Yields (a : Arena) (name : String) (d : Derivation) (target : String) (k : Handle)
    (gained taken : Nat) : Prop where
  answered : ((Command.derive name d target).run a).result = .ok .done
  shared : ∃ m e, find? name a.buffers = some m ∧ a.groups[m.group]? = some e ∧
    ((Command.derive name d target).run a).state.groups[m.group]? =
      some ⟨e.pool, { e.group with count := e.group.count + gained }⟩ ∧
    ((Command.derive name d target).run a).state.buffers = put target ⟨m.group, k⟩
      (put name ⟨m.group, m.handle.moveCursor (Cursor.advanceReader taken)⟩ a.buffers)

def Declines (a : Arena) (name : String) (d : Derivation) (target : String) (f : Fault) : Prop :=
  (Command.derive name d target).run a = ⟨.error (.fault f), a, []⟩

theorem derive_of_ok (hs : a.Seat name m e p) {b : Buffer}
    (h : d.run (a.bufferOf name m e p) = ⟨.ok (k, none), b, []⟩) (target : String) :
    ∃ log, (Command.derive name d target).run a =
      ⟨.ok .done, (enrol target ⟨m.group, k⟩ (a.settle name m e.pool b)).state, log⟩ := by
  have henrol : Command.enrolDerived name target (k, none) (a.settle name m e.pool b) =
      ⟨.ok (), (enrol target ⟨m.group, k⟩ (a.settle name m e.pool b)).state,
        (enrol target ⟨m.group, k⟩ (a.settle name m e.pool b)).events⟩ := by
    refine (Action.bind_of_ok (Command.require_settle e.pool b)).trans ?_
    rw [result_enrol]
    rfl
  exact ⟨_, Action.bind_eq_ok (onBuffer_of_ok hs h)
    (Action.bind_eq_ok henrol (Action.pure_apply _ _))⟩

theorem yields_of_grant (hs : a.Seat name m e p) (hg : d.grant (a.bufferOf name m e p) = .ok g)
    (room : e.group.count + d.effect.gained ≤ Word.largest) (target : String) :
    a.Yields name d target g.handle d.effect.gained g.taken := by
  obtain ⟨log, hrun⟩ := derive_of_ok hs (Derivation.run_of_grant hg room) target
  refine ⟨by rw [hrun], m, e, hs.member, hs.estate, ?_, ?_⟩
  · rw [hrun]
    exact (groups_enrol _ _ _).trans (groups_settle_self hs _)
  · rw [hrun]
    exact buffers_enrol _ _ _

theorem declines_of_rejects (hs : a.Seat name m e p) (h : d.run.Rejects (a.bufferOf name m e p) f)
    (target : String) : a.Declines name d target f :=
  (rejects_onBuffer hs (h.mapError _)).bind _

/-- What is made has been granted, by a buffer that is accessible and has room for the references. -/
theorem grant_of_ok (ha : a.Valid) (hs : a.Seat name m e p) (hd : d.copies = false) {v : Answer}
    (hok : ((Command.derive name d target).run a).result = .ok v) :
    0 < e.group.count ∧ e.group.count + d.effect.gained ≤ Word.largest ∧
      ∃ g, d.grant (a.bufferOf name m e p) = .ok g := by
  have refused {f : Fault} (h : d.run.Rejects (a.bufferOf name m e p) f) : False := by
    rw [declines_of_rejects hs h target] at hok
    cases hok
  have live : 0 < e.group.count := by
    refine Nat.pos_of_ne_zero fun hzero => ?_
    obtain ⟨f, hf, -⟩ := d.run_of_released (b := a.bufferOf name m e p) hzero
    exact refused hf
  cases hg : d.grant (a.bufferOf name m e p) with
  | error f => exact (refused (Derivation.rejects_of_refusal live hd hg)).elim
  | ok g =>
    refine ⟨live, Nat.le_of_not_lt fun full => ?_, g, rfl⟩
    exact refused (Derivation.rejects_of_full (ha.buffer hs).group hg full)

section Taking

theorem isHeld_seatAt (hm : find? name a.buffers = some m) (k : Handle) (h : Nat) :
    (a.seatAt name ⟨m.group, k⟩).isHeld h = a.isHeld h :=
  Table.any_put_of_find? hm rfl

theorem bury_seatAt (hm : find? name a.buffers = some m) (k : Handle) (old : Member) :
    (bury old (a.seatAt name ⟨m.group, k⟩)).state = (bury old a).state.seatAt name ⟨m.group, k⟩ := by
  have hassemble : (a.seatAt name ⟨m.group, k⟩).assemble old false = a.assemble old false := rfl
  simp only [bury, isHeld_seatAt hm, hassemble]
  split
  · rfl
  · split <;> rfl

theorem enrol_seatAt (hm : find? name a.buffers = some m) (hne : target ≠ name) (k : Handle)
    (x : Member) : (enrol target x (a.seatAt name ⟨m.group, k⟩)).state =
      (enrol target x a).state.seatAt name ⟨m.group, k⟩ := by
  have hput : (a.seatAt name ⟨m.group, k⟩).seatAt target x =
      (a.seatAt target x).seatAt name ⟨m.group, k⟩ := by
    simp only [seatAt, Table.put_comm hm hne]
  have hmember : find? name (a.seatAt target x).buffers = some m :=
    (Table.find?_put_of_ne hne _ _).trans hm
  have hold : find? target (a.seatAt name ⟨m.group, k⟩).buffers = find? target a.buffers :=
    Table.find?_put_of_ne (Ne.symm hne) _ _
  rw [enrol, current_bind, modify_bind, current_bind, modify_bind, hold]
  cases find? target a.buffers with
  | none => exact hput
  | some old => exact (congrArg (fun c => (bury old c).state) hput).trans (bury_seatAt hmember k old)

theorem settle_moveCursor (pool : Nat) (b : Buffer) (f : Cursor → Cursor) :
    a.settle name m pool (b.moveCursor f) =
      (a.settle name m pool b).seatAt name ⟨m.group, b.handle.moveCursor f⟩ := by
  simp only [settle, seatAt, Table.put_put]
  rfl

theorem run_skip {n : Nat} (hs : a.Seat name m e p) (live : 0 < e.group.count)
    (hn : n ≤ m.handle.cursor.readable) : (Command.change name (.skip n)).run a =
      ⟨.ok .done, a.seatAt name ⟨m.group, m.handle.moveCursor (Cursor.advanceReader n)⟩, []⟩ := by
  have hskip := run_update (c := .skip n) hs rfl
    (Buffer.skip_of_le (b := a.bufferOf name m e p) live hn)
  rwa [settle_moveCursor, settle_self hs] at hskip

theorem run_skip_of_taken {r : Derivation} {n : Nat} (ha : a.Valid) (hs : a.Seat name m e p)
    (hne : target ≠ name) (hd : d.grant (a.bufferOf name m e p) = .ok ⟨k, 0⟩)
    (hr : r.grant (a.bufferOf name m e p) = .ok ⟨k, n⟩) (hgained : r.effect.gained = d.effect.gained)
    (room : e.group.count + d.effect.gained ≤ Word.largest) (live : 0 < e.group.count)
    (hn : n ≤ m.handle.cursor.readable) :
    (Command.change name (.skip n)).run ((Command.derive name d target).run a).state =
      ⟨.ok .done, ((Command.derive name r target).run a).state, []⟩ := by
  obtain ⟨log, hderive⟩ := derive_of_ok hs (Derivation.run_of_grant hd room) target
  obtain ⟨more, htake⟩ := derive_of_ok hs (Derivation.run_of_grant hr (hgained ▸ room)) target
  obtain ⟨x, hdoes, -⟩ := ha.step (c := .derive name d target) trivial
  have hvalid := hdoes.valid ha
  rw [hderive] at hvalid ⊢
  rw [htake, hgained]
  -- `c` is the arena once the references are counted, before the new handle has its name; taking
  -- differs from `c` in the reader of the source alone, and that commutes with the naming.
  generalize hc : a.settle name m e.pool ((⟨k, 0⟩ : Grant).source d.effect.gained (a.bufferOf name m e p))
    = c at hvalid ⊢
  have hsettled : c.Seat name m _ _ := hc ▸ seat_settle hs _
  have hmoved : a.settle name m e.pool ((⟨k, n⟩ : Grant).source d.effect.gained (a.bufferOf name m e p)) =
      c.seatAt name ⟨m.group, m.handle.moveCursor (Cursor.advanceReader n)⟩ := by
    rw [← hc]
    exact settle_moveCursor _ _ _
  have hmember : find? name (enrol target ⟨m.group, k⟩ c).state.buffers = some m := by
    rw [buffers_enrol, Table.find?_put_of_ne hne]
    exact hsettled.member
  obtain ⟨e', p', hs'⟩ := hvalid.seat hmember
  have hestate := hs'.estate
  rw [groups_enrol target ⟨m.group, k⟩ c, hsettled.estate] at hestate
  cases hestate
  have hskip := run_skip (n := n) hs' (Nat.lt_of_lt_of_le live (Nat.le_add_right _ _)) hn
  rw [hmoved, enrol_seatAt hsettled.member hne]
  exact hskip

end Taking

end Arena

end SharedBuffer
