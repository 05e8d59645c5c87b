import SharedBuffer.Proofs.Atomicity
import SharedBuffer.Proofs.Compaction
import SharedBuffer.Proofs.Grants
import SharedBuffer.Proofs.Preservation
import SharedBuffer.Proofs.Queue
import SharedBuffer.Proofs.Snapshots

/-!
The mark of the reader index of a handle in use, over a run of commands. The handle is read and written,
handles are made from it, and it is compacted as long as the reader index is at the mark; other handles may
do what they like but write to the group. Main statements: what a compaction does in an arena; and each
command of the run adds what it writes to the bytes that the mark holds, so that a reset in the end makes
all of them readable again.
-/

namespace SharedBuffer

namespace Buffer

open SharedBuffer.Action (current_bind)

variable {ε α β : Type} {b c : Buffer} {s t : Storage} {k n : Nat} {q : Bytes}

def Stays (x : Action ε Buffer α) : Prop := ∀ b : Buffer, b.Strode 0 (x b).state

theorem stays_ask (g : Buffer → Except ε α) : Stays (Action.ask g) := strode_self

theorem stays_pure (v : α) : Stays (pure v : Action ε Buffer α) := strode_self

theorem stays_onPool (x : Action ε Pool α) : Stays (onPool x) := fun _ =>
  ⟨Nat.zero_le _, rfl, rfl, Nat.le_refl _⟩

theorem stays_retain (n : Nat) : Stays (Action.update (retain n)) := by
  intro b
  cases hc : b.retain n with
  | error f =>
    rw [Action.update_of_error hc]
    exact strode_self b
  | ok c =>
    obtain ⟨-, -, -, rfl⟩ := retain_eq_ok_iff.1 hc
    rw [Action.update_of_ok hc]
    exact ⟨Nat.zero_le _, rfl, rfl, Nat.le_add_right _ _⟩

theorem Stays.bind {x : Action ε Buffer α} {f : α → Action ε Buffer β} (hx : Stays x)
    (hf : ∀ v, Stays (f v)) : Stays (x >>= f) := by
  intro b
  have hfirst := hx b
  rcases ho : x b with ⟨e | v, c, log⟩
  · rw [ho] at hfirst
    rw [Action.bind_of_error ho]
    exact hfirst
  · rw [ho] at hfirst
    rw [Action.bind_of_ok ho]
    exact hfirst.trans (hf v c)

theorem Stays.orUndo {x : Action ε Buffer α} {undo : Action ε Buffer Unit} (hx : Stays x)
    (hundo : Stays undo) : Stays (x.orUndo undo) := by
  intro b
  have hfirst := hx b
  rcases ho : x b with ⟨e | v, c, log⟩
  · rw [ho] at hfirst
    rw [Action.orUndo_of_error ho]
    exact hfirst.trans (hundo c)
  · rw [ho] at hfirst
    rw [Action.orUndo_of_ok ho]
    exact hfirst

theorem Stays.look {f : Buffer → Action ε Buffer α} (hf : ∀ b, Stays (f b)) :
    Stays (Action.current >>= f) := by
  intro b
  rw [current_bind]
  exact hf b b

theorem Stays.strides {x : Action ε Buffer α} (h : Stays x) (b : Buffer) : Strides x b := ⟨0, h b⟩

theorem stays_retainedSlice (i n : Nat) : Stays (retainedSlice i n) :=
  (stays_ask _).bind fun _ => (stays_ask _).bind fun _ => (stays_retain 1).bind fun _ => stays_ask _

theorem stays_copy (i n : Nat) : Stays (copy i n) :=
  .look fun _ => (stays_ask _).bind fun _ => (stays_ask _).bind fun _ => (stays_onPool _).bind fun _ =>
    ((stays_ask _).orUndo (stays_onPool _)).bind fun _ => stays_pure _

theorem strides_ask_bind {g : Buffer → Except ε α} {f : α → Action ε Buffer β}
    (hf : ∀ v, g b = .ok v → Strides (f v) b) : Strides (Action.ask g >>= f) b := by
  cases hg : g b with
  | error e =>
    rw [Strides, Action.ask_bind_of_error hg]
    exact ⟨0, strode_self b⟩
  | ok v =>
    rw [Strides, Action.ask_bind_of_ok hg]
    exact hf v hg

theorem Stays.take {x : Action ε Buffer α} (hx : Stays x)
    (hn : b.handle.cursor.checkReadable n = .ok ()) : Strides (do
      let v ← x
      Action.modify (moveCursor (Cursor.advanceReader n))
      return v) b := by
  have hle : n ≤ b.handle.readable := Cursor.checkReadable_eq_ok_iff.1 hn
  have hfirst := hx b
  rcases ho : x b with ⟨e | v, c, log⟩
  · rw [ho] at hfirst
    rw [Strides, Action.bind_of_error ho]
    exact ⟨0, hfirst⟩
  · rw [ho] at hfirst
    have hsame : c.handle = b.handle := hfirst.handle
    rw [Strides, Action.bind_of_ok ho]
    exact ⟨0 + n, hfirst.trans (strode_advance (hsame ▸ hle))⟩

theorem takeSlice_strides (n : Nat) (b : Buffer) : Strides (takeSlice n) b := by
  refine strides_ask_bind fun h hh => ?_
  obtain ⟨⟨⟩, -, hh⟩ := except_bind_eq_ok.1 hh
  obtain ⟨⟨⟩, hn, -⟩ := except_bind_eq_ok.1 hh
  exact ⟨n, strode_advance (Cursor.checkReadable_eq_ok_iff.1 hn)⟩

theorem takeRetainedSlice_strides (n : Nat) (b : Buffer) : Strides (takeRetainedSlice n) b := by
  rw [Strides, takeRetainedSlice, current_bind]
  exact strides_ask_bind fun _ _ => strides_ask_bind fun _ hn => (stays_retainedSlice _ n).take hn

theorem takeCopy_strides (n : Nat) (b : Buffer) : Strides (takeCopy n) b := by
  rw [Strides, takeCopy, current_bind]
  exact strides_ask_bind fun _ _ => strides_ask_bind fun _ hn => (stays_copy _ n).take hn

theorem retains_of_bytes (hb : b.Valid) (hc : c.Valid) (hs : b.group.storage = some s)
    (ht : c.group.storage = some t) (hhandle : c.handle = b.handle)
    (hbytes : ∀ j < b.handle.capacity,
      t.bytes[b.handle.offset + j]? = s.bytes[b.handle.offset + j]?) :
    b.Retains b.handle.capacity c := by
  intro i k hik
  rw [hb.read_of_le hs hik, hc.read_of_le ht (by rw [hhandle]; exact hik), hhandle]
  refine congrArg Except.ok (List.ext_getElem? fun j => ?_)
  rw [Bytes.getElem?_window, Bytes.getElem?_window]
  split
  · rw [Nat.add_assoc]
    exact hbytes (i + j) (by omega)
  · rfl

theorem Holds.retained (h : b.Holds q) (hb : b.Valid) (hc : b.Retains b.handle.capacity c)
    (hhandle : c.handle = b.handle) : c.Holds q := by
  have hrewound : (b.moveCursor Cursor.rewound).Retains b.handle.capacity
      (c.moveCursor Cursor.rewound) := hc
  refine ⟨by rw [hhandle]; exact h.mark_le, ?_⟩
  rw [Buffer.kept, hrewound.unread (by rw [moveCursor, moveCursor, hhandle])
    (readable_le (h.rewound hb))]
  exact h.kept

theorem Holds.congr (h : b.Holds q) (hhandle : c.handle = b.handle) (hgroup : c.group = b.group) :
    c.Holds q := by
  obtain ⟨handle, group, pool, shared⟩ := b
  cases hhandle
  cases hgroup
  exact ⟨h.mark_le, h.kept⟩

end Buffer

namespace Derivation

open Buffer (Stays Strides strides_of_still stays_pure stays_ask stays_copy stays_retainedSlice
  stays_retain)

theorem run_strides (d : Derivation) (b : Buffer) : Strides d.run b := by
  cases d with
  | copy extent =>
    exact (Stays.look fun _ => (stays_copy _ _).bind fun _ => stays_pure _).strides b
  | slice extent => exact ((stays_ask _).bind fun _ => stays_pure _).strides b
  | duplicate => exact ((stays_ask _).bind fun _ => stays_pure _).strides b
  | retainedSlice extent =>
    exact (Stays.look fun _ => (stays_retainedSlice _ _).bind fun _ => stays_pure _).strides b
  | retainedDuplicate =>
    exact (((stays_retain 1).bind fun _ => stays_ask _).bind fun _ => stays_pure _).strides b
  | takeSlice n => exact (Buffer.takeSlice_strides n b).bind fun _ _ => strides_of_still rfl
  | takeRetainedSlice n => exact (Buffer.takeRetainedSlice_strides n b).bind fun _ _ => strides_of_still rfl
  | takeCopy n => exact (Buffer.takeCopy_strides n b).bind fun _ _ => strides_of_still rfl
  | readOnlyView => exact ((stays_ask _).bind fun _ => stays_pure _).strides b
  | whole => exact ((stays_ask _).bind fun _ => stays_pure _).strides b

end Derivation

namespace Arena

open Table (find? put)
open SharedBuffer.Action (Preserves current_bind modify_bind meets_bind)

variable {a a' : Arena} {name other target : String} {m : Member} {e : Estate} {p : Pool}
  {b d : Buffer} {g k n : Nat} {q data more : Bytes} {c : Command} {cs : List Command} {α : Type}

def Marked (name : String) (q : Bytes) (a : Arena) : Prop :=
  ∃ b, a.buffer name = .ok b ∧ 0 < b.group.count ∧ b.Holds q

theorem Shows.marked (h : a.Shows name g d) (ha : a.Valid) (live : 0 < d.group.count)
    (hd : d.Holds q) : a.Marked name q := by
  obtain ⟨e, p, hs⟩ := ha.seat h.member
  have hb := buffer_of_seat hs
  obtain ⟨hhandle, hgroup⟩ := h.buffer ha hb
  exact ⟨_, hb, by rw [hgroup]; exact live, hd.congr hhandle hgroup⟩

section Derive

theorem enrol_shows (hne : target ≠ name) (u : Member) :
    (enrol target u).Preserves (Shows name g d) := by
  intro a ha
  obtain ⟨hm, pool, hgroup⟩ := ha
  have hmember : find? name (put target u a.buffers) = some ⟨g, d.handle⟩ :=
    (Table.find?_put_of_ne hne _ _).trans hm
  refine ⟨(congrArg (find? name) (buffers_enrol target u a)).trans hmember, pool, ?_⟩
  rw [enrol, current_bind, modify_bind]
  cases find? target a.buffers with
  | none => exact hgroup
  | some old =>
    have hheld : (a.seatAt target u).isHeld g = true := isHeld_iff.2 ⟨_, Table.mem_of_find? hmember, rfl⟩
    exact (groups_bury hheld old).trans hgroup

theorem foundCopy_shows (parent : String) (handle : Handle) (s : Storage) :
    (foundCopy parent handle s).Preserves (Shows name g d) := by
  refine Preserves.bind (fun _ ha => ha) fun m a ha => ?_
  obtain ⟨hm, pool, hgroup⟩ := ha
  rw [current_bind]
  cases a.groups[m.group]? with
  | none => exact ⟨hm, pool, hgroup⟩
  | some e => exact ⟨hm, pool, (List.getElem?_append_left (lt_of_getElem? hgroup)).trans hgroup⟩

theorem derive_shows (hs : a.Seat name m e p) (hne : target ≠ name) (x : Derivation) :
    ((Command.derive name x target).run a).state.Shows name m.group
      (x.run (a.bufferOf name m e p)).state := by
  refine Outcome.Meets.state (P := Shows name m.group _) (meets_bind ?_)
  refine (Outcome.meets_of_state (P := Shows name m.group _) (onBuffer_shows hs (lift x.run))).imp
    fun made c _ hc => Outcome.meets_of_state (Preserves.bind ?_ (fun _ _ hc => hc) c hc)
  obtain ⟨handle, extra⟩ := made
  cases extra with
  | none => exact Preserves.bind (fun _ hc => hc) fun u => enrol_shows hne _
  | some s => exact (foundCopy_shows name handle s).bind fun u => enrol_shows hne u

end Derive

section Pour

inductive Pours (source dest : String) (n : Nat) : Command → Prop
  | read : Pours source dest n (.exchange source dest (.readInto n))
  | write : Pours source dest n (.exchange dest source (.writeFrom n))

theorem Pours.run_eq {source dest : String} {o : Buffer} (h : Pours source dest n c)
    (hb : a.buffer source = .ok b) (ho : a.buffer dest = .ok o) (hne : source ≠ dest) :
    c.run a = (pour source dest n >>= fun _ => pure Answer.done) a := by
  cases h with
  | read => exact run_exchange hb ho hne _
  | write => exact run_exchange ho hb hne.symm _

theorem onBuffer_apart (hs : a.Seat other m e p) (hne : other ≠ name) (hapart : m.group ≠ g)
    (x : Action Failure Buffer α) (h : a.Shows name g d) : (onBuffer other x a).state.Shows name g d := by
  obtain ⟨hm, pool, hgroup⟩ := h
  rw [onBuffer_of_seat hs]
  exact ⟨(Table.find?_put_of_ne hne _ _).trans hm, pool,
    (groups_settle_ne hapart _ _).trans hgroup⟩

variable {mo : Member} {eo : Estate} {po : Pool}

theorem pour_strides (ha : a.Valid) (hs : a.Seat name m e p) (ho : a.Seat other mo eo po)
    (hne : other ≠ name) (hapart : mo.group ≠ m.group) (n : Nat) :
    ∃ k d, (a.bufferOf name m e p).Strode k d ∧ (pour name other n a).state.Shows name m.group d := by
  have hself := shows_self hs
  cases hpeek : (a.bufferOf name m e p).peek n with
  | error f =>
    rw [rejects_pour_from hs hpeek other]
    exact ⟨0, _, Buffer.strode_self _, hself⟩
  -- in a group of its own the other buffer cannot be seen from here, whether the append succeeds or not
  | ok bytes =>
    have happend := onBuffer_apart ho hne hapart (lift (Buffer.append bytes)) hself
    have hvalid : (onBuffer other (lift (Buffer.append bytes)) a).Meets _ _ :=
      onBuffer_does ha fun b hb => (Buffer.append_performs hb bytes).lift
    rw [pour, Action.bind_of_ok (onBuffer_ask_of_ok hs hpeek)]
    rcases hr : onBuffer other (lift (Buffer.append bytes)) a with ⟨f | ⟨⟩, c, log⟩
    · rw [hr] at happend
      rw [Action.bind_of_error hr]
      exact ⟨0, _, Buffer.strode_self _, happend⟩
    · rw [hr] at happend hvalid
      rw [Action.bind_of_ok hr]
      obtain ⟨hm, pool, hgroup⟩ := happend
      obtain ⟨e', p', hs'⟩ := (hvalid.valid ha).seat hm
      have hsame : e'.group = e.group := by
        have hestate := hs'.estate
        rw [hgroup] at hestate
        cases hestate
        rfl
      have hmoved := onBuffer_shows hs'
        (lift (Action.modify (Buffer.moveCursor (Cursor.advanceReader n))))
      refine ⟨n, _, ?_, hmoved⟩
      exact ⟨(Buffer.peek_eq_ok hpeek).1, rfl, congrArg Group.storage hsame,
        Nat.le_of_eq (congrArg Group.count hsame).symm⟩

theorem Pours.extends (h : Pours other name n c) (ha : a.Valid) (hs : a.Seat name m e p)
    (ho : a.Seat other mo eo po) (hb : (a.bufferOf name m e p).InUse) (hne : other ≠ name) :
    ∃ d, (c.run a).state.Shows name m.group d ∧ (a.bufferOf name m e p).Extended
      (Change.landed (a.shown other (Buffer.peek n)) (c.run a).result) d := by
  have hself := shows_self hs
  rw [h.run_eq (buffer_of_seat ho) (buffer_of_seat hs) hne]
  cases hpeek : (a.bufferOf other mo eo po).peek n with
  | error f =>
    rw [Action.bind_of_error (rejects_pour_from ho hpeek name)]
    exact ⟨_, hself, Buffer.extended_self hb⟩
  | ok bytes =>
    rw [shown_of_seat ho hpeek]
    have hextends := Buffer.append_extends hb bytes
    rcases hr : Buffer.append bytes (a.bufferOf name m e p) with ⟨f | ⟨⟩, d, log⟩
    · have hpour : pour other name n a = ⟨.error (.fault f), a.settle name m e.pool d, log⟩ :=
        (Action.bind_of_ok (onBuffer_ask_of_ok ho hpeek)).trans
          (Action.bind_of_error (onBuffer_of_error hs hr))
      rw [Buffer.Extends, hr] at hextends
      rw [Action.bind_of_error hpour]
      exact ⟨d, shows_settle hs d, hextends⟩
    · rw [Buffer.Extends, hr] at hextends
      obtain ⟨hok, hstate, e', p', hs'⟩ := pour_of_append ha ho hs hne hpeek hr
      have hmoved := seek_shows hne (Cursor.advanceReader n) _ (shows_settle hs d)
      rw [onBuffer_of_seat hs'] at hmoved
      refine ⟨d, ?_, ?_⟩
      · rw [Action.state_then_pure, hstate, ← settle_advanced hs']
        exact hmoved
      · rcases hpour : pour other name n a with ⟨f | ⟨⟩, a', more⟩
        · rw [hpour] at hok
          cases hok
        · rw [Action.bind_of_ok hpour]
          exact hextends

end Pour

section Aside

/-- The command writes nothing to the group: by its account it does not, or it fails and leaves nothing, or
it is a relative read, whatever comes of that. -/
def Silent (g : Nat) (a : Arena) (c : Command) : Prop :=
  ((∃ v, (c.run a).result = .ok v) ∧ (c.account a).written g = fun _ => none) ∨
  (∃ f, (c.run a).result = .error f ∧ ¬f.OfStream) ∨
  ∃ user x, c = .change user x ∧ x.reads = true

structure Spares (name : String) (m : Member) (a a' : Arena) : Prop where
  member : find? name a'.buffers = some m
  bytes : ∀ t, a'.storageAt m.group = some t → ∃ s, a.storageAt m.group = some s ∧
    ∀ j < m.handle.capacity, t.bytes[m.handle.offset + j]? = s.bytes[m.handle.offset + j]?

theorem spares_of_same (hm : find? name a'.buffers = some m)
    (hstorage : a'.storageAt m.group = a.storageAt m.group) : a.Spares name m a' :=
  ⟨hm, fun t ht => ⟨t, hstorage ▸ ht, fun _ _ => rfl⟩⟩

theorem change_spares (ha : a.Valid) (hm : find? name a.buffers = some m) (hne : other ≠ name)
    {x : Change} (hx : x.reads = true) : a.Spares name m ((Command.change other x).run a).state := by
  change a.Spares name m (onBuffer other x.run a).state
  cases hu : find? other a.buffers with
  | none =>
    rw [onBuffer_of_none hu]
    exact spares_of_same hm rfl
  | some u =>
    obtain ⟨e, p, hs⟩ := ha.seat hu
    obtain ⟨k, hstrode⟩ := x.run_strides hx (a.bufferOf other u e p)
    rw [onBuffer_of_seat hs]
    refine spares_of_same ((Table.find?_put_of_ne hne _ _).trans hm) ?_
    -- also in the same group a reading leaves the storage
    by_cases hgroup : u.group = m.group
    · rw [← hgroup, storageAt_of_some (groups_settle_self hs _), storageAt_of_some hs.estate]
      exact hstrode.storage
    · exact storageAt_congr (groups_settle_ne hgroup _ _)

theorem Silent.spares (h : a.Silent m.group c) (ha : a.Valid) (hc : c.Fits)
    (hm : find? name a.buffers = some m) (huser : name ∉ c.users) (hseat : name ∉ c.seats) :
    a.Spares name m (c.run a).state := by
  rcases h with ⟨⟨v, hok⟩, hwritten⟩ | ⟨f, hf, hstream⟩ | ⟨user, x, rfl, hx⟩
  · have hspared := ((Command.run_meets ha hc).of_ok hok).spared ha hm huser hseat
    refine ⟨hspared.member, fun t ht => ?_⟩
    obtain ⟨s, hs, hbytes⟩ := hspared.bytes t ht
    refine ⟨s, hs, fun j hj => ?_⟩
    rw [hbytes j hj, hwritten, Option.none_or]
  · obtain ⟨hsame, -⟩ :=
      pools_of_forgetFailures (((Command.run_meets ha hc).of_error hf).unmoved hstream)
    rw [hsame]
    exact spares_of_same hm rfl
  · refine change_spares ha hm ?_ hx
    rintro rfl
    exact huser (List.mem_singleton_self _)

theorem Spares.marked (h : a.Spares name m a') (ha : a.Valid) (ha' : a'.Valid)
    (hs : a.Seat name m e p) (live : 0 < a'.references m.group)
    (hq : (a.bufferOf name m e p).Holds q) : a'.Marked name q := by
  obtain ⟨e', p', hs'⟩ := ha'.seat h.member
  have hv := ha.buffer hs
  have hv' := ha'.buffer hs'
  have hlive : 0 < (a'.bufferOf name m e' p').group.count := by
    rw [references_of_some hs'.estate] at live
    exact live
  obtain ⟨t, ht, -⟩ := hv'.window hlive
  obtain ⟨s, hstorage, hbytes⟩ := h.bytes t ((storageAt_of_some hs'.estate).trans ht)
  rw [storageAt_of_some hs.estate] at hstorage
  exact ⟨_, buffer_of_seat hs', hlive,
    hq.retained hv (Buffer.retains_of_bytes hv hv' hstorage ht rfl hbytes) rfl⟩

end Aside

/-- A command of the run, and what it adds to the bytes behind the mark of the handle: a relative write what
it writes, and every other nothing. Beyond the mark nothing is discarded. -/
inductive Adds (name : String) (a : Arena) : Command → Bytes → Prop
  | change {b : Buffer} {x : Change} (held : a.buffer name = .ok b)
      (kind : x.reads = true ∨ x.writes = true ∨ x.discards = true)
      (spares : x.discards = true → b.handle.cursor.markedReader < b.handle.reader →
        (x.run b).state = b) :
      Adds name a (.change name x) (Change.landed (x.payload b) (x.run b).result)
  | derive {d : Derivation} {target : String} (apart : target ≠ name) :
      Adds name a (.derive name d target) []
  | give {other : String} {c : Command} {n : Nat} {o : Buffer} (there : a.buffer other = .ok o)
      (apart : a.groupOf other ≠ a.groupOf name) (pours : Pours name other n c) : Adds name a c []
  | take {other : String} {c : Command} {n : Nat} {o : Buffer} (there : a.buffer other = .ok o)
      (apart : other ≠ name) (pours : Pours other name n c) :
      Adds name a c (Change.landed (a.shown other (Buffer.peek n)) (c.run a).result)
  | aside {c : Command} {m : Member} (member : find? name a.buffers = some m) (user : name ∉ c.users)
      (seat : name ∉ c.seats) (silent : a.Silent m.group c)
      (live : 0 < (c.run a).state.references m.group) : Adds name a c []

inductive Adding (name : String) : Arena → List Command → Bytes → Prop
  | done (a : Arena) : Adding name a [] []
  | step {a : Arena} {c : Command} {cs : List Command} {data more : Bytes} (fits : c.Fits)
      (adds : a.Adds name c data) (rest : Adding name (c.run a).state cs more) :
      Adding name a (c :: cs) (data ++ more)

theorem Reachable.inUse (h : a.Reachable) (hb : a.buffer name = .ok b) (live : 0 < b.group.count) :
    b.InUse :=
  ⟨h.valid.of_buffer hb, live, (h.buffer_orderly hb).1, (h.buffer_orderly hb).2⟩

theorem Adds.marked (h : a.Reachable) (hc : c.Fits) (hadds : a.Adds name c data)
    (hq : a.Marked name q) : (c.run a).state.Marked name (q ++ data) := by
  obtain ⟨b, hb, live, hholds⟩ := hq
  have huse := h.inUse hb live
  have ha' := (h.run hc).valid
  obtain ⟨m, e, p, hs, rfl⟩ := seat_of_buffer h.valid hb
  cases hadds with
  | @change b x held kind spares =>
    cases hb.symm.trans held
    have hlost : x.lost = 0 := by
      cases x with
      | release n => rcases kind with hkind | hkind | hkind <;> cases hkind
      | _ => rfl
    exact (onBuffer_shows hs x.run).marked ha' (Change.run_live huse.valid hc hlost live)
      (Change.run_holds huse hc hholds kind spares)
  | @derive d target apart =>
    obtain ⟨k, hstrode⟩ := d.run_strides (a.bufferOf name m e p)
    rw [List.append_nil]
    exact (derive_shows hs apart d).marked ha' (Nat.lt_of_lt_of_le live hstrode.count)
      (hholds.strode live hstrode)
  | @give other _ n o there apart pours =>
    obtain ⟨mo, eo, po, ho, rfl⟩ := seat_of_buffer h.valid there
    have hgroup : mo.group ≠ m.group := by
      rw [groupOf, groupOf, ho.member, hs.member] at apart
      exact fun hsame => apart (congrArg some hsame)
    have hne : other ≠ name := by
      rintro rfl
      exact apart rfl
    obtain ⟨k, d, hstrode, hshows⟩ := pour_strides h.valid hs ho hne hgroup n
    rw [List.append_nil]
    rw [pours.run_eq hb there hne.symm, Action.state_then_pure] at ha' ⊢
    exact hshows.marked ha' (Nat.lt_of_lt_of_le live hstrode.count) (hholds.strode live hstrode)
  | @take other _ n o there apart pours =>
    obtain ⟨mo, eo, po, ho, rfl⟩ := seat_of_buffer h.valid there
    obtain ⟨d, hshows, hextended⟩ := pours.extends h.valid hs ho huse apart
    exact hshows.marked ha' (hextended.live live) (hholds.extended huse.valid hextended)
  | @aside _ m' member user seat silent live' =>
    cases hs.member.symm.trans member
    rw [List.append_nil]
    exact (silent.spares h.valid hc hs.member user seat).marked h.valid ha' hs live' hholds

theorem Adding.marked (hrun : Adding name a cs data) (h : a.Reachable) (hq : a.Marked name q) :
    (after a cs).Reachable ∧ (after a cs).Marked name (q ++ data) := by
  -- what the mark holds grows from command to command
  induction hrun generalizing q with
  | done a =>
    rw [List.append_nil]
    exact ⟨h, hq⟩
  | @step a c cs data more fits adds rest ih =>
    rw [← List.append_assoc]
    exact ih (h.run fits) (adds.marked h fits hq)

theorem Marked.resetReader (hq : a.Marked name q) (ha : a.Valid) :
    ∃ a' c, (Command.change name .resetReader).run a = ⟨.ok .done, a', []⟩ ∧
      a'.buffer name = .ok c ∧ c.content = .ok q := by
  obtain ⟨b, hb, live, hholds⟩ := hq
  obtain ⟨m, e, p, hs, rfl⟩ := seat_of_buffer ha hb
  obtain ⟨hreset, hcontent⟩ := hholds.resetReader (ha.buffer hs) live
  exact ⟨_, _, run_update hs rfl hreset, buffer_settle hs rfl, hcontent⟩

/-- Compaction moves the readable bytes to the front and changes no others. Whatever is then read, written
and compacted through the handle, the mark of the reader index leads back to the bytes that were readable
there, and to all that have been written since. -/
theorem Reachable.compaction_keeps_content (h : a.Reachable) (hb : a.buffer name = .ok b)
    (live : 0 < b.group.count) :
    (b.handle.readOnly = false →
      (∃ a' c, (Command.change name .compact).run a = ⟨.ok .done, a', []⟩ ∧
        a'.buffer name = .ok c ∧ b.Compacted c) ∧
      ((Command.change name .compactLazily).run a = (Command.change name .compact).run a ∨
        (Command.change name .compactLazily).run a = ⟨.ok .done, a, []⟩ ∧
          (b.handle.reader = 0 ∨
            0 < b.handle.readable ∧ b.handle.reader < b.handle.capacity / 2))) ∧
    ∃ q, b.content = .ok q ∧
      ∀ cs data, Adding name ((Command.change name .markReader).run a).state cs data →
        ∃ a' c, (Command.change name .resetReader).run
            (after ((Command.change name .markReader).run a).state cs) = ⟨.ok .done, a', []⟩ ∧
          a'.buffer name = .ok c ∧ c.content = .ok (q ++ data) := by
  have hv := h.valid.of_buffer hb
  obtain ⟨m, e, p, hs, rfl⟩ := seat_of_buffer h.valid hb
  refine ⟨fun hopen => ⟨?_, ?_⟩, _, hv.content_eq live, fun cs data hrun => ?_⟩
  · obtain ⟨c, hc, hcompacted, -⟩ := Buffer.compact_compacted hv live hopen
    exact ⟨_, c, run_update hs rfl hc, buffer_settle hs hcompacted.shared, hcompacted⟩
  · obtain ⟨c, hc, -⟩ := Buffer.compact_compacted hv live hopen
    rcases Buffer.compactLazily_cases hv live hopen with hsame | ⟨hstill, hwhy⟩
    · have hlazy := run_update hs (c := .compactLazily) rfl (hsame.trans hc)
      exact .inl (hlazy.trans (run_update hs rfl hc).symm)
    · have hlazy := run_update hs (c := .compactLazily) rfl hstill
      rw [settle_self hs] at hlazy
      exact .inr ⟨hlazy, hwhy⟩
  · have hfirst : ((Command.change name .markReader).run a).state.Reachable := h.run trivial
    have hmark : ((Command.change name .markReader).run a).state.Marked name
        (a.bufferOf name m e p).unread :=
      (onBuffer_shows hs (Change.run .markReader)).marked hfirst.valid live
        (Buffer.holds_markReader hv)
    obtain ⟨hreach, hmarked⟩ := hrun.marked hfirst hmark
    exact hmarked.resetReader hreach.valid

def halved : Arena :=
  after {} [.make (.allocate 16 32) "queue", .change "queue" (.append [1, 2, 3, 4, 5, 6]),
    .change "queue" (.consume 4), .derive "queue" .duplicate "reader"]

/-- The mark moves to the front with the bytes that are left; then more are written, and some of both are
read and taken. The last request would discard them, but not so few. -/
def turnover : List Command :=
  [.change "queue" .compact, .change "queue" (.append [7, 8, 9, 10, 11, 12, 13]),
    .change "reader" (.consume 1), .derive "queue" (.takeSlice 3) "part", .change "queue" .compactLazily]

theorem adding_turnover :
    Adding "queue" ((Command.change "queue" .markReader).run halved).state turnover
      [7, 8, 9, 10, 11, 12, 13] := by
  have silent {s : Arena} {cs : List Command} {data : Bytes} {c : Command} (fits : c.Fits)
      (adds : s.Adds "queue" c []) (rest : Adding "queue" (c.run s).state cs data) :
      Adding "queue" s (c :: cs) data := .step fits adds rest
  have written {s : Arena} {cs : List Command} {data : Bytes} {c : Command} (fits : c.Fits)
      (adds : s.Adds "queue" c data) (rest : Adding "queue" (c.run s).state cs []) :
      Adding "queue" s (c :: cs) data := List.append_nil data ▸ .step fits adds rest
  have change {s : Arena} {x : Change} {b : Buffer} {data : Bytes} (held : s.buffer "queue" = .ok b)
      (kind : x.reads = true ∨ x.writes = true ∨ x.discards = true)
      (spares : (x.discards = true → b.handle.cursor.markedReader < b.handle.reader →
        (x.run b).state = b))
      (hdata : Change.landed (x.payload b) (x.run b).result = data) :
      s.Adds "queue" (.change "queue" x) data := hdata ▸ .change held kind spares
  refine silent trivial (change rfl (.inr (.inr rfl)) (fun _ hbeyond => ?_) rfl) ?_
  · exact absurd hbeyond (by decide)
  refine written trivial (change rfl (.inr (.inl rfl)) nofun rfl) ?_
  refine silent trivial (.aside (m := ⟨0, _⟩) rfl (by decide) (by decide)
    (.inr (.inr ⟨_, _, rfl, rfl⟩)) (by decide)) ?_
  refine silent trivial (.derive (by decide)) ?_
  exact silent trivial (change rfl (.inr (.inr rfl)) (fun _ _ => rfl) rfl) (.done _)

theorem compaction_keeps_content_halved :
    ∃ b a' c, halved.buffer "queue" = .ok b ∧ b.content = .ok [5, 6] ∧
      (Command.change "queue" .resetReader).run
          (after ((Command.change "queue" .markReader).run halved).state turnover) =
        ⟨.ok .done, a', []⟩ ∧
      a'.buffer "queue" = .ok c ∧ c.content = .ok [5, 6, 7, 8, 9, 10, 11, 12, 13] := by
  have hreach : halved.Reachable := ⟨_, _, by decide, rfl⟩
  have hb : halved.buffer "queue" = .ok ⟨⟨0, 16, 32, ⟨4, 6, 0, 0⟩, true, false, .root⟩,
      .holding ⟨.heap, [1, 2, 3, 4, 5, 6] ++ Bytes.zeros 10, 32⟩,
      (Pool.lend .heap 16 32 (.plain {})).state, true⟩ := rfl
  obtain ⟨-, q, hq, hkeeps⟩ := hreach.compaction_keeps_content hb (by decide)
  cases hq
  obtain ⟨a', c, hreset, hc, hcontent⟩ := hkeeps _ _ adding_turnover
  exact ⟨_, a', c, hb, rfl, hreset, hc, hcontent⟩

end Arena

end SharedBuffer
