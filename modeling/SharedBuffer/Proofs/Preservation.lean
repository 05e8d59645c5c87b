import SharedBuffer.Proofs.Adjusting
import SharedBuffer.Proofs.Commands
import SharedBuffer.Proofs.Isolation

/-!
What a growth leaves to the group. Only a change of a buffer, or a transfer that appends to it, moves
its window; every other command leaves the window of a handle that keeps its name. Main statement:
when a window has become larger, the storage of the group holds what it held before and what the
command writes, as far as it reaches, and it reaches as far as before unless the handle has it for
itself and its new window ends before it.
-/

namespace SharedBuffer

namespace Derivation

open SharedBuffer.Action (Adjusts adjusts_pure adjusts_ask adjusts_update adjusts_modify)

theorem adjusts_copy (i n : Nat) : (Buffer.copy i n).Adjusts 0 :=
  .look fun _ => (adjusts_ask _).after fun _ => (adjusts_ask _).after fun _ =>
    (Buffer.adjusts_onPool (Pool.adjusts_lend _ _ _)).after fun s =>
      ((adjusts_ask _).orUndo (Buffer.adjusts_onPool (Pool.adjusts_takeBack s))).after fun _ =>
        adjusts_pure _

theorem adjusts_retainedSlice (i n : Nat) : (Buffer.retainedSlice i n).Adjusts 0 :=
  (adjusts_ask _).after fun _ => (adjusts_ask _).after fun _ => (adjusts_update _).after fun _ =>
    adjusts_ask _

theorem adjusts (d : Derivation) : d.run.Adjusts 0 := by
  cases d with
  | copy extent => exact .look fun _ => (adjusts_copy _ _).after fun _ => adjusts_pure _
  | takeCopy n =>
    exact (Adjusts.look fun _ => (adjusts_ask _).after fun _ => (adjusts_ask _).after fun _ =>
      (adjusts_copy _ _).after fun _ => (adjusts_modify _).after fun _ => adjusts_pure _).after
      fun _ => adjusts_pure _
  | slice extent => exact .look fun _ => (adjusts_ask _).after fun _ => adjusts_pure _
  | retainedSlice extent =>
    exact .look fun _ => (adjusts_retainedSlice _ _).after fun _ => adjusts_pure _
  | retainedDuplicate =>
    exact ((adjusts_update _).after fun _ => adjusts_ask _).after fun _ => adjusts_pure _
  | takeSlice n =>
    exact ((adjusts_ask _).after fun _ => (adjusts_modify _).after fun _ => adjusts_pure _).after
      fun _ => adjusts_pure _
  | takeRetainedSlice n =>
    exact (Adjusts.look fun _ => (adjusts_ask _).after fun _ => (adjusts_ask _).after fun _ =>
      (adjusts_retainedSlice _ _).after fun _ => (adjusts_modify _).after fun _ => adjusts_pure _).after
      fun _ => adjusts_pure _
  | duplicate | readOnlyView | whole => exact (adjusts_ask _).after fun _ => adjusts_pure _

end Derivation

namespace Arena

open Table (find? put erase)
open Outcome (meets_of_state)
open SharedBuffer.Action (Preserves meets_bind current_bind)

def Sized (name : String) (n : Nat) (a : Arena) : Prop :=
  ∃ m, find? name a.buffers = some m ∧ m.handle.capacity = n

variable {a c : Arena} {name other target : String} {n : Nat} {α : Type}

theorem Sized.put (h : a.Sized name n) (hne : target ≠ name) (m : Member)
    (hc : c.buffers = put target m a.buffers) : c.Sized name n := by
  obtain ⟨m', hm', hn⟩ := h
  exact ⟨m', by rw [hc, Table.find?_put_of_ne hne]; exact hm', hn⟩

theorem onBuffer_sized (hne : other ≠ name) (x : Action Failure Buffer α) :
    (onBuffer other x).Preserves (Sized name n) := by
  intro a ha
  simp only [onBuffer]
  split
  · exact ha
  · split
    · exact ha
    · exact ha.put hne _ rfl

theorem onBuffer_still_sized {x : Action Failure Buffer α}
    (hx : ∀ b, (x b).state.handle.capacity = b.handle.capacity) (other : String) :
    (onBuffer other x).Preserves (Sized name n) := by
  intro a ha
  by_cases hne : other = name
  · simp only [onBuffer]
    split
    · exact ha
    · next m hm =>
      split
      · exact ha
      · next hassemble =>
        obtain ⟨e, p, -, -, rfl, rfl⟩ := assemble_eq_some hassemble
        obtain ⟨m', hm', hn⟩ := ha
        rw [hne] at hm ⊢
        rw [hm] at hm'
        cases hm'
        exact ⟨_, Table.find?_put_self _ _ _, (hx _).trans hn⟩
  · exact onBuffer_sized hne x a ha

theorem bury_sized (m : Member) : (bury m).Preserves (Sized name n) := by
  intro a ha
  simp only [bury]
  split
  · exact ha
  · split
    · exact ha
    · exact ha

theorem enrol_sized (hne : target ≠ name) (m : Member) : (enrol target m).Preserves (Sized name n) := by
  intro a ha
  rw [enrol, current_bind]
  refine Preserves.bind (fun _ ha => ha.put hne m rfl) (fun _ => ?_) a ha
  cases find? target a.buffers with
  | none => exact fun _ hc => hc
  | some old => exact bury_sized old

theorem drop_sized (hne : other ≠ name) : (drop other).Preserves (Sized name n) := by
  refine Preserves.bind (fun _ ha => ha) fun m => Preserves.bind (fun a ha => ?_) fun _ => bury_sized m
  obtain ⟨m', hm', hn⟩ := ha
  exact ⟨m', (Table.find?_erase_of_ne hne _).trans hm', hn⟩

theorem copyOver_sized (source : Buffer) (i j k : Nat) (b : Buffer) :
    (lift (Action.update (Buffer.copyOver source i j k)) b).state.handle.capacity =
      b.handle.capacity := by
  cases hc : Buffer.copyOver source i j k b with
  | error f => rw [lift, Action.mapError, Action.update_of_error hc]
  | ok d =>
    obtain ⟨bytes, -, hwrite⟩ := Buffer.copyOver_eq_ok hc
    obtain ⟨-, -, -, s, -, -, rfl⟩ := Buffer.overwrite_eq_ok hwrite
    rw [lift, Action.mapError, Action.update_of_ok hc]
    rfl

theorem copyBetween_sized (source dest : String) (i j k : Nat) :
    (copyBetween source dest i j k).Preserves (Sized name n) :=
  Preserves.bind (fun _ ha => ha) fun b => onBuffer_still_sized (copyOver_sized b i j k) dest

theorem pour_sized {dest : String} (hne : dest ≠ name) (source : String) (k : Nat) :
    (pour source dest k).Preserves (Sized name n) :=
  (onBuffer_still_sized (fun _ => rfl) source).bind fun _ => (onBuffer_sized hne _).bind fun _ =>
    onBuffer_still_sized (fun _ => rfl) source

theorem derived_sized (ha : a.Valid) (h : a.Sized name n) (d : Derivation) (parent : String) :
    (onBuffer parent (lift d.run) a).state.Sized name n := by
  by_cases hne : parent = name
  · obtain ⟨m, hm, hn⟩ := h
    obtain ⟨e, p, hs⟩ := ha.seat hm
    have hcalm := Nat.le_zero.1 (d.adjusts (a.bufferOf name m e p))
    have hsame : (d.run (a.bufferOf name m e p)).state.handle.capacity = m.handle.capacity := by
      have hrun := d.run_meets (ha.buffer hs)
      rcases ho : d.run (a.bufferOf name m e p) with ⟨f | made, b, log⟩
      · rw [ho] at hrun hcalm
        exact hrun.course.capacity_of_calm hcalm
      · rw [ho] at hrun hcalm
        exact hrun.1.capacity_of_calm hcalm
    rw [hne, onBuffer_of_seat hs]
    exact ⟨_, Table.find?_put_self _ _ _, hsame.trans hn⟩
  · exact onBuffer_sized hne _ a h

theorem foundCopy_sized (parent : String) (handle : Handle) (s : Storage) :
    (foundCopy parent handle s).Preserves (Sized name n) := by
  refine Preserves.bind (fun _ ha => ha) fun m a ha => ?_
  rw [current_bind]
  cases a.groups[m.group]? with
  | none => exact ha
  | some e => exact ha

theorem derive_sized (ha : a.Valid) (h : a.Sized name n) (d : Derivation) (parent : String)
    (hne : target ≠ name) : ((Command.derive parent d target).run a).state.Sized name n := by
  refine Outcome.Meets.state (P := Sized name n) (meets_bind ?_)
  refine (meets_of_state (P := Sized name n) (derived_sized ha h d parent)).imp fun made c _ hc => ?_
  refine meets_of_state (Preserves.bind ?_ (fun _ _ hc => hc) c hc)
  obtain ⟨handle, extra⟩ := made
  cases extra with
  | none => exact Preserves.bind (fun _ hc => hc) fun m => enrol_sized hne _
  | some s => exact (foundCopy_sized parent handle s).bind fun m => enrol_sized hne m

theorem allocate_sized (pool : Nat) (kind : StorageKind) (k m : Nat) (expand : Bool) :
    (allocate pool kind k m expand).Preserves (Sized name n) :=
  Preserves.bind (fun _ ha => ha) fun _ => Preserves.bind (fun _ ha => ha) fun _ _ ha => ha

theorem onMember_sized (m : Member) (x : Action Failure Buffer Unit) :
    (onMember m x).Preserves (Sized name n) := by
  intro a ha
  simp only [onMember]
  split
  · exact ha
  · exact ha

theorem adopt_sized (data : Bytes) (expand : Bool) : (adopt data expand).Preserves (Sized name n) :=
  Preserves.bind (fun _ ha => ha) fun _ _ ha => ha

theorem make_sized (what : Making) : what.run.Preserves (Sized name n) := by
  cases what with
  | allocate k m =>
    exact Preserves.bind (fun _ ha => ha) fun _ => Preserves.bind (fun _ ha => ha) fun _ =>
      (allocate_sized _ _ _ _ _).orUndo fun _ ha => ha
  | adopt data => exact adopt_sized data true
  | request allocator what =>
    refine Preserves.bind (fun _ ha => ha) fun al => ?_
    cases what with
    | copied data =>
      exact (allocate_sized _ _ _ _ _).bind fun m => (onMember_sized m _).orUndo (bury_sized m)
    | adopted data => exact adopt_sized data _
    | _ => exact allocate_sized _ _ _ _ _

end Arena

namespace Exchange

open SharedBuffer.Action (Preserves)
open Arena (Sized copyBetween_sized pour_sized)

def receiver (name other : String) : Exchange → Option String
  | .readInto _ => some other
  | .writeFrom _ => some name
  | _ => none

theorem run_sized {name first other : String} {n : Nat} {x : Exchange}
    (hx : x.receiver first other ≠ some name) : (x.run first other).Preserves (Sized name n) := by
  have done {y : Action Failure Arena Unit} (hy : y.Preserves (Sized name n)) :
      (y >>= fun _ => pure Answer.done).Preserves (Sized name n) := hy.bind fun _ _ ha => ha
  refine Preserves.bind (fun _ ha => ha) fun _ => Preserves.bind (fun _ ha => ha) fun _ => ?_
  split
  · exact fun _ ha => ha
  · cases x with
    | getBytesTo index otherIndex length => exact done (copyBetween_sized _ _ _ _ _)
    | setBytesFrom index otherIndex length => exact done (copyBetween_sized _ _ _ _ _)
    | readInto k => exact done (pour_sized (fun hsame => hx (congrArg some hsame)) first k)
    | writeFrom k => exact done (pour_sized (fun hsame => hx (congrArg some hsame)) other k)
    | equals => exact Preserves.bind (fun _ ha => ha) fun _ => Preserves.bind (fun _ ha => ha) fun _ =>
        Preserves.bind (fun _ ha => ha) fun _ _ ha => ha
    | compare => exact Preserves.bind (fun _ ha => ha) fun _ => Preserves.bind (fun _ ha => ha) fun _ =>
        Preserves.bind (fun _ ha => ha) fun _ _ ha => ha

theorem run_state (x : Exchange) (first other : String) (a : Arena) :
    (x.run first other a).state = a ∨
      (first = other → x.compares = true) ∧ (x.run first other a).state = (x.answer first other a).state := by
  simp only [run]
  cases ho : a.buffer other with
  | error f =>
    rw [Action.ask_bind_of_error ho]
    exact .inl rfl
  | ok o =>
    rw [Action.ask_bind_of_ok ho]
    cases hb : a.buffer first with
    | error f =>
      rw [Action.ask_bind_of_error hb]
      exact .inl rfl
    | ok b =>
      rw [Action.ask_bind_of_ok hb]
      split
      · exact .inl rfl
      · next hne => exact .inr ⟨fun hsame => by simpa [hsame] using hne, rfl⟩

end Exchange

namespace Command

open SharedBuffer.Action (Preserves)
open Arena

variable {a : Arena} {c : Command} {name : String} {n : Nat}

def mover : Command → Option String
  | .change name _ => some name
  | .exchange name other x => x.receiver name other
  | _ => none

theorem putStore_sized (target : String) (s : Storage) : (putStore target s).Preserves (Sized name n) :=
  Preserves.bind (fun _ ha => ha) fun _ _ ha => ha

theorem putAllocator_sized (target : String) (al : Allocator) :
    (putAllocator target al).Preserves (Sized name n) :=
  Preserves.bind (fun _ ha => ha) fun _ _ ha => ha

theorem run_sized (ha : a.Valid) (h : a.Sized name n) (hseat : name ∉ c.seats)
    (hmover : c.mover ≠ some name) : (c.run a).state.Sized name n := by
  have ne {target : String} (hnot : name ∉ [target]) : target ≠ name :=
    fun hsame => hnot (List.mem_singleton.2 hsame.symm)
  have aside {x : Action Failure Arena Answer} (hx : x.Preserves (Sized name n)) :
      (x a).state.Sized name n := hx a h
  cases c with
  | make what target =>
    exact aside ((make_sized what).bind fun m => (enrol_sized (ne hseat) m).bind fun _ _ ha => ha)
  | drop other => exact aside ((drop_sized (ne hseat)).bind fun _ _ ha => ha)
  | ask other query => exact aside (onBuffer_still_sized (fun _ => rfl) other)
  | change other change => exact aside (onBuffer_sized (fun hsame => hmover (congrArg some hsame)) _)
  | derive parent d target => exact derive_sized ha h d parent (ne hseat)
  | exchange first other x => exact aside (Exchange.run_sized hmover)
  | storeNew kind k m target =>
    exact aside (Preserves.bind (fun _ ha => ha) fun s => putStore_sized target s)
  | storeAdopt data m target =>
    exact aside (Preserves.bind (fun _ ha => ha) fun s => putStore_sized target s)
  | storeResize store k target =>
    exact aside (Preserves.bind (fun _ ha => ha) fun _ => Preserves.bind (fun _ ha => ha) fun s =>
      putStore_sized target s)
  | store store x => exact aside (Preserves.bind (fun _ ha => ha) fun _ _ ha => ha)
  | poolNew slots target =>
    exact aside (Preserves.bind (fun _ ha => ha) fun _ => Preserves.bind (fun _ ha => ha) fun _ _ ha => ha)
  | poolLend pool kind k m target =>
    exact aside (Preserves.bind (fun _ ha => ha) fun _ => Preserves.bind (fun _ ha => ha) fun s =>
      putStore_sized target s)
  | poolRelend pool store k target =>
    exact aside (Preserves.bind (fun _ ha => ha) fun _ => Preserves.bind (fun _ ha => ha) fun _ =>
      Preserves.bind (fun _ ha => ha) fun s => putStore_sized target s)
  | poolTakeBack pool store =>
    exact aside (Preserves.bind (fun _ ha => ha) fun _ => Preserves.bind (fun _ ha => ha) fun _ =>
      Preserves.bind (fun _ ha => ha) fun _ => Preserves.bind (fun _ ha => ha) fun _ _ ha => ha)
  | poolShrink pool | poolStatistics pool | poolStrategy pool =>
    exact aside (Preserves.bind (fun _ ha => ha) fun _ => Preserves.bind (fun _ ha => ha) fun _ _ ha => ha)
  | allocatorNew settings target | allocatorOnPool pool settings target =>
    exact aside (Preserves.bind (fun _ ha => ha) fun _ => Preserves.bind (fun _ ha => ha) fun _ =>
      putAllocator_sized target _)
  | allocatorDefault target | allocatorClone allocator target =>
    exact aside (Preserves.bind (fun _ ha => ha) fun _ => putAllocator_sized target _)
  | allocatorInfo allocator | allocatorStatistics allocator | allocatorShrink allocator =>
    exact aside (Preserves.bind (fun _ ha => ha) fun _ => Preserves.bind (fun _ ha => ha) fun _ _ ha => ha)

end Command

namespace Arena

open Table (find? put)

variable {a c : Arena} {name source : String} {m : Member} {e : Estate} {p : Pool} {d : Buffer} {n : Nat}

theorem Sized.of_seat (hs : a.Seat name m e p) : a.Sized name m.handle.capacity := ⟨m, hs.member, rfl⟩

theorem Sized.capacity (h : a.Sized name n) (ha : a.Valid) (hd : a.buffer name = .ok d) :
    d.handle.capacity = n := by
  obtain ⟨m, hm, hn⟩ := h
  obtain ⟨m', e, p, hs, rfl⟩ := seat_of_buffer ha hd
  have hsame := hs.member
  rw [hm] at hsame
  cases hsame
  exact hn

structure Shows (name : String) (g : Nat) (d : Buffer) (a : Arena) : Prop where
  member : find? name a.buffers = some ⟨g, d.handle⟩
  group : ∃ pool, a.groups[g]? = some ⟨pool, d.group⟩

theorem shows_self (hs : a.Seat name m e p) : a.Shows name m.group (a.bufferOf name m e p) :=
  ⟨hs.member, e.pool, hs.estate⟩

theorem shows_settle (hs : a.Seat name m e p) (d : Buffer) :
    (a.settle name m e.pool d).Shows name m.group d :=
  ⟨Table.find?_put_self _ _ _, e.pool, groups_settle_self hs d⟩

theorem onBuffer_shows {α : Type} (hs : a.Seat name m e p) (x : Action Failure Buffer α) :
    (onBuffer name x a).state.Shows name m.group (x (a.bufferOf name m e p)).state := by
  rw [onBuffer_of_seat hs]
  exact shows_settle hs _

theorem Shows.buffer {g : Nat} {b : Buffer} (h : a.Shows name g d) (ha : a.Valid)
    (hb : a.buffer name = .ok b) : b.handle = d.handle ∧ b.group = d.group := by
  obtain ⟨m, e, p, hs, rfl⟩ := seat_of_buffer ha hb
  obtain ⟨hm, pool, he⟩ := h
  have hmember := hs.member
  rw [hm] at hmember
  cases hmember
  have hestate := hs.estate
  rw [he] at hestate
  cases hestate
  exact ⟨rfl, rfl⟩

/-- A move of the cursor of another handle is not seen, though that handle may belong to the group. -/
theorem seek_shows {g : Nat} (hne : source ≠ name) (f : Cursor → Cursor) :
    (onBuffer source (lift (Action.modify (Buffer.moveCursor f)))).Preserves (Shows name g d) := by
  intro a ha
  simp only [onBuffer]
  split
  · exact ha
  · split
    · exact ha
    · next hassemble =>
      obtain ⟨e, p, he, -, rfl, rfl⟩ := assemble_eq_some hassemble
      obtain ⟨hm, pool, hgroup⟩ := ha
      refine ⟨(Table.find?_put_of_ne hne _ _).trans hm, pool, ?_⟩
      change (a.groups.set _ ⟨e.pool, e.group⟩)[g]? = _
      rw [set_of_getElem? he]
      exact hgroup

theorem pour_shows (ha : a.Valid) (hs : a.Seat name m e p) (hne : source ≠ name) (n : Nat) :
    (pour source name n a).state = a ∨
      (pour source name n a).state.Shows name m.group
        (Buffer.append (a.shown source (Buffer.peek n)) (a.bufferOf name m e p)).state := by
  have hpeek : (onBuffer source (lift (Action.ask (Buffer.peek n))) a).Meets _ _ :=
    onBuffer_ask_meets ha fun b hb => hb.sound_peek n
  have hstate := state_onBuffer_ask ha (Buffer.peek n) source
  rcases ho : onBuffer source (lift (Action.ask (Buffer.peek n))) a with ⟨f | bytes, a', log⟩
  · rw [ho] at hstate
    rw [pour, Action.bind_of_error ho]
    exact .inl hstate
  · rw [ho] at hstate hpeek
    obtain ⟨-, m', e', p', hs', hbytes⟩ := hpeek
    have hsame : a' = a := hstate
    rw [shown_of_seat hs' hbytes, pour, Action.bind_of_ok ho, hsame]
    refine .inr ?_
    have happend := onBuffer_of_seat hs (lift (Buffer.append bytes))
    have hshows := shows_settle hs (Buffer.append bytes (a.bufferOf name m e p)).state
    rcases hr : (lift (Buffer.append bytes) (a.bufferOf name m e p)).result with f | v
    · rw [hr] at happend
      rw [Action.bind_of_error happend]
      exact hshows
    · rw [hr] at happend
      rw [Action.bind_of_ok happend]
      exact seek_shows hne _ _ hshows

end Arena

namespace Command

open Arena

variable {a : Arena} {c : Command} {name : String} {m : Member} {e : Estate} {p : Pool} {d : Buffer}

theorem enlarged_of_shows {a' : Arena} {b : Buffer} {g : Nat} (change : Change) (hb : b.Valid)
    (live : 0 < b.group.count) (hfits : change.Fits) (ha' : a'.Valid)
    (hshows : a'.Shows name g (change.run b).state) (hd : a'.buffer name = .ok d)
    (hmore : d.handle.capacity ≠ b.handle.capacity) : b.Enlarged (change.effect b).written d := by
  obtain ⟨hhandle, hgroup⟩ := hshows.buffer ha' hd
  rw [hhandle] at hmore
  rw [Buffer.Enlarged, hhandle, hgroup]
  exact Change.enlarged hb hfits live hmore

theorem written_use (name : String) (g : Nat) (f : Effect) :
    (Account.use name g f).written g = f.written := if_pos rfl

theorem pour_enlarges {source : String} {k : Nat} (ha : a.Valid) (hs : a.Seat name m e p)
    (live : 0 < e.group.count) (hne : source ≠ name) (ha' : (pour source name k a).state.Valid)
    (hd : (pour source name k a).state.buffer name = .ok d)
    (hmore : d.handle.capacity ≠ m.handle.capacity) :
    (a.bufferOf name m e p).Enlarged
      (Effect.write (a.bufferOf name m e p).front (a.shown source (Buffer.peek k))).written d := by
  rcases pour_shows ha hs hne k with hsame | hshows
  · rw [hsame] at hd
    exact absurd ((Sized.of_seat hs).capacity ha hd) hmore
  · refine enlarged_of_shows (g := m.group) (.append (a.shown source (Buffer.peek k))) (ha.buffer hs)
      live trivial ha' ?_ hd hmore
    rw [Change.run, Action.state_then_pure]
    exact hshows

theorem exchange_enlarges {first other : String} {x : Exchange} (ha : a.Valid) (hs : a.Seat name m e p)
    (live : 0 < e.group.count) (hx : x.receiver first other = some name)
    (ha' : (x.run first other a).state.Valid)
    (hd : (x.run first other a).state.buffer name = .ok d)
    (hmore : d.handle.capacity ≠ m.handle.capacity) :
    (a.bufferOf name m e p).Enlarged ((x.account first other a).written m.group) d := by
  rcases x.run_state first other a with hsame | ⟨hne, hstate⟩
  · rw [hsame] at hd
    exact absurd ((Sized.of_seat hs).capacity ha hd) hmore
  rw [hstate] at ha' hd
  have hwritten (f : Buffer → Effect) (user : String) :
      ((a.entry name f).andThen { used := [user] }).written m.group =
        (f (a.bufferOf name m e p)).written := by
    rw [entry_of_seat hs]
    exact funext fun _ => (Option.none_or).trans (congrFun (written_use name m.group _) _)
  cases x with
  | readInto k =>
    cases hx
    rw [Exchange.answer, Action.state_then_pure] at ha' hd
    rw [Exchange.account, hwritten]
    exact pour_enlarges ha hs live (fun h => by cases hne h) ha' hd hmore
  | writeFrom k =>
    cases hx
    rw [Exchange.answer, Action.state_then_pure] at ha' hd
    rw [Exchange.account, hwritten]
    exact pour_enlarges ha hs live (fun h => by cases hne h.symm) ha' hd hmore
  | _ => cases hx

theorem run_enlarges (ha : a.Valid) (hc : c.Fits) (hs : a.Seat name m e p) (live : 0 < e.group.count)
    (hseat : name ∉ c.seats) (hd : (c.run a).state.buffer name = .ok d)
    (hmore : d.handle.capacity ≠ m.handle.capacity) :
    (a.bufferOf name m e p).Enlarged ((c.account a).written m.group) d := by
  obtain ⟨x, hdoes, -⟩ := ha.step hc
  have ha' := hdoes.valid ha
  by_cases hmover : c.mover = some name
  · cases c with
    | change other change =>
      cases hmover
      rw [account, entry_of_seat hs, written_use]
      exact enlarged_of_shows change (ha.buffer hs) live hc ha' (onBuffer_shows hs change.run) hd hmore
    | exchange first other x => exact exchange_enlarges ha hs live hmover ha' hd hmore
    | _ => cases hmover
  · exact absurd ((run_sized ha (Sized.of_seat hs) hseat hmover).capacity ha' hd) hmore

end Command

namespace Arena

open Table (find?)

variable {a : Arena} {c : Command} {name : String} {b d : Buffer}

theorem Valid.persists_buffer {m : Member} {e : Estate} {p : Pool} (ha : a.Valid) (hc : c.Fits)
    (hseat : name ∉ c.seats) (hs : a.Seat name m e p) (hd : (c.run a).state.buffer name = .ok d) :
    d.Valid ∧ d.handle.origin = m.handle.origin ∧ d.handle.maxCapacity = m.handle.maxCapacity := by
  obtain ⟨x, hdoes, -⟩ := ha.step hc
  have ha' := hdoes.valid ha
  have hcs : ∀ c' ∈ [c], c'.Fits ∧ name ∉ c'.seats := by
    intro c' hc'
    rw [List.mem_singleton.1 hc']
    exact ⟨hc, hseat⟩
  obtain ⟨m', hm', hkept⟩ := ha.persists hcs hs.member
  obtain ⟨m'', e', p', hs', rfl⟩ := seat_of_buffer ha' hd
  have hsame : some m' = some m'' := hm'.symm.trans hs'.member
  cases hsame
  exact ⟨ha'.buffer hs', hkept.origin, hkept.maxCapacity⟩

/-- However the window of a handle becomes larger, the storage of its group gets the extent that the
new window asks for, and holds what it held and what the command writes over it. This spares all
that the group had, unless the handle has the storage for itself and lags behind it even then: its
storage is cut off where the new window ends. -/
theorem Reachable.growth_spares_iff (h : a.Reachable) (hc : c.Fits) (hseat : name ∉ c.seats)
    (hb : a.buffer name = .ok b) (live : 0 < b.group.count)
    (hd : (c.run a).state.buffer name = .ok d) (hmore : b.handle.capacity < d.handle.capacity) :
    ∃ m s, find? name a.buffers = some m ∧ b.group.storage = some s ∧
      b.Enlarged ((c.account a).written m.group) d ∧
      (b.Spares ((c.account a).written m.group) d ↔
        b.shared = true ∨ s.capacity ≤ d.handle.capacity) := by
  obtain ⟨m, e, p, hs, rfl⟩ := seat_of_buffer h.valid hb
  obtain ⟨hvalid, horigin, hmax⟩ := h.valid.persists_buffer hc hseat hs hd
  have hbefore := h.valid.buffer hs
  have hfree := hbefore.handle.free_of_moved hvalid.handle horigin hmax (Nat.ne_of_gt hmore)
  have henlarged := Command.run_enlarges h.valid hc hs live hseat hd (Nat.ne_of_gt hmore)
  obtain ⟨s, t, hstorage, ht, hcarries⟩ := henlarged
  exact ⟨m, s, hs.member, hstorage, ⟨s, t, hstorage, ht, hcarries⟩,
    Buffer.spares_iff hbefore hvalid horigin hfree (Nat.le_of_lt hmore) hstorage ht hcarries⟩

def lagging : Arena :=
  after {} [.make (.allocate 2 8) "root", .derive "root" .duplicate "view",
    .change "root" (.changeCapacity 8), .change "root" (.append [1, 2, 3, 4, 5])]

theorem reachable_lagging : lagging.Reachable := ⟨_, _, by decide, rfl⟩

/-- As long as the other handle is there, the storage keeps its eight bytes. -/
theorem growth_spares_lagging :
    ∃ b d, lagging.buffer "view" = .ok b ∧
      ((Command.change "view" (.changeCapacity 4)).run lagging).state.buffer "view" = .ok d ∧
      b.handle.capacity = 2 ∧ d.handle.capacity = 4 ∧ b.Spares (fun _ => none) d ∧
      d.group.storage = some ⟨.heap, [1, 2, 3, 4, 5, 0, 0, 0], 8⟩ := by
  obtain ⟨b, hb, hcapacity, live, hshared⟩ : ∃ b, lagging.buffer "view" = .ok b ∧
      b.handle.capacity = 2 ∧ 0 < b.group.count ∧ b.shared = true := ⟨_, rfl, rfl, by decide, rfl⟩
  obtain ⟨d, hd, hgrown, hstorage⟩ : ∃ d,
      ((Command.change "view" (.changeCapacity 4)).run lagging).state.buffer "view" = .ok d ∧
      d.handle.capacity = 4 ∧ d.group.storage = some ⟨.heap, [1, 2, 3, 4, 5, 0, 0, 0], 8⟩ :=
    ⟨_, rfl, rfl, rfl⟩
  obtain ⟨m, s, hm, -, -, hiff⟩ := reachable_lagging.growth_spares_iff
    (c := .change "view" (.changeCapacity 4)) trivial List.not_mem_nil hb live hd
    (by rw [hcapacity, hgrown]; decide)
  obtain rfl : _ = m := Option.some.inj hm
  exact ⟨b, d, hb, hd, hcapacity, hgrown, hiff.2 (.inl hshared), hstorage⟩

def deserted : Arena := ((Command.drop "root").run lagging).state

/-- The capacity grows from two to four, and what unwrapping shows behind that is lost. -/
theorem growth_loses_bytes :
    deserted.Reachable ∧ ∃ b d u v, deserted.buffer "view" = .ok b ∧ 0 < b.group.count ∧
      ((Command.change "view" (.changeCapacity 4)).run deserted).result = .ok .done ∧
      ((Command.change "view" (.changeCapacity 4)).run deserted).state.buffer "view" = .ok d ∧
      b.handle.capacity = 2 ∧ d.handle.capacity = 4 ∧
      b.group.storage = some ⟨.heap, [1, 2, 3, 4, 5, 0, 0, 0], 8⟩ ∧
      d.group.storage = some ⟨.heap, [1, 2, 3, 4], 8⟩ ∧
      b.unwrapped = .ok u ∧ u.read 4 1 = .ok [5] ∧
      d.unwrapped = .ok v ∧ v.read 4 1 = .error (.rangeOutside 4 1 4) ∧
      ¬b.Spares (fun _ => none) d := by
  refine ⟨reachable_lagging.run trivial, _, _, _, _, rfl, by decide, rfl, rfl, rfl, rfl, rfl, rfl, rfl,
    rfl, rfl, rfl, ?_⟩
  rintro ⟨⟨s, t, hs, ht, hlaw⟩, -⟩
  cases hs
  cases ht
  exact absurd hlaw.capacity (by decide)

end Arena

end SharedBuffer
