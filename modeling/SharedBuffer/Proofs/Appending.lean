import SharedBuffer.Proofs.Endpoints
import SharedBuffer.Proofs.Inscription
import SharedBuffer.Proofs.Loading

/-!
The changes at the two indexes, whatever becomes of them. A write appends its bytes, those that a broken
stream has brought or left room for, or nothing; a read moves the reader index within the readable bytes
and nothing else.
-/

namespace SharedBuffer

namespace Buffer

open SharedBuffer.Action (meets_ask_bind meets_map meets_then_pure meets_mapError current_bind)

structure InUse (b : Buffer) : Prop where
  valid : b.Valid
  live : 0 < b.group.count
  pool : b.pool.Orderly
  granted : ∀ s, b.group.storage = some s → s.Granted b.pool.system

def Extended (data : Bytes) (b c : Buffer) : Prop := ∃ capacity, b.Lengthened capacity data c

/-- An action appends these bytes, or fails and appends nothing. -/
def Extends {ε α : Type} (x : Action ε Buffer α) (data : Bytes) (b : Buffer) : Prop :=
  (x b).Meets (fun _ c _ => b.Extended data c) fun _ c _ => b.Extended [] c

variable {ε ε' α β σ : Type} {b c : Buffer} {n : Nat} {data : Bytes} {f : Fault} {log : List Event}

theorem Extended.live (h : b.Extended data c) (live : 0 < b.group.count) : 0 < c.group.count := by
  obtain ⟨capacity, hlong⟩ := h
  rw [hlong.group.count]
  exact live

theorem extended_self (hb : b.InUse) : b.Extended [] b := ⟨_, lengthened_self hb.valid hb.live⟩

theorem extended_of_refuses (hb : b.InUse) (h : b.Refuses f c log) : b.Extended [] c := by
  obtain ⟨-, -, -, bytes, hbytes, hall⟩ := lengthened_self hb.valid hb.live
  have hvalid := h.course.valid hb.valid
  have hsystem := h.course.serves.system
  have hsame := h.unmoved.same
  obtain ⟨handle, group, pool, shared⟩ := c
  cases hsame
  exact ⟨_, rfl, ⟨rfl, rfl, rfl, hsystem, fun _ s hs => ⟨s, hs, Nat.le_refl _⟩⟩, hvalid, bytes,
    hbytes, hall⟩

theorem Widened.extended (h : b.Widened n c) (hb : b.InUse) : b.Extended [] c := by
  have live : 0 < c.group.count := by
    rw [h.group.count]
    exact hb.live
  have hself := lengthened_self h.valid live
  rw [Handle.fitted_of_fits (Nat.zero_le _)] at hself
  exact ⟨_, h.lengthened hb.valid hself⟩

theorem extends_of_ok {x : Action Fault Buffer α} {e : Effect} (hb : b.InUse) (h : Performs x e b)
    (hok : ∀ v c log, x b = ⟨.ok v, c, log⟩ → b.Extended data c) : Extends x data b := by
  rw [Performs] at h
  rcases ho : x b with ⟨f | v, c, log⟩
  · rw [ho] at h
    rw [Extends, ho]
    exact extended_of_refuses hb h
  · rw [Extends, ho]
    exact hok v c log ho

section Writing

variable (hb : b.InUse)
include hb

theorem InUse.ready_of_reserve (h : reserve n b = ⟨.ok (), c, log⟩) : b.Ready n :=
  Buffer.ready_of_reserve hb.valid hb.pool hb.granted h

theorem InUse.ready_of_append (h : append data b = ⟨.ok (), c, log⟩) : b.Ready data.length :=
  Buffer.ready_of_append hb.valid hb.pool hb.granted h

theorem reserve_extends (n : Nat) : Extends (reserve n) [] b := by
  refine extends_of_ok hb (reserve_performs hb.valid n) fun _ c log ho => ?_
  obtain ⟨d, more, hd, hwide⟩ := (hb.ready_of_reserve ho).reserve
  cases hd.symm.trans ho
  exact hwide.extended hb

theorem tryReserve_extends (n : Nat) : Extends (tryReserve n) [] b := by
  rw [Extends, tryReserve, current_bind]
  refine meets_ask_bind (fun _ _ => ?_) fun _ _ => extended_self hb
  split
  · exact extended_self hb
  split
  · exact extended_self hb
  split
  · exact extended_self hb
  · exact meets_then_pure (reserve_extends hb n)

theorem append_extends (data : Bytes) : Extends (append data) data b := by
  refine extends_of_ok hb (append_performs hb.valid data) fun _ c log ho => ?_
  obtain ⟨d, more, hd, hlong⟩ := (hb.ready_of_append ho).append
  cases hd.symm.trans ho
  exact ⟨_, hlong⟩

theorem appendAll_extends (chunks : List Bytes) : Extends (appendAll chunks) chunks.flatten b := by
  refine extends_of_ok hb (appendAll_performs hb.valid chunks) fun _ c log ho => ?_
  obtain ⟨⟨⟩, d, first, more, hreserve, -, -⟩ := Action.exists_of_bind_eq_ok ho
  obtain ⟨e, rest, he, hlong⟩ := (hb.ready_of_reserve hreserve).appendAll
  cases he.symm.trans ho
  exact ⟨_, hlong⟩

theorem writeScalar_extends (v : Scalar) : Extends (writeScalar v) (bytesOf v) b := by
  refine meets_ask_bind (fun bytes hbytes => ?_) fun _ _ => extended_self hb
  rw [bytesOf, hbytes]
  exact append_extends hb bytes

theorem appendEncoded_extends {worst : Nat} {bytes : Bytes} (hworst : bytes.length ≤ worst) :
    Extends (appendEncoded worst bytes) bytes b := by
  refine extends_of_ok hb (appendEncoded_performs hb.valid hworst) fun n c log ho => ?_
  cases hmut : b.checkMutable with
  | error f =>
    rw [rejects_appendEncoded hmut] at ho
    cases ho
  | ok u =>
    cases hwants : wantsReserve worst b.handle with
    | true =>
      have heq := (appendEncoded_of_wants hmut hwants).symm.trans ho
      obtain ⟨⟨⟩, d, first, more, hreserve, -, -⟩ := Action.exists_of_bind_eq_ok heq
      obtain ⟨e, rest, he, hlong⟩ := (hb.ready_of_reserve hreserve).appendEncoded_worst hworst hwants
      cases he.symm.trans ho
      exact ⟨_, hlong⟩
    | false =>
      have heq := (appendEncoded_of_not_wants hmut hwants).symm.trans ho
      obtain ⟨⟨⟩, d, first, more, happend, -, -⟩ := Action.exists_of_bind_eq_ok heq
      obtain ⟨e, rest, he, hlong⟩ := (hb.ready_of_append happend).appendEncoded_real hwants
      cases he.symm.trans ho
      exact ⟨_, hlong⟩

theorem writeSome_extends (data : Bytes) :
    Extends (writeSome data) (data.take (room b.handle)) b := by
  have htake : data.take (min data.length (room b.handle)) = data.take (room b.handle) := by
    rw [Nat.min_comm, ← List.take_take, List.take_length]
  rw [Extends, ← htake]
  rcases Nat.eq_zero_or_pos (min data.length (room b.handle)) with hzero | hpos
  · rw [writeSome_of_idle hzero, hzero, List.take_zero]
    exact extended_self hb
  · rw [writeSome_eq hpos]
    exact meets_then_pure (meets_mapError (append_extends hb _))

theorem writeAll_extends (data : Bytes) :
    (writeAll data b).Meets (fun _ c _ => b.Extended (data.take (room b.handle)) c)
      fun x c _ => (x = .nothingWritten ∧ b.Extended (data.take (room b.handle)) c) ∨
        ∃ f, x = .buffer f ∧ b.Extended [] c := by
  by_cases hdata : data = []
  · rw [hdata, writeAll_nil, List.take_nil]
    exact extended_self hb
  have hextends := writeSome_extends hb data
  have hmeets := writeSome_meets hb.valid data
  rw [writeAll_eq hdata]
  rw [Extends] at hextends
  rcases ho : writeSome data b with ⟨x | n, c, log⟩
  · rw [ho] at hextends hmeets
    obtain ⟨f, rfl, -⟩ := hmeets
    rw [Action.bind_of_error ho]
    exact .inr ⟨f, rfl, hextends⟩
  · rw [ho] at hextends hmeets
    obtain ⟨hn, ⟨hzero, -, -⟩ | ⟨hsome, happ⟩⟩ := hmeets
    · rw [Action.bind_of_ok ho, if_pos hzero]
      exact .inl ⟨rfl, hextends⟩
    · rw [Action.bind_of_ok ho, if_neg hsome, writeAll_rest hb.valid hn happ]
      split
      · exact hextends
      · exact .inl ⟨rfl, hextends⟩

theorem kind_of_reserve_error (h : reserve n b = ⟨.error f, c, log⟩) : f.kind? ≠ some .io := by
  cases hmut : b.checkMutable with
  | error g =>
    rw [rejects_reserve hmut n] at h
    cases h
    rw [checkMutable, checkLive] at hmut
    split at hmut
    · cases hmut
      decide
    · split at hmut
      · cases hmut
        decide
      · cases hmut
  | ok u =>
    obtain ⟨live, hopen⟩ := (checkMutable_eq_ok_iff b).1 hmut
    have hends := requests_end hb.valid hb.pool hb.granted n
    rw [h] at hends
    generalize tryReserve n b = soft at hends
    cases hends with
    | barred hbarred =>
      rcases hbarred with hreleased | hreadOnly
      · omega
      · rw [hopen] at hreadOnly
        cases hreadOnly
    | fixed _ _ hkind => rw [hkind]; decide
    | beyond _ _ hkind => rw [hkind]; decide
    | refused _ _ _ _ hcause =>
      rcases Storage.kind?_of_checkKind hcause with hkind | rfl
      · rw [hkind]
        decide
      · intro hkind
        cases hkind

/-- What a source has brought is there, also if it broke then. -/
theorem loadLength_extends (n : Nat) (r : Stream.Reader σ) (s : σ) :
    (loadLength n r s b).Meets (fun _ c _ => b.Extended (Stream.deliver r n s).bytes c)
      fun x c _ => (x.1.fault.kind? = some .io ∧ b.Extended (Stream.deliver r n s).bytes c) ∨
        x.1.fault.kind? ≠ some .io ∧ b.Extended [] c := by
  rcases ho : reserve n b with ⟨f | ⟨⟩, c, log⟩
  · have hextends := reserve_extends hb n
    rw [Extends, ho] at hextends
    have hload : loadLength n r s b = ⟨.error (refused f, s), c, log⟩ :=
      Action.bind_of_error (by rw [Action.mapError, ho])
    rw [hload]
    exact .inr ⟨kind_of_reserve_error hb ho, hextends⟩
  · have hloads := (hb.ready_of_reserve ho).loads ho r s
    have happended := hloads.appended
    rw [Outcome.Meets]
    cases hfail : (Stream.deliver r n s).failure with
    | none =>
      rw [hloads.complete hfail]
      exact ⟨_, happended⟩
    | some reason =>
      obtain ⟨f, hkind, -, hresult⟩ := hloads.broken reason hfail
      rw [hresult]
      exact .inl ⟨hkind, _, happended⟩

theorem load_extends (r : Stream.Reader σ) (s : σ) :
    (load r s b).Meets (fun _ c _ => b.Extended (Stream.deliver r b.handle.writable s).bytes c)
      fun x c _ => (x.1.fault.kind? = some .io ∧
          b.Extended (Stream.deliver r b.handle.writable s).bytes c) ∨
        x.1.fault.kind? ≠ some .io ∧ b.Extended [] c := by
  cases hmut : b.checkMutable with
  | error f =>
    have hreserve := rejects_reserve hmut 0
    rw [rejects_load hmut]
    exact .inr ⟨kind_of_reserve_error hb hreserve, extended_self hb⟩
  | ok u =>
    rw [load_eq_loadLength hmut]
    exact loadLength_extends hb _ r s

theorem loadFile_extends (content : Option Bytes) :
    Extends (loadFile content) (content.getD []) b := by
  have hmeets := loadFile_meets hb.valid content
  rcases ho : loadFile content b with ⟨x | t, c, log⟩
  · rw [ho] at hmeets
    rw [Extends, ho]
    exact extended_of_refuses hb hmeets
  · cases content with
    | none => cases ho
    | some bytes =>
      have hload := loadLength_extends hb bytes.length Stream.Source.reader (.ofScript [.chunk bytes])
      rw [(Stream.first_deliver_chunk bytes).bytes, List.take_length] at hload
      have hmapped : Outcome.Meets (loadFile (some bytes) b) (fun _ c _ => b.Extended bytes c)
          fun _ _ _ => True :=
        meets_map (meets_mapError (hload.imp_error fun _ _ _ _ => trivial))
      rw [ho] at hmapped
      rw [Extends, ho]
      exact hmapped

end Writing

section Reading

variable {d : Buffer} {k : Nat}

/-- The reader index has moved on over bytes that were readable; the storage is as it was, and no reference
has been given up. -/
structure Strode (n : Nat) (b c : Buffer) : Prop where
  readable : n ≤ b.handle.readable
  handle : c.handle = b.handle.moveCursor (Cursor.advanceReader n)
  storage : c.group.storage = b.group.storage
  count : b.group.count ≤ c.group.count

theorem strode_self (b : Buffer) : b.Strode 0 b := ⟨Nat.zero_le _, rfl, rfl, Nat.le_refl _⟩

theorem strode_advance (hn : n ≤ b.handle.readable) :
    b.Strode n (b.moveCursor (Cursor.advanceReader n)) :=
  ⟨hn, rfl, rfl, Nat.le_refl _⟩

theorem Strode.trans (h : b.Strode n c) (h' : c.Strode k d) : b.Strode (n + k) d := by
  have hfirst := h.readable
  have hnext := h'.readable
  rw [h.handle] at hnext
  refine ⟨?_, ?_, h'.storage.trans h.storage, Nat.le_trans h.count h'.count⟩
  · simp only [Handle.readable, Cursor.readable, Handle.moveCursor, Cursor.advanceReader] at hfirst hnext ⊢
    omega
  · rw [h'.handle, h.handle]
    simp only [Handle.moveCursor, Cursor.advanceReader, Nat.add_assoc]

def Strides (x : Action ε Buffer α) (b : Buffer) : Prop := ∃ n, b.Strode n (x b).state

theorem strides_of_still {x : Action ε Buffer α} (h : (x b).state = b) : Strides x b := by
  rw [Strides, h]
  exact ⟨0, strode_self b⟩

theorem Strides.mapError {x : Action ε Buffer α} (h : Strides x b) (f : ε → ε') :
    Strides (Action.mapError f x) b := h

theorem Strides.bind {x : Action ε Buffer α} {f : α → Action ε Buffer β} (h : Strides x b)
    (hf : ∀ v c, Strides (f v) c) : Strides (x >>= f) b := by
  obtain ⟨n, hstrode⟩ := h
  rcases ho : x b with ⟨e | v, c, log⟩
  · rw [ho] at hstrode
    rw [Strides, Action.bind_of_error ho]
    exact ⟨n, hstrode⟩
  · rw [ho] at hstrode
    obtain ⟨k, hrest⟩ := hf v c
    rw [Strides, Action.bind_of_ok ho]
    exact ⟨n + k, hstrode.trans hrest⟩

theorem Strides.map {x : Action ε Buffer α} (h : Strides x b) (f : α → β) : Strides (f <$> x) b :=
  h.bind fun _ _ => strides_of_still rfl

theorem ask_strides (g : Buffer → Except ε α) (b : Buffer) : Strides (Action.ask g) b :=
  strides_of_still rfl

theorem consume_strides (n : Nat) (b : Buffer) : Strides (consume n) b := by
  cases hpeek : b.peek n with
  | error f => exact strides_of_still (by rw [consume, Action.ask_bind_of_error hpeek])
  | ok bytes =>
    rw [Strides, consume_of_peek hpeek]
    exact ⟨n, strode_advance (peek_eq_ok hpeek).1⟩

theorem consumeInto_strides (n room : Nat) (b : Buffer) : Strides (consumeInto n room) b := by
  refine (ask_strides _ b).bind fun _ c => ?_
  split
  · exact strides_of_still rfl
  · exact consume_strides n c

theorem skip_strides (n : Nat) (b : Buffer) : Strides (Action.update (skip n)) b := by
  cases hskip : b.skip n with
  | error f => exact strides_of_still (by rw [Action.update_of_error hskip])
  | ok c =>
    obtain ⟨-, hle, rfl⟩ := skip_eq_ok hskip
    rw [Strides, Action.update_of_ok hskip]
    exact ⟨n, strode_advance hle⟩

theorem readLine_strides (b : Buffer) : Strides readLine b := by
  refine (ask_strides _ b).bind fun o c => ?_
  cases o with
  | none => exact strides_of_still rfl
  | some n =>
    exact (consume_strides n c).bind fun _ d => (skip_strides 1 d).bind fun _ _ => strides_of_still rfl

theorem storeRest_strides (w : Stream.Writer σ) (s : σ) (b : Buffer) : Strides (storeRest w s) b := by
  obtain ⟨n, hn, hstate, -⟩ := storeRest_seeks w s b
  refine ⟨n, ?_⟩
  rw [hstate]
  exact strode_advance hn

theorem storeTo_strides (w : Stream.Writer σ) (s : σ) (b : Buffer) : Strides (storeTo w s) b :=
  ((ask_strides _ b).mapError _).bind fun _ c => storeRest_strides w s c

theorem store_strides (script : List Stream.Acceptance) (b : Buffer) : Strides (store script) b :=
  ((storeTo_strides _ _ b).mapError _).map _

theorem storeFile_strides (reachable : Bool) (b : Buffer) : Strides (storeFile reachable) b := by
  cases reachable with
  | false => exact strides_of_still rfl
  | true => exact store_strides [] b

theorem readSome_strides (n : Nat) (b : Buffer) : Strides (readSome n) b :=
  consume_strides (min n b.handle.readable) b

end Reading

end Buffer

namespace Change

open Buffer (InUse Extended Extends Strides)
open SharedBuffer.Action (meets_map meets_mapError)

variable {b : Buffer} {c : Change} {data : Bytes}

def reads : Change → Bool
  | .skip _ | .consume _ | .consumeInto .. | .readScalar _ | .readString .. | .readLine | .store _
  | .storeFile _ | .readSome _ | .readRest => true
  | _ => false

def writes : Change → Bool
  | .append _ | .appendZero _ | .appendAll _ | .writeScalar _ | .writeString .. | .writeLine _ | .load _
  | .loadLength .. | .loadFile _ | .writeSome _ | .writeAll _ | .flush | .reserve _ | .tryReserve _ => true
  | _ => false

/-- What a relative write has to write. A stream brings what it has, and takes what there is room for. -/
def payload (b : Buffer) : Change → Bytes
  | .append data => data
  | .appendZero n => Bytes.zeros n
  | .appendAll chunks => chunks.flatten
  | .writeScalar value => Buffer.bytesOf value
  | .writeString text charset => charset.encode text
  | .writeLine text => Charset.utf8.encode text ++ [10]
  | .load script => (Stream.deliver Stream.Source.reader b.handle.writable (.ofScript script)).bytes
  | .loadLength n script => (Stream.deliver Stream.Source.reader n (.ofScript script)).bytes
  | .loadFile content => content.getD []
  | .writeSome data | .writeAll data => data.take (Buffer.room b.handle)
  | _ => []

/-- What has been written when a write is answered so: all of it, also if the source has broken or the
room has come to an end, and otherwise nothing. -/
def landed (data : Bytes) : Except Failure Answer → Bytes
  | .ok _ | .error (.stream .nothingWritten) => data
  | .error (.loading f _) => if f.kind? = some .io then data else []
  | .error _ => []

theorem extended_of_meets {x : Action Failure Buffer Answer}
    (h : (x b).Meets (fun _ d _ => b.Extended data d) fun f d _ => b.Extended (landed data (.error f)) d) :
    b.Extended (landed data (x b).result) (x b).state := by
  rcases ho : x b with ⟨f | v, d, log⟩
  · rw [ho] at h
    exact h
  · rw [ho] at h
    exact h

theorem extended_of_extends {ε α : Type} {x : Action ε Buffer α} {report : ε → Failure} {f : α → Answer}
    (h : Extends x data b) (hreport : ∀ e, landed data (.error (report e)) = []) :
    b.Extended (landed data ((f <$> Action.mapError report x) b).result)
      ((f <$> Action.mapError report x) b).state := by
  refine extended_of_meets (meets_map (meets_mapError (h.imp_error fun e d _ hd => ?_)))
  rw [hreport]
  exact hd

theorem extended_of_loading {x : Action (Buffer.Broken × Stream.Source) Buffer
      (Buffer.Transferred × Stream.Source)}
    (h : (x b).Meets (fun _ d _ => b.Extended data d) fun e d _ =>
      (e.1.fault.kind? = some .io ∧ b.Extended data d) ∨ e.1.fault.kind? ≠ some .io ∧ b.Extended [] d)
    (f : Buffer.Transferred × Stream.Source → Answer) :
    b.Extended
      (landed data ((f <$> Action.mapError (fun e => Failure.loading e.1.fault e.1.asked) x) b).result)
      ((f <$> Action.mapError (fun e => Failure.loading e.1.fault e.1.asked) x) b).state := by
  refine extended_of_meets (meets_map (meets_mapError (h.imp_error fun e d _ hd => ?_)))
  rcases hd with ⟨hkind, hd⟩ | ⟨hkind, hd⟩
  · rw [landed, if_pos hkind]
    exact hd
  · rw [landed, if_neg hkind]
    exact hd

theorem extended_of_stream {α : Type} {x : Action Buffer.StreamFault Buffer α}
    (h : (x b).Meets (fun _ d _ => b.Extended data d) fun e d _ =>
      (e = .nothingWritten ∧ b.Extended data d) ∨ ∃ f, e = .buffer f ∧ b.Extended [] d)
    (f : α → Answer) :
    b.Extended (landed data ((f <$> Action.mapError Failure.stream x) b).result)
      ((f <$> Action.mapError Failure.stream x) b).state := by
  refine extended_of_meets (meets_map (meets_mapError (h.imp_error fun e d _ hd => ?_)))
  rcases hd with ⟨rfl, hd⟩ | ⟨fault, rfl, hd⟩
  · exact hd
  · exact hd

theorem run_strides (hc : c.reads = true) (b : Buffer) : Strides c.run b := by
  cases c with
  | skip n => exact ((Buffer.skip_strides n b).mapError _).map _
  | consume n => exact ((Buffer.consume_strides n b).mapError _).map _
  | consumeInto n room => exact ((Buffer.consumeInto_strides n room b).mapError _).map _
  | readScalar type => exact (((Buffer.consume_strides _ b).map _).mapError _).map _
  | readString n charset => exact (((Buffer.consume_strides n b).map _).mapError _).map _
  | readLine => exact ((Buffer.readLine_strides b).mapError _).map _
  | store script => exact ((Buffer.store_strides script b).mapError _).map _
  | storeFile reachable => exact ((Buffer.storeFile_strides reachable b).mapError _).map _
  | readSome n => exact ((Buffer.readSome_strides n b).mapError _).map _
  | readRest => exact ((Buffer.readSome_strides b.handle.readable b).mapError _).map _
  | _ => cases hc

theorem run_extends (hb : b.InUse) (hfits : c.Fits) (hc : c.writes = true) :
    b.Extended (landed (c.payload b) (c.run b).result) (c.run b).state := by
  cases c with
  | reserve n => exact extended_of_extends (Buffer.reserve_extends hb n) fun _ => rfl
  | tryReserve n => exact extended_of_extends (Buffer.tryReserve_extends hb n) fun _ => rfl
  | append data => exact extended_of_extends (Buffer.append_extends hb data) fun _ => rfl
  | appendZero n =>
    rw [run, Buffer.appendZero_eq]
    exact extended_of_extends (Buffer.append_extends hb _) fun _ => rfl
  | appendAll chunks => exact extended_of_extends (Buffer.appendAll_extends hb chunks) fun _ => rfl
  | writeScalar value => exact extended_of_extends (Buffer.writeScalar_extends hb value) fun _ => rfl
  | writeString text charset =>
    exact extended_of_extends
      (Buffer.appendEncoded_extends hb (charset.length_encode_le_worst hfits)) fun _ => rfl
  | writeLine text =>
    exact extended_of_extends
      (Buffer.appendEncoded_extends hb (Charset.length_line_le_worst hfits)) fun _ => rfl
  | load script => exact extended_of_loading (Buffer.load_extends hb _ _) _
  | loadLength n script => exact extended_of_loading (Buffer.loadLength_extends hb n _ _) _
  | loadFile content => exact extended_of_extends (Buffer.loadFile_extends hb content) fun _ => rfl
  | writeSome data =>
    have hends := (Buffer.writeSome_extends hb data).and (Buffer.writeSome_meets hb.valid data)
    refine extended_of_stream (hends.mono (fun _ _ _ h => h.1) fun x d _ h => .inr ?_) _
    obtain ⟨hextended, f, hx, -⟩ := h
    exact ⟨f, hx, hextended⟩
  | writeAll data => exact extended_of_stream (Buffer.writeAll_extends hb data) fun _ => .done
  | flush => exact Buffer.extended_self hb
  | _ => cases hc

end Change

end SharedBuffer
