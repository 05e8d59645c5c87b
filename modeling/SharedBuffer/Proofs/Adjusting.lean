import SharedBuffer.Proofs.Enlarging

/-!
How often operations adjust the capacity. Most never do; the others do it once, also those that first
make room and then write piece by piece, since there is room for every piece. Main statement: however a
change ends that has moved the window, it leaves the storage of the group enlarged.
-/

namespace SharedBuffer

theorem Outcome.meets_events_iff {ε σ α : Type} {P : List Event → Prop} {o : Outcome ε σ α} :
    o.Meets (fun _ _ log => P log) (fun _ _ log => P log) ↔ P o.events := by
  rcases o with ⟨e | v, s, log⟩
  · exact .rfl
  · exact .rfl

theorem Action.adjustments_of_quiet {ε σ α β : Type} {x : Action ε σ α} {f : α → Action ε σ β} {s : σ}
    {E : ε → σ → List Event → Prop} (hx : x.Adjusts 1)
    (hf : (x s).Meets (fun v t _ => (f v t).events = []) E) :
    adjustments ((x >>= f) s).events ≤ 1 := by
  have hfirst := hx s
  rcases ho : x s with ⟨e | v, t, log⟩
  · rw [ho] at hfirst
    rw [bind_of_error ho]
    exact hfirst
  · rw [ho] at hfirst hf
    have hquiet : (f v t).events = [] := hf
    rw [adjustments_bind ho, hquiet]
    exact hfirst

namespace Buffer

open SharedBuffer.Action (Adjusts adjusts_pure adjusts_fail adjusts_ask adjusts_update adjusts_modify
  adjusts_emit adjustments_of_quiet meets_ask_bind current_bind)
open SharedBuffer.Outcome (meets_events_iff)

variable {b : Buffer} {n : Nat}

section Once

theorem adjusts_onPool {α : Type} {x : Action Fault Pool α} (hx : x.Adjusts n) : (onPool x).Adjusts n :=
  hx.zoom

theorem adjusts_replaceStorage (s : Storage) (n : Nat) : (replaceStorage s n).Adjusts 0 :=
  (adjusts_onPool (Pool.adjusts_relend s n)).before fun _ => (adjusts_modify _).before fun _ =>
    adjusts_onPool (Pool.adjusts_takeBack s)

theorem adjusts_resize (n : Nat) : (resize n).Adjusts 1 := by
  have hreport : ∀ e : Event, ((Action.modify (setCapacity n) : Action Fault Buffer Unit) >>= fun _ =>
      Action.emit e).Adjusts 1 := fun e => (adjusts_modify _).after fun _ _ => List.countP_le_length
  refine .look fun b => (adjusts_ask _).after fun s => ?_
  dsimp only
  split
  · exact (adjusts_replaceStorage s n).after fun _ => hreport _
  · exact hreport _

theorem adjusts_reserve (n : Nat) : (reserve n).Adjusts 1 := by
  refine (adjusts_ask _).after fun o => ?_
  cases o with
  | none => exact adjusts_pure ()
  | some capacity => exact adjusts_resize capacity

theorem adjusts_tryReserve (n : Nat) : (tryReserve n).Adjusts 1 := by
  refine .look fun b => (adjusts_ask _).after fun _ => ?_
  split
  · exact adjusts_pure _
  · split
    · exact adjusts_pure _
    · split
      · exact adjusts_pure _
      · exact (adjusts_reserve n).before fun _ => adjusts_pure _

theorem adjusts_changeCapacity (n : Nat) : (changeCapacity n).Adjusts 1 := by
  refine .look fun b => (adjusts_ask _).after fun _ => ?_
  split
  · exact adjusts_pure _
  · exact (adjusts_resize n).before fun _ => adjusts_modify _

theorem adjusts_append (data : Bytes) : (append data).Adjusts 1 :=
  (adjusts_reserve _).before fun _ => adjusts_update _

theorem adjusts_writeScalar (v : Scalar) : (writeScalar v).Adjusts 1 :=
  (adjusts_ask _).after fun bytes => adjusts_append bytes

theorem appendAll_once (hb : b.Valid) (chunks : List Bytes) :
    adjustments (appendAll chunks b).events ≤ 1 := by
  refine adjustments_of_quiet (adjusts_reserve _) ((reserve_meets hb chunks.flatten.length).imp ?_)
  intro _ d log hres
  have hopen := (hres.does.follows hb).readOnly.trans hres.writable
  obtain ⟨c, hc, -⟩ := forM_append_of_room chunks (hres.does.valid hb) (hres.does.live rfl hres.live)
    hopen hres.room
  change ((chunks.forM append >>= fun _ => pure chunks.flatten.length) d).events = []
  rw [Action.bind_of_ok hc]
  rfl

theorem appendEncoded_once (hb : b.Valid) {worst : Nat} {bytes : Bytes} (hworst : bytes.length ≤ worst) :
    adjustments (appendEncoded worst bytes b).events ≤ 1 := by
  simp only [appendEncoded]
  rw [current_bind]
  rw [← meets_events_iff (P := fun log => adjustments log ≤ 1)]
  refine meets_ask_bind (fun _ _ => ?_) fun _ _ => Nat.zero_le 1
  rw [meets_events_iff (P := fun log => adjustments log ≤ 1)]
  split
  · refine adjustments_of_quiet (adjusts_reserve worst) ((reserve_meets hb worst).imp ?_)
    intro _ d log hres
    obtain ⟨s, -, hput, -⟩ := hres.ready hb hworst
    change ((append bytes >>= fun _ => pure bytes.length) d).events = []
    rw [Action.bind_of_ok hput]
    rfl
  · exact (adjusts_append bytes).before (fun _ => adjusts_pure _) b

theorem load_once {σ : Type} (hb : b.Valid) (r : Stream.Reader σ) (s : σ) :
    adjustments (load r s b).events ≤ 1 := by
  simp only [load]
  rw [current_bind, ← meets_events_iff (P := fun log => adjustments log ≤ 1)]
  refine Action.meets_bind (Action.meets_mapError (Action.meets_ask ?_ fun _ _ => Nat.zero_le 1))
  intro _ hmut
  obtain ⟨live, hopen⟩ := (checkMutable_eq_ok_iff b).1 hmut
  obtain ⟨c, -, hload⟩ :=
    loadUpTo_of_room hb live hopen (reserved_writable hb live hopen).room r s
  rw [meets_events_iff (P := fun more => adjustments ([] ++ more) ≤ 1), hload]
  exact Nat.zero_le 1

theorem loadLength_once {σ : Type} (hb : b.Valid) (n : Nat) (r : Stream.Reader σ) (s : σ) :
    adjustments (loadLength n r s b).events ≤ 1 := by
  refine adjustments_of_quiet (E := fun _ _ _ => True) ((adjusts_reserve n).mapError _)
    (Action.meets_mapError ((reserve_meets hb n).mono ?_ fun _ _ _ _ => trivial))
  intro _ d log hres
  have hopen := (hres.does.follows hb).readOnly.trans hres.writable
  obtain ⟨c, -, hload⟩ := loadUpTo_of_room (hres.does.valid hb) (hres.does.live rfl hres.live) hopen
    hres.room r s
  rw [hload]

theorem loadFile_once (hb : b.Valid) (content : Option Bytes) :
    adjustments (loadFile content b).events ≤ 1 := by
  cases content with
  | none => exact Nat.zero_le 1
  | some bytes =>
    simp only [loadFile]
    rw [Action.events_map]
    exact loadLength_once hb _ _ _

theorem adjusts_writeSome (data : Bytes) : (writeSome data).Adjusts 1 := by
  refine .look fun b => ?_
  dsimp only
  split
  · exact adjusts_pure _
  · exact ((adjusts_append _).mapError _).before fun _ => adjusts_pure _

theorem writeAll_once (hb : b.Valid) (data : Bytes) : adjustments (writeAll data b).events ≤ 1 := by
  by_cases hdata : data = []
  · rw [hdata, writeAll_nil]
    exact Nat.zero_le 1
  rw [writeAll_eq hdata]
  refine adjustments_of_quiet (adjusts_writeSome data) ((writeSome_meets hb data).imp ?_)
  intro n c log hfirst
  -- What the first step leaves over finds no room, and the second step adjusts nothing.
  obtain ⟨hn, ⟨hzero, -, -⟩ | ⟨hsome, happ⟩⟩ := hfirst
  · rw [if_pos hzero]
    rfl
  rw [if_neg hsome, writeAll_rest hb hn happ]

end Once

section Calm

theorem adjusts_consume (n : Nat) : (consume n).Adjusts 0 :=
  (adjusts_ask _).after fun _ => (adjusts_modify _).after fun _ => adjusts_pure _

theorem adjusts_consumeInto (n room : Nat) : (consumeInto n room).Adjusts 0 := by
  refine (adjusts_ask _).after fun _ => ?_
  split
  · exact adjusts_fail _
  · exact adjusts_consume n

theorem adjusts_readLine : readLine.Adjusts 0 := by
  refine (adjusts_ask _).after fun o => ?_
  cases o with
  | none => exact adjusts_pure _
  | some n => exact (adjusts_consume n).after fun _ => (adjusts_update _).after fun _ => adjusts_pure _

theorem adjusts_giveBack {note : Storage → Event} (h : ∀ s, (note s).adjusts = false) :
    (giveBack note).Adjusts 0 := by
  refine .look fun b => ?_
  split
  · exact adjusts_pure ()
  · next s hs =>
    exact (adjusts_modify _).after fun _ => (adjusts_emit (h s)).after fun _ =>
      adjusts_onPool (Pool.adjusts_takeBack s)

theorem adjusts_release (n : Nat) : (release n).Adjusts 0 := by
  refine .look fun b => ?_
  dsimp only
  split
  · exact adjusts_fail _
  · split
    · exact (adjusts_emit rfl).after fun _ => adjusts_fail _
    · refine (adjusts_modify _).after fun _ => ?_
      split
      · exact (adjusts_giveBack fun _ => rfl).after fun _ => adjusts_pure _
      · exact adjusts_pure _

theorem adjusts_storeTo {σ : Type} (w : Stream.Writer σ) (s : σ) : (storeTo w s).Adjusts 0 := by
  refine ((adjusts_ask _).mapError _).after fun _ b => ?_
  obtain ⟨-, -, -, hevents⟩ := storeRest_seeks w s b
  rw [hevents]
  exact Nat.le_refl 0

theorem adjusts_store (script : List Stream.Acceptance) : (store script).Adjusts 0 :=
  ((adjusts_storeTo _ _).mapError _).map _

theorem adjusts_storeFile (reachable : Bool) : (storeFile reachable).Adjusts 0 := by
  cases reachable with
  | false => exact adjusts_fail _
  | true => exact adjusts_store []

theorem adjusts_readSome (n : Nat) : (readSome n).Adjusts 0 :=
  .look fun _ => (adjusts_consume _).mapError _

theorem adjusts_readRest : readRest.Adjusts 0 := .look fun _ => adjusts_readSome _

end Calm

section Stopped

variable {c : Buffer} {e : Effect} {f : Fault} {log : List Event} {data : Bytes}

/-- What failed has left the window as it was, or was stopped while it did what `e` says, as far as
that lies where the window may reach. -/
def Stops (b : Buffer) (e : Effect) (c : Buffer) (log : List Event) : Prop :=
  c.handle.capacity = b.handle.capacity ∨
    ∃ written, b.Does { written } c log ∧
      ∀ p < b.handle.offset + b.handle.maxCapacity, written p = e.written p

theorem Refuses.stops (h : b.Refuses f c log) : b.Stops e c log :=
  .inl (by rw [h.unmoved.same])

theorem Breaks.stops {cause : Fault → Prop} {start : Nat}
    (h : b.Breaks (.write start data) cause f c log) : b.Stops (.write start data) c log := by
  rcases h with h | ⟨-, hdoes⟩
  · exact h.stops
  · exact .inr ⟨_, hdoes, fun _ _ => rfl⟩

theorem writeAll_stops (hb : b.Valid) (data : Bytes) :
    (writeAll data b).Meets (fun _ _ _ => True) fun _ => b.Stops (.write b.front data) := by
  by_cases hdata : data = []
  · rw [hdata, writeAll_nil]
    exact trivial
  rw [writeAll_eq hdata]
  refine Action.meets_bind ((writeSome_meets hb data).mono ?_ ?_)
  · intro n c log hfirst
    obtain ⟨hn, ⟨hzero, rfl, -⟩ | ⟨hsome, happ⟩⟩ := hfirst
    · rw [if_pos hzero]
      exact .inl rfl
    rw [if_neg hsome, writeAll_rest hb hn happ]
    by_cases hfits : data.length ≤ room b.handle
    · rw [if_pos hfits]
      exact trivial
    have hfull : n = room b.handle := by omega
    rw [if_neg hfits]
    change b.Stops _ c (log ++ [])
    rw [List.append_nil]
    cases hexpand : b.handle.autoExpand with
    | false =>
      have hroom : room b.handle = b.handle.writable := by rw [room, hexpand, if_neg Bool.false_ne_true]
      exact .inl (happ.same (by rw [List.length_take]; omega))
    | true =>
      have hroom : room b.handle = b.handle.maxCapacity - b.handle.cursor.writer := by
        rw [room, hexpand, if_pos rfl]
        rfl
      refine .inr ⟨_, happ.does, fun p hp => ?_⟩
      exact Bytes.laid_take (by rw [front]; omega)
  · rintro x c log ⟨f, -, hrefused⟩
    exact hrefused.stops

end Stopped

end Buffer

namespace Change

open SharedBuffer.Action (Adjusts adjusts_pure adjusts_update adjusts_modify)
open Buffer

def grows : Change → Bool
  | .reserve _ | .tryReserve _ | .changeCapacity _ | .append _ | .appendZero _ | .appendAll _
  | .writeScalar _ | .writeString .. | .writeLine _ | .load _ | .loadLength .. | .loadFile _
  | .writeSome _ | .writeAll _ => true
  | _ => false

variable {b : Buffer} {c : Change}

theorem lift_adjusts {α : Type} {n : Nat} {x : Action Fault Buffer α} (h : x.Adjusts n) :
    (Arena.lift x).Adjusts n := h.mapError _

theorem adjusts_of_calm (h : c.grows = false) : c.run.Adjusts 0 := by
  have update (f : Buffer → Except Fault Buffer) : (Change.update f).Adjusts 0 :=
    (lift_adjusts (adjusts_update f)).after fun _ => adjusts_pure _
  have move (f : Cursor → Cursor) : (Change.move f).Adjusts 0 :=
    (adjusts_modify _).after fun _ => adjusts_pure _
  cases c with
  | setAutoExpand value => exact (adjusts_modify _).after fun _ => adjusts_pure _
  | clear => exact move _
  | markReader => exact move _
  | markWriter => exact move _
  | consume n => exact (lift_adjusts (adjusts_consume n)).map _
  | consumeInto n room => exact (lift_adjusts (adjusts_consumeInto n room)).map _
  | overwriteArray data =>
    exact .look fun b => (lift_adjusts (adjusts_update _)).after fun _ => adjusts_pure _
  | overwriteWritable data =>
    exact .look fun b => (lift_adjusts (adjusts_update _)).after fun _ => adjusts_pure _
  | release n => exact (lift_adjusts (adjusts_release n)).map _
  | readScalar type =>
    exact (lift_adjusts ((adjusts_consume _).after fun _ => adjusts_pure _)).map _
  | setString index text charset =>
    exact (lift_adjusts (adjusts_update _)).after fun _ => adjusts_pure _
  | readString n charset =>
    exact (lift_adjusts ((adjusts_consume _).after fun _ => adjusts_pure _)).map _
  | readLine => exact (lift_adjusts adjusts_readLine).map _
  | store script => exact ((adjusts_store script).mapError _).map _
  | storeFile reachable => exact ((adjusts_storeFile reachable).mapError _).map _
  | readSome n => exact ((adjusts_readSome n).mapError _).map _
  | readRest => exact (adjusts_readRest.mapError _).map _
  | flush => exact adjusts_pure _
  | resetReader | resetWriter | setReader index | setWriter index | setIndexes reader writer | skip n
  | compact | compactLazily | setBytes index data | setZero index length | retain n
  | setScalar index value => exact update _
  | _ => cases h

theorem adjusts_once (hb : b.Valid) (hfits : c.Fits) : adjustments (c.run b).events ≤ 1 := by
  have answered {α β : Type} {x : Action Failure Buffer α} (h : adjustments (x b).events ≤ 1)
      (f : α → β) : adjustments ((f <$> x) b).events ≤ 1 := by
    rw [Action.events_map]
    exact h
  have done {x : Action Fault Buffer Unit} (h : x.Adjusts 1) :
      (Arena.lift x >>= fun _ => pure Answer.done).Adjusts 1 :=
    (lift_adjusts h).before fun _ => adjusts_pure _
  cases c with
  | reserve n => exact done (adjusts_reserve n) b
  | tryReserve n => exact (lift_adjusts (adjusts_tryReserve n)).map _ b
  | changeCapacity n => exact done (adjusts_changeCapacity n) b
  | append data => exact done (adjusts_append data) b
  | appendZero n =>
    rw [run, appendZero_eq]
    exact done (adjusts_append _) b
  | appendAll chunks => exact answered (appendAll_once hb chunks) _
  | writeScalar value => exact done (adjusts_writeScalar value) b
  | writeString text charset =>
    exact answered (appendEncoded_once hb (charset.length_encode_le_worst hfits)) _
  | writeLine text => exact answered (appendEncoded_once hb (Charset.length_line_le_worst hfits)) _
  | load script => exact answered (load_once hb _ _) _
  | loadLength n script => exact answered (loadLength_once hb n _ _) _
  | loadFile content => exact answered (loadFile_once hb content) _
  | writeSome data => exact ((adjusts_writeSome data).mapError _).map _ b
  | writeAll data => exact answered (writeAll_once hb data) _
  | _ => exact Nat.le_trans (adjusts_of_calm rfl b) (Nat.zero_le 1)

theorem stops (hb : b.Valid) (hfits : c.Fits) (hgrows : c.grows = true) :
    (c.run b).Meets (fun _ _ _ => True) fun _ => b.Stops (c.effect b) := by
  have lifted {α : Type} {x : Action Fault Buffer α} {e : Effect} (h : Performs x e b) :
      ((Arena.lift x) b).Meets (fun _ _ _ => True) fun _ => b.Stops (c.effect b) :=
    Action.meets_mapError (h.mono (fun _ _ _ _ => trivial) fun _ _ _ hr => hr.stops)
  cases c with
  | reserve n => exact Action.meets_then_pure (lifted (reserve_performs hb n))
  | tryReserve n => exact Action.meets_map (lifted (tryReserve_performs hb n))
  | changeCapacity n => exact Action.meets_then_pure (lifted (changeCapacity_performs hb n))
  | append data => exact Action.meets_then_pure (lifted (append_performs hb data))
  | appendZero n =>
    rw [run, appendZero_eq]
    exact Action.meets_then_pure (lifted (append_performs hb _))
  | appendAll chunks => exact Action.meets_map (lifted (appendAll_performs hb chunks))
  | writeScalar value => exact Action.meets_then_pure (lifted (writeScalar_performs hb value))
  | writeString text charset => exact Action.meets_map (lifted (writeString_performs hb charset hfits))
  | writeLine text => exact Action.meets_map (lifted (writeLine_performs hb hfits))
  | load script =>
    exact Action.meets_map (Action.meets_mapError ((load_meets hb _ _).mono (fun _ _ _ _ => trivial)
      fun _ _ _ h => h.stops))
  | loadLength n script =>
    exact Action.meets_map (Action.meets_mapError ((loadLength_meets hb n _ _).mono
      (fun _ _ _ _ => trivial) fun _ _ _ h => h.stops))
  | loadFile content =>
    exact Action.meets_map (Action.meets_mapError ((loadFile_meets hb content).mono
      (fun _ _ _ _ => trivial) fun _ _ _ h => h.stops))
  | writeSome data =>
    refine Action.meets_map (Action.meets_mapError ((writeSome_does hb data).mono
      (fun _ _ _ _ => trivial) ?_))
    rintro x d log ⟨f, -, hrefused⟩
    exact hrefused.stops
  | writeAll data => exact Action.meets_then_pure (Action.meets_mapError (writeAll_stops hb data))
  | _ => cases hgrows

theorem lost_of_grows (h : c.grows = true) (b : Buffer) : (c.effect b).lost = 0 := by
  rw [(c.counts_effect b).2]
  cases c with
  | release n => cases h
  | _ => rfl

/-- However a change ends that alters the capacity, the storage of the group carries the bytes that
it held before, and over them what the change writes. -/
theorem enlarged (hb : b.Valid) (hfits : c.Fits) (live : 0 < b.group.count)
    (hmore : (c.run b).state.handle.capacity ≠ b.handle.capacity) :
    b.Enlarged (c.effect b).written (c.run b).state := by
  have hrun := run_meets hb c hfits
  have honce := adjusts_once hb hfits
  cases hgrows : c.grows with
  | false =>
    have hcalm := Nat.le_zero.1 (adjusts_of_calm hgrows b)
    refine absurd ?_ hmore
    rcases ho : c.run b with ⟨f | v, d, log⟩
    · rw [ho] at hrun hcalm
      obtain ⟨written, hdoes⟩ := hrun.does
      exact hdoes.capacity_of_calm hcalm
    · rw [ho] at hrun hcalm
      exact hrun.capacity_of_calm hcalm
  | true =>
    have hstops := stops hb hfits hgrows
    rcases ho : c.run b with ⟨f | v, d, log⟩
    · rw [ho] at hstops honce hmore
      rcases hstops with hsame | ⟨written, hdoes, hwritten⟩
      · exact absurd hsame hmore
      · obtain ⟨s, t, hs, ht, hcarries, hle⟩ := hdoes.carries hb live rfl honce hmore
        refine ⟨s, t, hs, ht, hcarries.congr fun p hp => hwritten p ?_⟩
        rw [← hcarries.capacity] at hp
        omega
    · rw [ho] at hrun honce hmore
      obtain ⟨s, t, hs, ht, hcarries, -⟩ :=
        Buffer.Does.carries hrun hb live (lost_of_grows hgrows b) honce hmore
      exact ⟨s, t, hs, ht, hcarries⟩

end Change

end SharedBuffer
