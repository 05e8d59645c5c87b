import SharedBuffer.Proofs.Discretion
import SharedBuffer.Proofs.Preservation

/-!
What operations report, whatever becomes of them. Only a release reports that a count runs out or
reaches zero, and an adjustment of the capacity is reported only where the window of a buffer moves, and
moves to another capacity. Main statement: so it is with every command.
-/

namespace SharedBuffer

namespace Event

/-- What may be reported where neither a count nor a window changes: handles that are gone, and
storages that go in and out of a free list. -/
def Plain : Event → Prop
  | .releaseUnderflow .. | .deallocated .. | .capacityAdjusted .. => False
  | _ => True

def Usual : Event → Prop
  | .releaseUnderflow .. | .deallocated .. | .abandoned .. => False
  | .capacityAdjusted old new .. => old ≠ new
  | _ => True

def OfRelease : Event → Prop
  | .releaseUnderflow .. | .deallocated .. => True
  | _ => False

def reuses : Event → Bool
  | .storageReused .. => true
  | _ => false

def parks : Event → Bool
  | .storageParked .. => true
  | _ => false

variable {e : Event}

theorem usual_of_reuses (h : e.reuses = true) : e.Usual := by
  cases e with
  | storageReused kind capacity => exact trivial
  | _ => cases h

theorem usual_of_parks (h : e.parks = true) : e.Usual := by
  cases e with
  | storageParked kind capacity => exact trivial
  | _ => cases h

theorem plain_of_reuses (h : e.reuses = true) : e.Plain := by
  cases e with
  | storageReused kind capacity => exact trivial
  | _ => cases h

theorem plain_of_parks (h : e.parks = true) : e.Plain := by
  cases e with
  | storageParked kind capacity => exact trivial
  | _ => cases h

theorem Plain.not_ofRelease (h : e.Plain) : ¬e.OfRelease := by
  cases e with
  | releaseUnderflow count decrement => cases h
  | deallocated kind capacity => cases h
  | _ => exact id

theorem Usual.not_ofRelease (h : e.Usual) : ¬e.OfRelease := by
  cases e with
  | releaseUnderflow count decrement => cases h
  | deallocated kind capacity => cases h
  | _ => exact id

end Event

namespace Action

variable {ε ε' σ τ α β : Type} {P Q : Event → Prop} {s : σ}

def Reports (P : Event → Prop) (x : Action ε σ α) : Prop := ∀ s, ∀ e ∈ (x s).events, P e

theorem Reports.mono {x : Action ε σ α} (h : x.Reports P) (hPQ : ∀ e, P e → Q e) : x.Reports Q :=
  fun s e he => hPQ e (h s e he)

theorem forall_events_bind {x : Action ε σ α} {f : α → Action ε σ β} (hx : ∀ e ∈ (x s).events, P e)
    (hf : ∀ v, (f v).Reports P) : ∀ e ∈ ((x >>= f) s).events, P e := by
  rcases ho : x s with ⟨e | v, t, log⟩
  · rw [ho] at hx
    rw [bind_of_error ho]
    exact hx
  · rw [ho] at hx
    rw [bind_of_ok ho]
    intro e he
    rcases List.mem_append.1 he with he | he
    · exact hx e he
    · exact hf v t e he

theorem Reports.bind {x : Action ε σ α} {f : α → Action ε σ β} (hx : x.Reports P)
    (hf : ∀ v, (f v).Reports P) : (x >>= f).Reports P := fun s => forall_events_bind (hx s) hf

theorem Reports.orUndo {x : Action ε σ α} {undo : Action ε σ Unit} (hx : x.Reports P)
    (hundo : undo.Reports P) : (x.orUndo undo).Reports P := by
  intro s
  have hlog := hx s
  rcases ho : x s with ⟨e | v, t, log⟩
  · rw [ho] at hlog
    rw [orUndo_of_error ho]
    intro e he
    exact (List.mem_append.1 he).elim (hlog e) (hundo t e)
  · rw [ho] at hlog
    rw [orUndo_of_ok ho]
    exact hlog

theorem reports_of_quiet {x : Action ε σ α} (h : ∀ s, (x s).events = []) : x.Reports P := by
  intro s e he
  rw [h s] at he
  cases he

theorem Reports.events_eq_nil {x : Action ε σ α} (h : x.Reports fun _ => False) (s : σ) :
    (x s).events = [] := List.eq_nil_iff_forall_not_mem.2 (h s)

theorem reports_pure (v : α) : (pure v : Action ε σ α).Reports P := reports_of_quiet fun _ => rfl

theorem reports_fail (e : ε) : (fail e : Action ε σ α).Reports P := reports_of_quiet fun _ => rfl

theorem reports_ask (g : σ → Except ε α) : (ask g).Reports P := reports_of_quiet fun _ => rfl

theorem reports_modify (g : σ → σ) : (modify g : Action ε σ Unit).Reports P :=
  reports_of_quiet fun _ => rfl

theorem reports_update (g : σ → Except ε σ) : (update g).Reports P := by
  refine reports_of_quiet fun s => ?_
  cases hg : g s with
  | error e => rw [update_of_error hg]
  | ok t => rw [update_of_ok hg]

theorem reports_emit {e : Event} (h : P e) : (emit e : Action ε σ Unit).Reports P :=
  fun _ _ he => List.mem_singleton.1 he ▸ h

theorem Reports.look {f : σ → Action ε σ β} (hf : ∀ s, (f s).Reports P) :
    (current >>= f).Reports P := by
  intro s
  rw [current_bind]
  exact hf s s

theorem Reports.map {x : Action ε σ α} (hx : x.Reports P) (f : α → β) : (f <$> x).Reports P :=
  hx.bind fun v => reports_pure (f v)

theorem Reports.mapError {x : Action ε σ α} (hx : x.Reports P) (r : ε → ε') :
    (Action.mapError r x).Reports P := hx

theorem Reports.zoom {part : σ → τ} {put : τ → σ → σ} {x : Action ε τ α} (hx : x.Reports P) :
    (Action.zoom part put x).Reports P := fun s => hx (part s)

end Action

open SharedBuffer.Action (Reports reports_pure reports_fail reports_ask reports_modify reports_update
  reports_emit reports_of_quiet forall_events_bind current_bind)

namespace Pool

theorem lend_reports (kind : StorageKind) (n m : Nat) : (lend kind n m).Reports (·.reuses = true) := by
  intro p e he
  rcases lend_cases kind n m p with hl | ⟨l, t, rest, -, -, hl⟩
  · rw [hl] at he
    rcases lendFresh_cases kind n m p with ⟨t, -, hf⟩ | ⟨f, -, hf⟩
    · rw [hf] at he
      cases he
    · rw [hf] at he
      cases he
  · rw [hl] at he
    rw [List.mem_singleton.1 he]
    rfl

theorem relend_reports (s : Storage) (n : Nat) : (relend s n).Reports (·.reuses = true) := by
  intro p e he
  rcases relend_cases s n p with hr | ⟨-, hr⟩
  · rw [hr] at he
    cases he
  · rw [hr] at he
    exact lend_reports _ _ _ p e he

theorem takeBack_reports (s : Storage) : (takeBack s).Reports (·.parks = true) := by
  intro p e he
  simp only [takeBack] at he
  split at he
  · cases he
  · split at he
    · cases he
    · rw [List.mem_singleton.1 he]
      rfl

theorem events_shrink (p : Pool) : (shrink p).events = [] := by
  simp only [shrink]
  split <;> rfl

end Pool

namespace Buffer

variable {P : Event → Prop} {b : Buffer}

section Room

theorem replaceStorage_reports (s : Storage) (n : Nat) : (replaceStorage s n).Reports Event.Usual :=
  ((Pool.relend_reports s n).mono fun _ => Event.usual_of_reuses).zoom.bind fun _ =>
    (reports_modify _).bind fun _ =>
      ((Pool.takeBack_reports s).mono fun _ => Event.usual_of_parks).zoom

theorem resize_reports {n : Nat} (h : b.handle.capacity ≠ n) : ∀ e ∈ (resize n b).events, e.Usual := by
  have hend : ∀ replaced, ((Action.modify (setCapacity n) : Action Fault Buffer Unit) >>= fun _ =>
      Action.emit (.capacityAdjusted b.handle.capacity n b.handle.maxCapacity b.shared
        replaced)).Reports Event.Usual :=
    fun _ => (reports_modify _).bind fun _ => reports_emit h
  simp only [resize]
  rw [current_bind]
  refine (reports_ask _).bind (fun s => ?_) b
  split
  · exact (replaceStorage_reports s n).bind fun _ => hend _
  · exact hend _

theorem lt_of_growthFor {n m : Nat} (h : growthFor n b = .ok (some m)) : b.handle.capacity < m := by
  obtain ⟨-, ⟨-, hnone⟩ | ⟨hmore, -, hword, k, hk, hnext⟩⟩ := growthFor_eq_ok h
  · cases hnone
  · cases hk
    have hle := Capacity.le_of_next hword hnext
    simp only [Handle.writable] at hmore
    omega

theorem reserve_reports (n : Nat) : (reserve n).Reports Event.Usual := by
  intro b
  rw [reserve]
  cases hgrow : growthFor n b with
  | error f =>
    rw [Action.ask_bind_of_error hgrow]
    exact fun e he => by cases he
  | ok o =>
    rw [Action.ask_bind_of_ok hgrow]
    cases o with
    | none => exact fun e he => by cases he
    | some m => exact resize_reports (Nat.ne_of_lt (lt_of_growthFor hgrow))

theorem tryReserve_reports (n : Nat) : (tryReserve n).Reports Event.Usual := by
  refine .look fun b => (reports_ask _).bind fun _ => ?_
  split
  · exact reports_pure _
  · split
    · exact reports_pure _
    · split
      · exact reports_pure _
      · exact (reserve_reports n).bind fun _ => reports_pure _

theorem changeCapacity_reports (n : Nat) : (changeCapacity n).Reports Event.Usual := by
  intro b
  simp only [changeCapacity]
  rw [current_bind]
  cases hcheck : checkCapacity n b with
  | error f =>
    rw [Action.ask_bind_of_error hcheck]
    exact fun e he => by cases he
  | ok u =>
    rw [Action.ask_bind_of_ok hcheck]
    split
    · exact fun e he => by cases he
    · next hne => exact forall_events_bind (resize_reports (Ne.symm hne)) fun _ => reports_modify _

end Room

section Bytes

theorem append_reports (data : Bytes) : (append data).Reports Event.Usual :=
  (reserve_reports _).bind fun _ => reports_update _

theorem appendAll_reports (chunks : List Bytes) : (appendAll chunks).Reports Event.Usual := by
  have hall : ∀ chunks : List Bytes, (chunks.forM append).Reports Event.Usual := by
    intro chunks
    induction chunks with
    | nil => exact reports_pure _
    | cons data rest ih => exact (append_reports data).bind fun _ => ih
  exact (reserve_reports _).bind fun _ => (hall chunks).bind fun _ => reports_pure _

theorem appendEncoded_reports (worst : Nat) (bytes : Bytes) :
    (appendEncoded worst bytes).Reports Event.Usual := by
  have hput : (append bytes >>= fun _ => pure bytes.length).Reports Event.Usual :=
    (append_reports bytes).bind fun _ => reports_pure _
  refine .look fun b => (reports_ask _).bind fun _ => ?_
  split
  · exact (reserve_reports worst).bind fun _ => hput
  · exact hput

theorem consume_reports (n : Nat) : (consume n).Reports P :=
  (reports_ask _).bind fun _ => (reports_modify _).bind fun _ => reports_pure _

theorem consumeInto_reports (n room : Nat) : (consumeInto n room).Reports P := by
  refine (reports_ask _).bind fun _ => ?_
  split
  · exact reports_fail _
  · exact consume_reports n

theorem readLine_reports : readLine.Reports P := by
  refine (reports_ask _).bind fun o => ?_
  cases o with
  | none => exact reports_pure _
  | some n => exact (consume_reports n).bind fun _ => (reports_update _).bind fun _ => reports_pure _

end Bytes

section Streams

variable {σ : Type}

theorem behind_reports {x : Action (Broken × σ) Buffer (Transferred × σ)} (h : x.Reports P)
    (asked : Nat) (piece : Bytes) : (behind asked piece x).Reports P :=
  (h.bind fun _ => reports_pure _).mapError _

theorem loadUpTo_reports (r : Stream.Reader σ) (n : Nat) (s : σ) :
    (loadUpTo r n s).Reports Event.Usual := by
  fun_induction loadUpTo r n s with
  | case1 => exact reports_pure _
  | case2 n s hn asked t hr ih => exact behind_reports ih _ _
  | case3 => exact reports_fail _
  | case4 => exact reports_pure _
  | case5 n s hn asked piece t hr hsome ih =>
    exact behind_reports (((append_reports piece).mapError _).bind fun _ => ih) _ _

theorem load_reports (r : Stream.Reader σ) (s : σ) : (load r s).Reports Event.Usual :=
  .look fun _ => ((reports_ask _).mapError _).bind fun _ => loadUpTo_reports r _ s

theorem loadLength_reports (n : Nat) (r : Stream.Reader σ) (s : σ) :
    (loadLength n r s).Reports Event.Usual :=
  ((reserve_reports n).mapError _).bind fun _ => loadUpTo_reports r n s

theorem loadFile_reports (content : Option Bytes) : (loadFile content).Reports Event.Usual := by
  cases content with
  | none => exact reports_fail _
  | some bytes => exact ((loadLength_reports _ _ _).mapError _).map _

theorem storeTo_reports (w : Stream.Writer σ) (s : σ) : (storeTo w s).Reports P := by
  refine ((reports_ask _).mapError _).bind fun _ => reports_of_quiet fun b => ?_
  obtain ⟨-, -, -, hevents⟩ := storeRest_seeks w s b
  exact hevents

theorem store_reports (script : List Stream.Acceptance) : (store script).Reports P :=
  ((storeTo_reports _ _).mapError _).map _

theorem storeFile_reports (reachable : Bool) : (storeFile reachable).Reports P := by
  cases reachable with
  | false => exact reports_fail _
  | true => exact store_reports []

theorem readSome_reports (n : Nat) : (readSome n).Reports P :=
  .look fun _ => (consume_reports _).mapError _

theorem readRest_reports : readRest.Reports P := .look fun _ => readSome_reports _

theorem writeSome_reports (data : Bytes) : (writeSome data).Reports Event.Usual := by
  refine .look fun b => ?_
  dsimp only
  split
  · exact reports_pure _
  · exact ((append_reports _).mapError _).bind fun _ => reports_pure _

theorem writeAll_reports (data : Bytes) : (writeAll data).Reports Event.Usual := by
  induction hlen : data.length using Nat.strongRecOn generalizing data with
  | ind n ih =>
    by_cases hdata : data = []
    · rw [hdata, writeAll_nil]
      exact reports_pure ()
    · rw [writeAll_eq hdata]
      refine (writeSome_reports data).bind fun taken => ?_
      split
      · exact reports_fail _
      · next htaken =>
        have hpos := List.length_pos_iff.2 hdata
        exact ih _ (by rw [List.length_drop]; omega) _ rfl

end Streams

end Buffer

namespace Change

open Buffer

theorem lift_reports {σ α : Type} {P : Event → Prop} {x : Action Fault σ α} (h : x.Reports P) :
    (Arena.lift x).Reports P := h.mapError _

variable {c : Change}

theorem run_reports (hc : ∀ n, c ≠ .release n) : c.run.Reports Event.Usual := by
  have done {x : Action Failure Buffer Unit} (hx : x.Reports Event.Usual) :
      (x >>= fun _ => pure Answer.done).Reports Event.Usual := hx.bind fun _ => reports_pure _
  have update (f : Buffer → Except Fault Buffer) : (Change.update f).Reports Event.Usual :=
    done (lift_reports (reports_update f))
  have move (f : Cursor → Cursor) : (Change.move f).Reports Event.Usual := done (reports_modify _)
  cases c with
  | setAutoExpand value => exact done (reports_modify _)
  | clear => exact move _
  | markReader => exact move _
  | markWriter => exact move _
  | reserve n => exact done (lift_reports (reserve_reports n))
  | tryReserve n => exact (lift_reports (tryReserve_reports n)).map _
  | changeCapacity n => exact done (lift_reports (changeCapacity_reports n))
  | consume n => exact (lift_reports (consume_reports n)).map _
  | consumeInto n room => exact (lift_reports (consumeInto_reports n room)).map _
  | append data => exact done (lift_reports (append_reports data))
  | appendZero n =>
    rw [run, appendZero_eq]
    exact done (lift_reports (append_reports _))
  | appendAll chunks => exact (lift_reports (appendAll_reports chunks)).map _
  | overwriteArray data =>
    exact .look fun b => (lift_reports (reports_update _)).bind fun _ => reports_pure _
  | overwriteWritable data =>
    exact .look fun b => (lift_reports (reports_update _)).bind fun _ => reports_pure _
  | release n => exact absurd rfl (hc n)
  | readScalar type =>
    exact (lift_reports ((consume_reports _).bind fun _ => reports_pure _)).map _
  | writeScalar value =>
    exact done (lift_reports ((reports_ask _).bind fun _ => append_reports _))
  | setString index text charset =>
    exact (lift_reports (reports_update _)).bind fun _ => reports_pure _
  | readString n charset =>
    exact (lift_reports ((consume_reports _).bind fun _ => reports_pure _)).map _
  | writeString text charset => exact (lift_reports (appendEncoded_reports _ _)).map _
  | writeLine text => exact (lift_reports (appendEncoded_reports _ _)).map _
  | readLine => exact (lift_reports readLine_reports).map _
  | load script => exact ((load_reports _ _).mapError _).map _
  | loadLength n script => exact ((loadLength_reports n _ _).mapError _).map _
  | loadFile content => exact ((loadFile_reports content).mapError _).map _
  | store script => exact ((store_reports script).mapError _).map _
  | storeFile reachable => exact ((storeFile_reports reachable).mapError _).map _
  | readSome n => exact ((readSome_reports n).mapError _).map _
  | readRest => exact (readRest_reports.mapError _).map _
  | writeSome data => exact ((writeSome_reports data).mapError _).map _
  | writeAll data => exact done ((writeAll_reports data).mapError _)
  | flush => exact reports_pure _
  | resetReader | resetWriter | setReader index | setWriter index | setIndexes reader writer | skip n
  | compact | compactLazily | setBytes index data | setZero index length | retain n
  | setScalar index value => exact update _

end Change

namespace Derivation

variable {d : Derivation}

theorem view_reports {P : Event → Prop} (hd : d.copies = false) : d.run.Reports P := by
  have retained (i n : Nat) : (Buffer.retainedSlice i n).Reports P :=
    (reports_ask _).bind fun _ => (reports_ask _).bind fun _ => (reports_update _).bind fun _ =>
      reports_ask _
  cases d with
  | copy extent => cases hd
  | takeCopy n => cases hd
  | slice extent => exact .look fun _ => (reports_ask _).bind fun _ => reports_pure _
  | retainedSlice extent => exact .look fun _ => (retained _ _).bind fun _ => reports_pure _
  | retainedDuplicate =>
    exact ((reports_update _).bind fun _ => reports_ask _).bind fun _ => reports_pure _
  | takeSlice n =>
    exact ((reports_ask _).bind fun _ => (reports_modify _).bind fun _ => reports_pure _).bind
      fun _ => reports_pure _
  | takeRetainedSlice n =>
    exact (Reports.look fun _ => (reports_ask _).bind fun _ => (reports_ask _).bind fun _ =>
      (retained _ _).bind fun _ => (reports_modify _).bind fun _ => reports_pure _).bind
      fun _ => reports_pure _
  | duplicate | readOnlyView | whole => exact (reports_ask _).bind fun _ => reports_pure _

theorem copy_reports (i n : Nat) : (Buffer.copy i n).Reports Event.Plain :=
  .look fun _ => (reports_ask _).bind fun _ => (reports_ask _).bind fun _ =>
    ((Pool.lend_reports _ _ _).mono fun _ => Event.plain_of_reuses).zoom.bind fun s =>
      ((reports_ask _).orUndo ((Pool.takeBack_reports s).mono fun _ => Event.plain_of_parks).zoom).bind
        fun _ => reports_pure _

theorem run_reports (d : Derivation) : d.run.Reports Event.Plain := by
  cases d with
  | copy extent => exact .look fun _ => (copy_reports _ _).bind fun _ => reports_pure _
  | takeCopy n =>
    exact (Reports.look fun _ => (reports_ask _).bind fun _ => (reports_ask _).bind fun _ =>
      (copy_reports _ _).bind fun _ => (reports_modify _).bind fun _ => reports_pure _).bind
      fun _ => reports_pure _
  | _ => exact view_reports rfl

/-- A copy that has been lent a storage is made, so that nothing goes back. -/
theorem reuses_of_run {b : Buffer} (hb : b.Valid) (d : Derivation) :
    ∀ e ∈ (d.run b).events, e.reuses = true := by
  cases hd : d.copies with
  | false => exact view_reports hd b
  | true =>
    cases hcopied : d.copied b with
    | none =>
      obtain ⟨f, hf⟩ := run_of_not_copied hd hcopied
      rw [hf]
      exact fun e he => by cases he
    | some n =>
      have hlog := Pool.lend_reports b.group.kind n (max b.handle.maxCapacity n) b.pool
      have hrun := run_of_copied hb hcopied
      unfold Answered at hrun
      dsimp only at hrun
      split at hrun
      · rw [hrun]
        exact hlog
      · obtain ⟨h, t, c, -, -, -, hrun⟩ := hrun
        rw [hrun]
        exact hlog

end Derivation

namespace Arena

variable {α : Type} {P : Event → Prop}

theorem onBuffer_reports {x : Action Failure Buffer α} (hx : x.Reports P) (name : String) :
    (onBuffer name x).Reports P := by
  intro a
  simp only [onBuffer]
  split
  · exact fun e he => by cases he
  · split
    · exact fun e he => by cases he
    · exact hx _

theorem onPoolAt_reports {x : Action Fault Pool α} (hx : x.Reports P) (i : Nat) :
    (onPoolAt i x).Reports P := (hx.mapError _).zoom

theorem require_reports (t : Arena → Table α) (name : String) : (require t name).Reports P :=
  reports_ask _

theorem bury_reports (m : Member) : (bury m).Reports Event.Plain := by
  intro a
  simp only [bury]
  split
  · exact fun e he => by cases he
  · split
    · exact fun e he => by cases he
    · next pool b hb =>
      have hgive : (Buffer.giveBack fun _ => .abandoned b.group.count).Reports Event.Plain := by
        refine .look fun b' => ?_
        split
        · exact reports_pure ()
        · exact (reports_modify _).bind fun _ => (reports_emit trivial).bind fun _ =>
            ((Pool.takeBack_reports _).mono fun _ => Event.plain_of_parks).zoom
      exact hgive b

theorem enrol_reports (name : String) (m : Member) : (enrol name m).Reports Event.Plain := by
  refine .look fun a => (reports_modify _).bind fun _ => ?_
  cases Table.find? name a.buffers with
  | none => exact reports_pure ()
  | some old => exact bury_reports old

theorem allocate_reports (pool : Nat) (kind : StorageKind) (n m : Nat) (expand : Bool) :
    (allocate pool kind n m expand).Reports (·.reuses = true) :=
  (reports_ask _).bind fun _ => (onPoolAt_reports (Pool.lend_reports kind n m) pool).bind fun _ =>
    reports_of_quiet fun _ => rfl

theorem events_allocateCopy {a : Arena} {pool m : Nat} {data : Bytes} (ha : a.Valid)
    (hpool : pool < a.pools.length) (hm : m ≤ Word.largest) (hle : data.length ≤ m) (kind : StorageKind)
    (expand : Bool) :
    (allocateCopy pool kind data m expand a).events = (allocate pool kind data.length m expand a).events := by
  rcases ho : Pool.lend kind data.length m (a.poolAt pool) with ⟨f | s, q, log⟩
  · rw [allocateCopy_of_refused hle ho, allocate_of_refused hle ho]
  · rw [allocateCopy_of_lend ha hpool hm hle ho, allocate_of_lend hle ho]

theorem allocateAlone_reports (n m : Nat) : (allocateAlone n m).Reports (·.reuses = true) :=
  (reports_ask _).bind fun _ => (reports_of_quiet fun _ => rfl).bind fun _ =>
    (allocate_reports _ _ _ _ _).orUndo (reports_modify _)

theorem adopt_reports (data : Bytes) (expand : Bool) : (adopt data expand).Reports P :=
  reports_of_quiet fun _ => rfl

theorem pour_reports (source dest : String) (n : Nat) : (pour source dest n).Reports Event.Usual :=
  (onBuffer_reports (Change.lift_reports (reports_ask _)) source).bind fun bytes =>
    (onBuffer_reports (Change.lift_reports (Buffer.append_reports bytes)) dest).bind fun _ =>
      onBuffer_reports (Change.lift_reports (reports_modify _)) source

theorem copyBetween_reports (source dest : String) (i j n : Nat) :
    (copyBetween source dest i j n).Reports P :=
  (reports_ask _).bind fun _ => onBuffer_reports (Change.lift_reports (reports_update _)) dest

end Arena

theorem Making.reuses_of_run {a : Arena} (ha : a.Valid) {what : Making} (hfits : what.Fits) :
    ∀ e ∈ (what.run a).events, e.reuses = true := by
  cases what with
  | allocate n m => exact Arena.allocateAlone_reports n m a
  | adopt data => exact Arena.adopt_reports data true a
  | request allocator what =>
    simp only [Making.run]
    cases hal : Table.find? allocator a.allocators with
    | none =>
      rw [Action.bind_of_error (Arena.require_of_none hal)]
      exact fun e he => by cases he
    | some al =>
      obtain ⟨hpool, hmax⟩ := ha.allocators _ (Table.mem_of_find? hal)
      rw [Action.bind_of_ok (Arena.require_of_some hal)]
      cases what with
      | adopted data => exact Arena.adopt_reports data _ a
      | copied data =>
        have hdata : data.length ≤ Word.largest := Nat.le_trans hfits (by decide)
        have hevents := Arena.events_allocateCopy ha hpool (Nat.max_le.2 ⟨hmax, hdata⟩)
          (Nat.le_max_right _ _) al.config.storageKind al.config.autoExpand
        rw [Making.fill]
        simp only [List.nil_append, hevents]
        exact Arena.allocate_reports _ _ _ _ _ a
      | _ => exact Arena.allocate_reports _ _ _ _ _ a

theorem Exchange.run_reports {P : Event → Prop} {name other : String} {x : Exchange}
    (hpour : ∀ source dest n, x.receiver name other = some dest → (Arena.pour source dest n).Reports P) :
    (x.run name other).Reports P := by
  have done {y : Action Failure Arena Unit} (hy : y.Reports P) :
      (y >>= fun _ => pure Answer.done).Reports P := hy.bind fun _ => reports_pure _
  refine (reports_ask _).bind fun _ => (reports_ask _).bind fun _ => ?_
  split
  · exact reports_fail _
  · cases x with
    | getBytesTo i j n => exact done (Arena.copyBetween_reports _ _ _ _ _)
    | setBytesFrom i j n => exact done (Arena.copyBetween_reports _ _ _ _ _)
    | readInto n => exact done (hpour _ _ n rfl)
    | writeFrom n => exact done (hpour _ _ n rfl)
    | equals | compare =>
      exact (reports_ask _).bind fun _ => (reports_ask _).bind fun _ =>
        (Change.lift_reports (reports_ask _)).map _

theorem StoreRequest.run_reports {P : Event → Prop} (x : StoreRequest) : x.run.Reports P := by
  have update (f : Storage → Except Fault Storage) : (StoreRequest.update f).Reports P :=
    (reports_update f).bind fun _ => reports_pure _
  cases x with
  | get i => exact (reports_ask _).bind fun _ => reports_pure _
  | readRange i n => exact (reports_ask _).map _
  | inspect => exact (reports_of_quiet fun _ => rfl).map _
  | set i value | writeRange i data | fill i n value | moveRange i n j => exact update _

namespace Command

open Arena

variable {c : Command} {P : Event → Prop}

theorem enrolDerived_reports (name target : String) (made : Handle × Option Storage) :
    (enrolDerived name target made).Reports Event.Plain := by
  obtain ⟨h, extra⟩ := made
  cases extra with
  | none => exact (require_reports _ _).bind fun m => enrol_reports _ _
  | some s =>
    refine Reports.bind ?_ fun m => enrol_reports target m
    refine (require_reports _ _).bind fun m => .look fun a => ?_
    cases a.groups[m.group]? with
    | none => exact reports_fail _
    | some e => exact reports_of_quiet fun _ => rfl

theorem putStore_reports (target : String) (s : Storage) : (putStore target s).Reports P :=
  (reports_modify _).bind fun _ => reports_pure _

theorem putAllocator_reports (target : String) (al : Allocator) : (putAllocator target al).Reports P :=
  (reports_modify _).bind fun _ => reports_pure _

theorem onStore_reports (name : String) (x : StoreRequest) : (onStore name x.run).Reports P :=
  (require_reports _ _).bind fun _ => (x.run_reports.mapError _).zoom

/-- A command that moves no window changes no count either, as far as its events tell. -/
theorem run_plain {a : Arena} (ha : a.Valid) (hfits : c.Fits) (hc : c.mover = none) :
    ∀ e ∈ (c.run a).events, e.Plain := by
  have lends {α : Type} {x : Action Failure Arena α} (hx : x.Reports (·.reuses = true)) :
      x.Reports Event.Plain := hx.mono fun _ => Event.plain_of_reuses
  have shrinks (i : Nat) : (Answer.number <$> onPoolAt i Pool.shrink).Reports Event.Plain :=
    (onPoolAt_reports (reports_of_quiet Pool.events_shrink) i).map _
  by_cases hmake : ∃ what target, c = .make what target
  · obtain ⟨what, target, rfl⟩ := hmake
    refine forall_events_bind (fun e he => Event.plain_of_reuses (Making.reuses_of_run ha hfits e he)) ?_
    exact fun m => (enrol_reports _ _).bind fun _ => reports_pure _
  suffices hreports : c.run.Reports Event.Plain from hreports a
  cases c with
  | make what target => exact absurd ⟨what, target, rfl⟩ hmake
  | drop name =>
    exact ((require_reports _ _).bind fun m => (reports_modify _).bind fun _ => bury_reports m).bind
      fun _ => reports_pure _
  | ask name query => exact onBuffer_reports (Change.lift_reports (reports_ask _)) name
  | change name c => cases hc
  | derive name d target =>
    exact (onBuffer_reports (Change.lift_reports d.run_reports) name).bind fun made =>
      (enrolDerived_reports name target made).bind fun _ => reports_pure _
  | exchange name other x =>
    exact Exchange.run_reports fun _ _ _ hdest => by
      rw [mover, hdest] at hc
      cases hc
  | storeNew kind n m target | storeAdopt data m target =>
    exact (Change.lift_reports (reports_ask _)).bind fun s => putStore_reports target s
  | storeResize name n target =>
    exact (require_reports _ _).bind fun s => (Change.lift_reports (reports_ask _)).bind fun t =>
      putStore_reports target t
  | store name request => exact onStore_reports name request
  | poolNew slots target =>
    exact (reports_of_quiet fun _ => rfl).bind fun _ => (reports_modify _).bind fun _ => reports_pure _
  | poolLend pool kind n m target =>
    exact (require_reports _ _).bind fun i =>
      (lends (onPoolAt_reports (Pool.lend_reports kind n m) i)).bind fun s => putStore_reports target s
  | poolRelend pool name n target =>
    exact (require_reports _ _).bind fun s => (require_reports _ _).bind fun i =>
      (lends (onPoolAt_reports (Pool.relend_reports s n) i)).bind fun t => putStore_reports target t
  | poolTakeBack pool name =>
    exact (require_reports _ _).bind fun i => (require_reports _ _).bind fun s =>
      (reports_modify _).bind fun _ => ((onPoolAt_reports (Pool.takeBack_reports s) i).mono
        fun _ => Event.plain_of_parks).bind fun _ => reports_pure _
  | poolShrink pool => exact (require_reports _ _).bind shrinks
  | allocatorShrink allocator => exact (require_reports _ _).bind fun al => shrinks al.pool
  | poolStatistics pool | poolStrategy pool | allocatorInfo allocator | allocatorStatistics allocator =>
    exact (require_reports _ _).bind fun _ => (reports_ask _).map _
  | allocatorNew settings target =>
    exact (reports_ask _).bind fun config => (reports_of_quiet fun _ => rfl).bind fun i =>
      putAllocator_reports target _
  | allocatorOnPool pool settings target =>
    exact (require_reports _ _).bind fun i => (reports_ask _).bind fun config =>
      putAllocator_reports target _
  | allocatorDefault target =>
    exact (reports_of_quiet fun _ => rfl).bind fun i => putAllocator_reports target _
  | allocatorClone allocator target =>
    exact (require_reports _ _).bind fun al => putAllocator_reports target al

theorem run_unreleased {a : Arena} (ha : a.Valid) (hfits : c.Fits)
    (hc : ∀ name n, c ≠ .change name (.release n)) : ∀ e ∈ (c.run a).events, ¬e.OfRelease := by
  have usual {α : Type} {x : Action Failure Arena α} (hx : x.Reports Event.Usual) :
      ∀ e ∈ (x a).events, ¬e.OfRelease := fun e he => (hx a e he).not_ofRelease
  cases c with
  | change name c =>
    exact usual (onBuffer_reports (Change.run_reports fun n hn => hc name n (congrArg _ hn)) name)
  | exchange name other x =>
    exact usual (Exchange.run_reports fun source dest n _ => pour_reports source dest n)
  | _ => exact fun e he => (run_plain ha hfits rfl e he).not_ofRelease

end Command

end SharedBuffer
