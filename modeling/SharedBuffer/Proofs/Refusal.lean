import SharedBuffer.Proofs.Commands

/-!
What a buffer refuses. Main statements: a buffer that may not be changed, be it read-only or released,
refuses as a whole whatever would write bytes or resize the storage; and once its count is zero,
whatever would read, write, move or expose bytes, resize the storage, add a reference or derive a
handle fails and has done nothing, and says that the buffer has been released, unless it objects to
another argument first.
-/

namespace SharedBuffer

namespace Action

variable {ε ε' σ α β : Type}

def Rejects (x : Action ε σ α) (s : σ) (e : ε) : Prop := x s = ⟨.error e, s, []⟩

variable {x : Action ε σ α} {g : σ → Except ε α} {s : σ} {e : ε}

theorem rejects_ask (h : g s = .error e) : (ask g).Rejects s e := ask_of_error h

theorem rejects_update {g : σ → Except ε σ} (h : g s = .error e) : (update g).Rejects s e :=
  update_of_error h

theorem Rejects.bind (h : x.Rejects s e) (f : α → Action ε σ β) : (x >>= f).Rejects s e :=
  bind_of_error h

theorem Rejects.after {y : Action ε σ β} {b : β} {f : β → Action ε σ α} (hy : y s = ⟨.ok b, s, []⟩)
    (h : (f b).Rejects s e) : (y >>= f).Rejects s e := by
  rw [Rejects, bind_of_ok hy, h]
  rfl

theorem Rejects.map (h : x.Rejects s e) (f : α → β) : (f <$> x).Rejects s e := h.bind _

theorem Rejects.mapError (h : x.Rejects s e) (f : ε → ε') : (mapError f x).Rejects s (f e) := by
  rw [Rejects, Action.mapError, h]

theorem rejects_current_bind {f : σ → Action ε σ β} (h : (f s).Rejects s e) :
    (current >>= f).Rejects s e :=
  (current_bind f s).trans h

end Action

namespace Buffer

open SharedBuffer.Action (Rejects rejects_ask rejects_update rejects_current_bind)

variable {b : Buffer}

section Checks

theorem checkLive_of_released (hb : b.group.count = 0) : b.checkLive = .error .released := by
  rw [checkLive, Group.isReleased, hb]
  rfl

theorem checkMutable_of_released (hb : b.group.count = 0) : b.checkMutable = .error .released := by
  rw [checkMutable, checkLive_of_released hb]
  rfl

theorem read_of_released (hb : b.group.count = 0) (i n : Nat) : b.read i n = .error .released := by
  rw [read, checkLive_of_released hb]
  rfl

theorem peek_of_released (hb : b.group.count = 0) (n : Nat) : b.peek n = .error .released := by
  rw [peek, checkLive_of_released hb]
  rfl

theorem visitBytes_of_released (hb : b.group.count = 0) {σ : Type} (d : Direction) (feed : Feed σ)
    (s : σ) (i n : Nat) : b.visitBytes d feed s i n = .error .released := by
  rw [visitBytes, checkLive_of_released hb]
  rfl

theorem distanceIn_of_released (hb : b.group.count = 0) (i n : Nat) (value : UInt8) :
    b.distanceIn i n value = .error .released := by
  rw [distanceIn, visitBytes_of_released hb]
  rfl

/-- An empty pattern is refused before the buffer is looked at. -/
theorem haystack_of_released (hb : b.group.count = 0) (start stop : Nat) (pattern : Bytes) :
    b.haystack start stop pattern =
      .error (if pattern.isEmpty then .emptyPattern else .released) := by
  rw [haystack, checkLive_of_released hb]
  split <;> rfl

theorem retain_of_released (hb : b.group.count = 0) (n : Nat) :
    b.retain n = .error (if n = 0 then .retainZero else .retainReleased n) := by
  rw [retain, Group.retain, hb, if_pos rfl]
  split <;> rfl

end Checks

/-!
A buffer may not be changed once it has been released, nor through a read-only handle. All that would
change it comes to the same check first.
-/

section Immutable

variable {f : Fault}

theorem overwrite_of_immutable (h : b.checkMutable = .error f) (i n : Nat) (data : Bytes) :
    b.overwrite i n data = .error f := by
  rw [overwrite, h]
  rfl

theorem setZero_of_immutable (h : b.checkMutable = .error f) (i n : Nat) : b.setZero i n = .error f := by
  rw [setZero, h]
  rfl

theorem compact_of_immutable (h : b.checkMutable = .error f) : b.compact = .error f := by
  rw [compact, h]
  rfl

theorem compactLazily_of_immutable (h : b.checkMutable = .error f) : b.compactLazily = .error f := by
  rw [compactLazily, h]
  rfl

theorem overwriteArray_of_immutable (h : b.checkMutable = .error f) (data : Bytes) :
    b.overwriteArray data = .error f := by
  rw [overwriteArray, h]
  rfl

/-- Whether the handle is in use is asked twice here. -/
theorem overwriteWritable_of_immutable (h : b.checkMutable = .error f) (data : Bytes) :
    b.overwriteWritable data = .error f := by
  cases hlive : b.checkLive with
  | error g =>
    rw [checkMutable, hlive] at h
    cases h
    rw [overwriteWritable, hlive]
    rfl
  | ok u =>
    rw [overwriteWritable, hlive]
    exact overwrite_of_immutable h _ _ data

theorem copyOver_to_immutable {o : Buffer} (h : b.checkMutable = .error f) (i j n : Nat) :
    copyOver o i j n b = .error f := by
  rw [copyOver, h]
  rfl

theorem rejects_reserve (h : b.checkMutable = .error f) (n : Nat) : (reserve n).Rejects b f := by
  refine (rejects_ask ?_).bind _
  rw [growthFor, h]
  rfl

theorem rejects_append (h : b.checkMutable = .error f) (data : Bytes) : (append data).Rejects b f :=
  (rejects_reserve h _).bind _

theorem rejects_tryReserve (h : b.checkMutable = .error f) (n : Nat) : (tryReserve n).Rejects b f :=
  rejects_current_bind ((rejects_ask h).bind _)

theorem rejects_changeCapacity (h : b.checkMutable = .error f) (n : Nat) :
    (changeCapacity n).Rejects b f := by
  refine rejects_current_bind ((rejects_ask ?_).bind _)
  rw [checkCapacity, h]
  rfl

theorem rejects_appendEncoded (h : b.checkMutable = .error f) (worst : Nat) (bytes : Bytes) :
    (appendEncoded worst bytes).Rejects b f :=
  rejects_current_bind ((rejects_ask h).bind _)

theorem rejects_load {σ : Type} (h : b.checkMutable = .error f) (r : Stream.Reader σ) (s : σ) :
    (load r s).Rejects b (refused f, s) :=
  rejects_current_bind (((rejects_ask h).mapError _).bind _)

theorem rejects_loadLength {σ : Type} (h : b.checkMutable = .error f) (n : Nat) (r : Stream.Reader σ)
    (s : σ) :
    (loadLength n r s).Rejects b (refused f, s) :=
  ((rejects_reserve h n).mapError _).bind _

theorem rejects_writeSome (h : b.checkMutable = .error f) {data : Bytes}
    (hroom : 0 < min data.length (room b.handle)) : (writeSome data).Rejects b (.buffer f) := by
  apply rejects_current_bind
  dsimp only
  rw [if_neg (Nat.ne_of_gt hroom)]
  exact ((rejects_append h _).mapError _).bind _

theorem rejects_writeAll (h : b.checkMutable = .error f) {data : Bytes}
    (hroom : 0 < min data.length (room b.handle)) : (writeAll data).Rejects b (.buffer f) := by
  have hne : data ≠ [] := List.length_pos_iff.1 (Nat.lt_of_lt_of_le hroom (Nat.min_le_left _ _))
  rw [writeAll_eq hne]
  exact (rejects_writeSome h hroom).bind _

end Immutable

section Transferring

theorem rejects_consume (hb : b.group.count = 0) (n : Nat) : (consume n).Rejects b .released :=
  (rejects_ask (peek_of_released hb n)).bind _

theorem rejects_consumeInto (hb : b.group.count = 0) (n room : Nat) :
    (consumeInto n room).Rejects b .released :=
  (rejects_ask (checkLive_of_released hb)).bind _

theorem rejects_readLine (hb : b.group.count = 0) : readLine.Rejects b .released :=
  (rejects_ask (distanceIn_of_released hb _ _ _)).bind _

theorem rejects_storeTo {σ : Type} (hb : b.group.count = 0) (w : Stream.Writer σ) (s : σ) :
    (storeTo w s).Rejects b (.released, s) :=
  ((rejects_ask (checkLive_of_released hb)).mapError _).bind _

theorem rejects_store (hb : b.group.count = 0) (script : List Stream.Acceptance) :
    (store script).Rejects b (refused .released) :=
  ((rejects_storeTo hb _ _).mapError _).map _

theorem rejects_readSome (hb : b.group.count = 0) (n : Nat) :
    (readSome n).Rejects b (.buffer .released) :=
  rejects_current_bind ((rejects_consume hb _).mapError _)

theorem rejects_readRest (hb : b.group.count = 0) : readRest.Rejects b (.buffer .released) :=
  rejects_current_bind (rejects_readSome hb _)

end Transferring

end Buffer

def refusal {α : Type} : Except Fault α → Option Fault
  | .error f => some f
  | .ok _ => none

/-- How a released buffer refuses: by an objection to another argument that comes first, and
otherwise because it has been released. -/
def Fault.AfterRelease (objection : Option Fault) (f : Fault) : Prop :=
  match objection with
  | some g => f = g
  | none => f.kind? = some .useAfterRelease

theorem Fault.afterRelease_getD (objection : Option Fault) :
    (objection.getD .released).AfterRelease objection := by
  cases objection <;> rfl

namespace Query

def touches : Query → Bool
  | .info | .isReadable _ | .isWritable _ | .arrayOffset | .count => false
  | _ => true

def objection : Query → Option Fault
  | .findFirst _ _ pattern | .findLast _ _ pattern =>
    if pattern.isEmpty then some .emptyPattern else none
  | .visitAll _ _ processors => if processors.isEmpty then some .noProcessor else none
  | _ => none

theorem answer_of_released {b : Buffer} (hb : b.group.count = 0) (q : Query)
    (h : q.touches = true) : q.answer b = .error (q.objection.getD .released) := by
  have hlive := Buffer.checkLive_of_released hb
  have hread := Buffer.read_of_released hb
  have hvisit := Buffer.distanceIn_of_released hb
  cases q with
  | info => simp [touches] at h
  | isReadable n => simp [touches] at h
  | isWritable n => simp [touches] at h
  | arrayOffset => simp [touches] at h
  | count => simp [touches] at h
  | wholeArray => rw [answer, Buffer.wholeArray, hlive]; rfl
  | getScalar type i => rw [answer, Buffer.getScalar, hread]; rfl
  | getString i n charset => rw [answer, Buffer.getString, hread]; rfl
  | contentString charset => rw [answer, Buffer.contentString, Buffer.content, hread]; rfl
  | findByte start stop value => rw [answer, Buffer.findByte, hlive]; rfl
  | findFirst start stop pattern =>
    rw [answer, Buffer.findFirst, Buffer.haystack_of_released hb, objection]
    split <;> rfl
  | findLast start stop pattern =>
    rw [answer, Buffer.findLast, Buffer.haystack_of_released hb, objection]
    split <;> rfl
  | distanceTo value => rw [answer, Buffer.distanceTo, hvisit]; rfl
  | distanceWithin n value => rw [answer, Buffer.distanceWithin, hlive]; rfl
  | distanceIn i n value => rw [answer, hvisit]; rfl
  | visit d extent p =>
    have hscan : scan d p b extent = .error .released := by
      cases extent <;> exact Buffer.visitBytes_of_released hb _ _ _ _ _
    rw [answer, hscan]
    rfl
  | visitAll i n ps =>
    rw [answer, Buffer.visitAll, objection, Buffer.visitBytes_of_released hb]
    split <;> rfl
  | getBytes i n => rw [answer, hread]; rfl
  | content => rw [answer, Buffer.content, hread]; rfl
  | dump title => rw [answer, Buffer.content, hread]; rfl
  | contentHex => rw [answer, Buffer.content, hread]; rfl

end Query

namespace Change

open SharedBuffer.Action (Rejects rejects_ask rejects_update rejects_current_bind)
open Arena (lift)

/-- Whether a change reads, writes or moves bytes, resizes the storage or adds references. A stream
write without a byte to transfer does not. -/
def touches (h : Handle) : Change → Bool
  | .setAutoExpand _ | .clear | .markReader | .markWriter | .resetReader | .resetWriter
  | .setReader _ | .setWriter _ | .setIndexes .. | .release _ | .flush => false
  | .writeSome data | .writeAll data => 0 < min data.length (Buffer.room h)
  | _ => true

def objection : Change → Option Fault
  | .retain n => if n = 0 then some .retainZero else none
  | .setScalar _ value | .writeScalar value => refusal value.bytes
  | .loadFile none | .storeFile false => some Buffer.noSuchFile
  | _ => none

variable {b : Buffer}

theorem rejects_update_of_error {f : Buffer → Except Fault Buffer} {fault : Fault}
    (h : f b = .error fault) : (update f).Rejects b (.fault fault) :=
  ((rejects_update h).mapError _).bind _

theorem rejects_lift {α : Type} {x : Action Fault Buffer α} {fault : Fault} (h : x.Rejects b fault) :
    (lift x).Rejects b (.fault fault) :=
  h.mapError _

def alters : Change → Bool
  | .reserve _ | .tryReserve _ | .changeCapacity _ | .compact | .compactLazily | .setBytes .. | .setZero ..
  | .append _ | .appendZero _ | .appendAll _ | .overwriteArray _ | .overwriteWritable _ | .setScalar ..
  | .writeScalar _ | .setString .. | .writeString .. | .writeLine _ | .load _ | .loadLength ..
  | .loadFile _ | .writeSome _ | .writeAll _ | .flush => true
  | _ => false

def idle (h : Handle) : Change → Bool
  | .writeSome data | .writeAll data => min data.length (Buffer.room h) = 0
  | .flush => true
  | _ => false

def answered (h : Handle) : Change → Bool
  | .writeSome data => min data.length (Buffer.room h) = 0
  | .writeAll data => data = []
  | .flush => true
  | _ => false

section Immutable

variable {f : Fault}

theorem bytes_of_immutable {value : Scalar} (g : Bytes → Except Fault Buffer)
    (hg : ∀ bytes, g bytes = .error f) :
    (value.bytes >>= g) = .error ((refusal value.bytes).getD f) := by
  cases hbytes : value.bytes with
  | error fault => rfl
  | ok bytes => exact hg bytes

theorem rejects_writeScalar (h : b.checkMutable = .error f) (value : Scalar) :
    (Buffer.writeScalar value).Rejects b ((refusal value.bytes).getD f) := by
  cases hbytes : value.bytes with
  | error fault => exact (rejects_ask (g := fun _ => value.bytes) hbytes).bind _
  | ok bytes =>
    have hask := Action.ask_bind_of_ok (g := fun _ => value.bytes) (f := Buffer.append) (s := b) hbytes
    exact hask.trans (Buffer.rejects_append h bytes)

/-- A change that would alter a buffer that may not be changed is refused as a whole, for that or for
what is wrong with an argument. -/
theorem run_of_immutable (h : b.checkMutable = .error f) {c : Change} (hc : c.alters = true)
    (hbusy : c.idle b.handle = false) :
    ∃ e, c.run.Rejects b e ∧ e.cause? = some (c.objection.getD f) := by
  have hwrite := Buffer.overwrite_of_immutable h
  have hreserve := fun n => rejects_lift (Buffer.rejects_reserve h n)
  have hencoded := fun n bytes => rejects_lift (Buffer.rejects_appendEncoded h n bytes)
  have hupdate : ∀ {g : Buffer → Except Fault Buffer}, g b = .error f →
      (update g).Rejects b (.fault f) := rejects_update_of_error
  cases c with
  | reserve n => exact ⟨_, (hreserve n).bind _, rfl⟩
  | tryReserve n => exact ⟨_, (rejects_lift (Buffer.rejects_tryReserve h n)).map _, rfl⟩
  | changeCapacity n => exact ⟨_, (rejects_lift (Buffer.rejects_changeCapacity h n)).bind _, rfl⟩
  | compact => exact ⟨_, hupdate (Buffer.compact_of_immutable h), rfl⟩
  | compactLazily => exact ⟨_, hupdate (Buffer.compactLazily_of_immutable h), rfl⟩
  | setBytes i data => exact ⟨_, hupdate (hwrite _ _ _), rfl⟩
  | setZero i n => exact ⟨_, hupdate (Buffer.setZero_of_immutable h i n), rfl⟩
  | append data => exact ⟨_, (rejects_lift (Buffer.rejects_append h data)).bind _, rfl⟩
  | appendZero n => exact ⟨_, (rejects_lift ((Buffer.rejects_reserve h n).bind _)).bind _, rfl⟩
  | appendAll chunks => exact ⟨_, (rejects_lift ((Buffer.rejects_reserve h _).bind _)).map _, rfl⟩
  | overwriteArray data =>
    have hrefused := rejects_update (Buffer.overwriteArray_of_immutable h data)
    exact ⟨_, rejects_current_bind ((rejects_lift hrefused).bind _), rfl⟩
  | overwriteWritable data =>
    have hrefused := rejects_update (Buffer.overwriteWritable_of_immutable h data)
    exact ⟨_, rejects_current_bind ((rejects_lift hrefused).bind _), rfl⟩
  | setScalar i value =>
    exact ⟨_, rejects_update_of_error (bytes_of_immutable _ fun _ => hwrite _ _ _), rfl⟩
  | writeScalar value => exact ⟨_, (rejects_lift (rejects_writeScalar h value)).bind _, rfl⟩
  | setString i text charset => exact ⟨_, (rejects_lift (rejects_update (hwrite _ _ _))).bind _, rfl⟩
  | writeString text charset => exact ⟨_, (hencoded _ _).map _, rfl⟩
  | writeLine text => exact ⟨_, (hencoded _ _).map _, rfl⟩
  | load script => exact ⟨_, ((Buffer.rejects_load h _ _).mapError _).map _, rfl⟩
  | loadLength n script => exact ⟨_, ((Buffer.rejects_loadLength h n _ _).mapError _).map _, rfl⟩
  | loadFile content =>
    cases content with
    | none => exact ⟨_, rfl, rfl⟩
    | some bytes =>
      exact ⟨_, ((((Buffer.rejects_loadLength h _ _ _).mapError _).map _).mapError _).map _, rfl⟩
  | writeSome data =>
    have hroom := Nat.pos_of_ne_zero (of_decide_eq_false hbusy)
    exact ⟨_, ((Buffer.rejects_writeSome h hroom).mapError _).map _, rfl⟩
  | writeAll data =>
    have hroom := Nat.pos_of_ne_zero (of_decide_eq_false hbusy)
    exact ⟨_, ((Buffer.rejects_writeAll h hroom).mapError _).bind _, rfl⟩
  | flush => cases hbusy
  | _ => cases hc

theorem run_of_idle {c : Change} (hc : c.idle b.handle = true) :
    ∃ r, c.run b = ⟨r, b, []⟩ ∧ (c.answered b.handle = false → ∃ f, r = .error f) := by
  cases c with
  | writeSome data =>
    have hnone : min data.length (Buffer.room b.handle) = 0 := of_decide_eq_true hc
    have hmapped : Action.mapError Failure.stream (Buffer.writeSome data) b = ⟨.ok 0, b, []⟩ := by
      simp only [Action.mapError, Buffer.writeSome_of_idle hnone]
    refine ⟨_, Action.bind_of_ok hmapped, fun hanswered => ?_⟩
    exact absurd hnone (of_decide_eq_false hanswered)
  | writeAll data =>
    by_cases hdata : data = []
    · have hmapped : Action.mapError Failure.stream (Buffer.writeAll data) b = ⟨.ok (), b, []⟩ := by
        rw [hdata, Buffer.writeAll_nil]
        rfl
      refine ⟨_, Action.bind_of_ok hmapped, fun hanswered => ?_⟩
      exact absurd hdata (of_decide_eq_false hanswered)
    · have hrejects : (Buffer.writeAll data).Rejects b .nothingWritten :=
        Buffer.writeAll_of_idle hdata (of_decide_eq_true hc)
      exact ⟨_, (hrejects.mapError _).bind _, fun _ => ⟨_, rfl⟩⟩
  | flush => exact ⟨_, rfl, fun hanswered => by cases hanswered⟩
  | _ => cases hc

end Immutable

theorem busy_of_touches {h : Handle} {c : Change} (hc : c.touches h = true) : c.idle h = false := by
  cases c with
  | writeSome data | writeAll data =>
    exact decide_eq_false (Nat.ne_of_gt (of_decide_eq_true hc))
  | flush => cases hc
  | _ => rfl

theorem run_of_released (hb : b.group.count = 0) (c : Change) (h : c.touches b.handle = true) :
    ∃ f fault, c.run.Rejects b f ∧ f.cause? = some fault ∧ fault.AfterRelease c.objection := by
  cases hc : c.alters with
  | true =>
    have hopen := Buffer.checkMutable_of_released hb
    obtain ⟨f, hrun, hcause⟩ := c.run_of_immutable hopen hc (busy_of_touches h)
    exact ⟨f, _, hrun, hcause, Fault.afterRelease_getD _⟩
  | false =>
    have hlive := Buffer.checkLive_of_released hb
    have hconsume := Buffer.rejects_consume hb
    cases c with
    | skip n =>
      have hskip : b.skip n = .error .released := by rw [Buffer.skip, hlive]; rfl
      exact ⟨_, _, rejects_update_of_error hskip, rfl, rfl⟩
    | retain n =>
      refine ⟨_, _, rejects_update_of_error (Buffer.retain_of_released hb n), rfl, ?_⟩
      rw [objection]
      split <;> rfl
    | consume n => exact ⟨_, _, (rejects_lift (hconsume n)).map _, rfl, rfl⟩
    | consumeInto n room =>
      exact ⟨_, _, (rejects_lift (Buffer.rejects_consumeInto hb n room)).map _, rfl, rfl⟩
    | readScalar type => exact ⟨_, _, (rejects_lift ((hconsume _).bind _)).map _, rfl, rfl⟩
    | readString n charset => exact ⟨_, _, (rejects_lift ((hconsume n).bind _)).map _, rfl, rfl⟩
    | readLine => exact ⟨_, _, (rejects_lift (Buffer.rejects_readLine hb)).map _, rfl, rfl⟩
    | store script => exact ⟨_, _, ((Buffer.rejects_store hb script).mapError _).map _, rfl, rfl⟩
    | storeFile reachable =>
      cases reachable with
      | false => exact ⟨_, _, rfl, rfl, rfl⟩
      | true => exact ⟨_, _, ((Buffer.rejects_store hb []).mapError _).map _, rfl, rfl⟩
    | readSome n => exact ⟨_, _, ((Buffer.rejects_readSome hb n).mapError _).map _, rfl, rfl⟩
    | readRest => exact ⟨_, _, ((Buffer.rejects_readRest hb).mapError _).map _, rfl, rfl⟩
    | setAutoExpand | clear | markReader | markWriter | resetReader | resetWriter | setReader
    | setWriter | setIndexes | release => cases h
    | _ => cases hc

end Change

namespace Derivation

open SharedBuffer.Action (rejects_ask rejects_update rejects_current_bind)

theorem run_of_released {b : Buffer} (hb : b.group.count = 0) (d : Derivation) :
    ∃ fault, d.run.Rejects b fault ∧ fault.kind? = some .useAfterRelease := by
  have hlive := Buffer.checkLive_of_released hb
  have hduplicate : b.duplicate = .error .released := by rw [Buffer.duplicate, hlive]; rfl
  cases d with
  | copy extent =>
    have hcopy : ∀ i n, (Buffer.copy i n).Rejects b .released := fun i n =>
      rejects_current_bind ((rejects_ask hlive).bind _)
    exact ⟨_, rejects_current_bind ((hcopy _ _).bind _), rfl⟩
  | slice extent =>
    have hslice : b.slice (place b extent).1 (place b extent).2 = .error .released := by
      rw [Buffer.slice, hlive]
      rfl
    exact ⟨_, (rejects_ask hslice).bind _, rfl⟩
  | duplicate => exact ⟨_, (rejects_ask hduplicate).bind _, rfl⟩
  | retainedSlice extent =>
    have hretained : ∀ i n, (Buffer.retainedSlice i n).Rejects b .released :=
      fun i n => (rejects_ask hlive).bind _
    exact ⟨_, rejects_current_bind ((hretained _ _).bind _), rfl⟩
  | retainedDuplicate =>
    exact ⟨_, ((rejects_update (Buffer.retain_of_released hb 1)).bind _).bind _, rfl⟩
  | takeSlice n =>
    have htake : (Buffer.takeSlice n).Rejects b .released := by
      refine (rejects_ask ?_).bind _
      rw [hlive]
      rfl
    exact ⟨_, htake.bind _, rfl⟩
  | takeRetainedSlice n =>
    have htake : (Buffer.takeRetainedSlice n).Rejects b .released :=
      rejects_current_bind ((rejects_ask hlive).bind _)
    exact ⟨_, htake.bind _, rfl⟩
  | takeCopy n =>
    have htake : (Buffer.takeCopy n).Rejects b .released :=
      rejects_current_bind ((rejects_ask hlive).bind _)
    exact ⟨_, htake.bind _, rfl⟩
  | readOnlyView =>
    have hview : b.readOnlyView = .error .released := by rw [Buffer.readOnlyView, hduplicate]; rfl
    exact ⟨_, (rejects_ask hview).bind _, rfl⟩
  | whole =>
    have hwhole : b.whole = .error .released := by
      rw [Buffer.whole, hduplicate, hlive]
      split <;> rfl
    exact ⟨_, (rejects_ask hwhole).bind _, rfl⟩

end Derivation

namespace Exchange

/-- Whether an exchange moves or reads bytes. Regions of different lengths are not compared. -/
def touches (h other : Handle) : Exchange → Bool
  | .equals => h.readable == other.readable
  | _ => true

def objection (other : Buffer) : Exchange → Option Fault
  | .getBytesTo _ otherIndex length =>
    refusal do
      other.checkMutable
      checkBounds otherIndex length other.handle.capacity
  | .writeFrom n => refusal (other.peek n)
  | _ => none

def alters : Exchange → Bool
  | .setBytesFrom .. | .writeFrom _ => true
  | _ => false

def mirrored : Exchange → Exchange
  | .getBytesTo index otherIndex length => .setBytesFrom otherIndex index length
  | .setBytesFrom index otherIndex length => .getBytesTo otherIndex index length
  | .readInto n => .writeFrom n
  | .writeFrom n => .readInto n
  | .equals => .equals
  | .compare => .compare

end Exchange

namespace Buffer

variable {b o : Buffer}

theorem copyOver_from_released (hb : b.group.count = 0) (i j n : Nat) :
    copyOver b i j n o = .error ((refusal (do
      o.checkMutable
      checkBounds j n o.handle.capacity)).getD .released) := by
  rw [copyOver, read_of_released hb]
  rcases o.checkMutable with f | ⟨⟩
  · rfl
  · cases checkBounds j n o.handle.capacity <;> rfl

theorem content_of_live (ho : o.Valid) (live : 0 < o.group.count) :
    ∃ bytes, o.content = .ok bytes := by
  obtain ⟨s, hs, -⟩ := ho.window live
  exact ⟨_, ho.read_of_le hs (readable_le ho)⟩

/-- The content of the other buffer comes first; if that is there, its own is missed. -/
theorem compareContent_of_released (hb : b.group.count = 0) (ho : o.Valid) :
    b.compareContent o = .error .released := by
  have hours : b.content = .error .released := read_of_released hb _ _
  rw [compareContent, hours]
  by_cases live : 0 < o.group.count
  · obtain ⟨bytes, hbytes⟩ := content_of_live ho live
    rw [hbytes]
    rfl
  · have htheirs : o.content = .error .released := read_of_released (by omega) _ _
    rw [htheirs]
    rfl

theorem compareContent_with_released (hb : b.group.count = 0) :
    o.compareContent b = .error .released := by
  have htheirs : b.content = .error .released := read_of_released hb _ _
  rw [compareContent, htheirs]
  rfl

end Buffer

namespace Arena

open Table (find?)
open SharedBuffer.Action (Rejects rejects_ask rejects_update)

variable {a : Arena} {name other : String} {m mo : Member} {e eo : Estate} {p po : Pool}

theorem rejects_onBuffer (hs : a.Seat name m e p) {α : Type} {x : Action Failure Buffer α}
    {f : Failure} (h : x.Rejects (a.bufferOf name m e p) f) : (onBuffer name x).Rejects a f := by
  rw [Rejects, onBuffer_of_seat hs, h, settle_self hs]

theorem buffer_of_seat (hs : a.Seat name m e p) : a.buffer name = .ok (a.bufferOf name m e p) := by
  rw [buffer, hs.buffer?]

theorem buffer_settle (hs : a.Seat name m e p) {b : Buffer} (hb : b.shared = a.isShared name m.group) :
    (a.settle name m e.pool b).buffer name = .ok b := by
  rw [buffer_of_seat (seat_settle hs b), bufferOf, isShared_settle, ← hb]

theorem onBuffer_ask_of_ok (hs : a.Seat name m e p) {α : Type} {f : Buffer → Except Fault α} {v : α}
    (hv : f (a.bufferOf name m e p) = .ok v) :
    onBuffer name (lift (Action.ask f)) a = ⟨.ok v, a, []⟩ := by
  rw [onBuffer_of_seat hs, lift_of_ok (Action.ask_of_ok hv), settle_self hs]

section Exchanges

variable {fault : Fault} {i j n : Nat}

theorem rejects_copyBetween (hs : a.Seat name m e p) (ho : a.Seat other mo eo po)
    (h : Buffer.copyOver (a.bufferOf name m e p) i j n (a.bufferOf other mo eo po) = .error fault) :
    (copyBetween name other i j n).Rejects a (.fault fault) :=
  (Action.ask_bind_of_ok (buffer_of_seat hs)).trans
    (rejects_onBuffer ho ((rejects_update h).mapError _))

theorem rejects_pour_from (hs : a.Seat name m e p)
    (h : (a.bufferOf name m e p).peek n = .error fault) (dest : String) :
    (pour name dest n).Rejects a (.fault fault) :=
  (rejects_onBuffer hs ((rejects_ask h).mapError _)).bind _

theorem rejects_pour_to {f : Fault} (hs : a.Seat name m e p) (ho : a.Seat other mo eo po)
    (hb : (a.bufferOf other mo eo po).checkMutable = .error f) :
    (pour name other n).Rejects a
      (.fault ((refusal ((a.bufferOf name m e p).peek n)).getD f)) := by
  cases hpeek : (a.bufferOf name m e p).peek n with
  | error f => exact rejects_pour_from hs hpeek other
  | ok bytes =>
    have happend := rejects_onBuffer ho ((Buffer.rejects_append hb bytes).mapError Failure.fault)
    exact .after (onBuffer_ask_of_ok hs hpeek) (happend.bind _)

end Exchanges

end Arena

namespace Exchange

open Arena (Seat rejects_copyBetween rejects_pour_from rejects_pour_to)
open SharedBuffer.Action (Rejects rejects_ask)

variable {a : Arena} {name other : String} {m mo : Member} {e eo : Estate} {p po : Pool}
  {x : Exchange}

theorem rejects_run (hs : a.Seat name m e p) (ho : a.Seat other mo eo po) (hne : name = other → x.compares = true)
    {f : Failure} (h : (answer name other x).Rejects a f) : (x.run name other).Rejects a f := by
  refine .after (Action.ask_of_ok (Arena.buffer_of_seat ho)) ?_
  refine .after (Action.ask_of_ok (Arena.buffer_of_seat hs)) ?_
  rw [if_neg (fun hsame => by simp [hne hsame.1] at hsame)]
  exact h

theorem rejects_question (hs : a.Seat name m e p) (ho : a.Seat other mo eo po) {α β : Type}
    {g : Buffer → Buffer → Except Fault α} {fault : Fault}
    (h : g (a.bufferOf name m e p) (a.bufferOf other mo eo po) = .error fault) (f : α → β) :
    Rejects (do
      let o ← Action.ask (Arena.buffer other)
      let b ← Action.ask (Arena.buffer name)
      f <$> Arena.lift (Action.ask fun _ => g b o) : Action Failure Arena β) a (.fault fault) := by
  refine .after (Action.ask_of_ok (Arena.buffer_of_seat ho)) ?_
  refine .after (Action.ask_of_ok (Arena.buffer_of_seat hs)) ?_
  exact ((rejects_ask (g := fun _ => g _ _) h).mapError _).map _

section Immutable

variable {f : Fault}

theorem run_of_immutable (hs : a.Seat name m e p) (ho : a.Seat other mo eo po) (hne : name = other → x.compares = true)
    (hb : (a.bufferOf name m e p).checkMutable = .error f) (hx : x.alters = true) :
    (x.run name other).Rejects a (.fault ((x.objection (a.bufferOf other mo eo po)).getD f)) := by
  apply rejects_run hs ho hne
  cases x with
  | setBytesFrom i j n =>
    exact (rejects_copyBetween ho hs (Buffer.copyOver_to_immutable hb j i n)).bind _
  | writeFrom n => exact (rejects_pour_to ho hs hb).bind _
  | _ => cases hx

theorem mirrored_run_of_immutable (hs : a.Seat name m e p) (ho : a.Seat other mo eo po)
    (hne : other = name → x.compares = true) (hb : (a.bufferOf name m e p).checkMutable = .error f)
    (hx : x.mirrored.alters = true) :
    (x.run other name).Rejects a
      (.fault ((x.mirrored.objection (a.bufferOf other mo eo po)).getD f)) := by
  apply rejects_run ho hs hne
  cases x with
  | getBytesTo i j n =>
    exact (rejects_copyBetween ho hs (Buffer.copyOver_to_immutable hb i j n)).bind _
  | readInto n => exact (rejects_pour_to ho hs hb).bind _
  | _ => cases hx

end Immutable

/-- An exchange is refused by the buffer that has been released, or before by the other one. -/
theorem run_of_released (ha : a.Valid) (hs : a.Seat name m e p) (ho : a.Seat other mo eo po)
    (hne : name = other → x.compares = true) (hb : e.group.count = 0) (h : x.touches m.handle mo.handle = true) :
    (x.run name other).Rejects a
      (.fault ((x.objection (a.bufferOf other mo eo po)).getD .released)) := by
  have hb : (a.bufferOf name m e p).group.count = 0 := hb
  have hopen := Buffer.checkMutable_of_released hb
  cases x with
  | setBytesFrom i j n => exact run_of_immutable hs ho hne hopen rfl
  | writeFrom n => exact run_of_immutable hs ho hne hopen rfl
  | getBytesTo i j n =>
    exact rejects_run hs ho hne
      ((rejects_copyBetween hs ho (Buffer.copyOver_from_released hb i j n)).bind _)
  | readInto n =>
    exact rejects_run hs ho hne ((rejects_pour_from hs (Buffer.peek_of_released hb n) other).bind _)
  | equals =>
    refine rejects_run hs ho hne (rejects_question hs ho (g := Buffer.sameContent) ?_ _)
    have hlen : (a.bufferOf name m e p).handle.readable =
        (a.bufferOf other mo eo po).handle.readable := beq_iff_eq.1 h
    rw [Buffer.sameContent, if_pos hlen, Buffer.compareContent_of_released hb (ha.buffer ho)]
    rfl
  | compare =>
    exact rejects_run hs ho hne
      (rejects_question hs ho (Buffer.compareContent_of_released hb (ha.buffer ho)) _)

theorem mirrored_run_of_released (hs : a.Seat name m e p)
    (ho : a.Seat other mo eo po) (hne : other = name → x.compares = true) (hb : e.group.count = 0)
    (h : x.touches m.handle mo.handle = true) :
    (x.run other name).Rejects a
      (.fault ((x.mirrored.objection (a.bufferOf other mo eo po)).getD .released)) := by
  have hb : (a.bufferOf name m e p).group.count = 0 := hb
  have hopen := Buffer.checkMutable_of_released hb
  cases x with
  | getBytesTo i j n => exact mirrored_run_of_immutable hs ho hne hopen rfl
  | readInto n => exact mirrored_run_of_immutable hs ho hne hopen rfl
  | setBytesFrom i j n =>
    exact rejects_run ho hs hne
      ((rejects_copyBetween hs ho (Buffer.copyOver_from_released hb j i n)).bind _)
  | writeFrom n =>
    exact rejects_run ho hs hne ((rejects_pour_from hs (Buffer.peek_of_released hb n) other).bind _)
  | equals =>
    refine rejects_run ho hs hne (rejects_question ho hs (g := Buffer.sameContent) ?_ _)
    have hlen : (a.bufferOf other mo eo po).handle.readable =
        (a.bufferOf name m e p).handle.readable := (beq_iff_eq.1 h).symm
    rw [Buffer.sameContent, if_pos hlen, Buffer.compareContent_with_released hb]
    rfl
  | compare =>
    exact rejects_run ho hs hne (rejects_question ho hs (Buffer.compareContent_with_released hb) _)

end Exchange

end SharedBuffer
