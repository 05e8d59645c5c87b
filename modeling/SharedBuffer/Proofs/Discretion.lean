import SharedBuffer.Proofs.Derivation
import SharedBuffer.Proofs.Change
import SharedBuffer.Proofs.Loans

/-!
What an action on a buffer has to do with the pool. Every change and every derivation but a copy is
discreet: it does not look at the pool, and all that it asks of it is another storage in place of the
one of the group, which is then handed back, or that the storage is taken back. A copy asks for one
storage. What is asked is a list, which is computed along the action.
-/

namespace SharedBuffer

open Pool (Request)

theorem le_of_checkBounds {i n capacity : Nat} (h : checkBounds i n capacity = .ok ()) :
    i + n ≤ capacity := by
  unfold checkBounds at h
  split at h
  · next hin => exact hin.1
  · cases h

theorem Storage.shape_writeRange {s t : Storage} {i : Nat} {data : Bytes}
    (h : s.writeRange i data = .ok t) : t.shape = s.shape := by
  simp only [writeRange] at h
  split at h
  · cases h
  · next hin =>
    cases h
    exact shape_splice (le_of_checkBounds hin)

theorem Storage.shape_moveRange {s t : Storage} {src n dest : Nat}
    (h : s.moveRange src n dest = .ok t) : t.shape = s.shape := by
  simp only [moveRange] at h
  split at h
  · simp at h
  · simp at h
  · next hsrc hdest =>
    cases h
    apply shape_splice
    rw [Bytes.length_window (show src + n ≤ s.bytes.length from le_of_checkBounds hsrc)]
    exact le_of_checkBounds hdest

namespace Buffer

def withPool (q : Pool) (b : Buffer) : Buffer := { b with pool := q }

structure Tame {ε : Type} (f : Buffer → Except ε Buffer) : Prop where
  blind : ∀ b q, f (b.withPool q) = (f b).map (withPool q)
  shape : ∀ b c, f b = .ok c →
    c.group.storage.map Storage.shape = b.group.storage.map Storage.shape

/-- How an action is put together if it deals with the pool only by replacing the storage and by giving
it back. -/
inductive Discreet : {ε α : Type} → Action ε Buffer α → Type 1
  | pure {ε α : Type} (v : α) : Discreet (Pure.pure v : Action ε Buffer α)
  | fail {ε α : Type} (e : ε) : Discreet (Action.fail e : Action ε Buffer α)
  | ask {ε α : Type} {g : Buffer → Except ε α} (hg : ∀ b q, g (b.withPool q) = g b) :
      Discreet (Action.ask g)
  | update {ε : Type} {f : Buffer → Except ε Buffer} (hf : Tame f) : Discreet (Action.update f)
  | emit {ε : Type} (e : Event) : Discreet (Action.emit e : Action ε Buffer Unit)
  | look {ε α : Type} {f : Buffer → Action ε Buffer α} (hblind : ∀ b q, f (b.withPool q) = f b)
      (hf : ∀ b, Discreet (f b)) : Discreet (Action.current >>= f)
  | bind {ε α β : Type} {x : Action ε Buffer α} {f : α → Action ε Buffer β} (hx : Discreet x)
      (hf : ∀ v, Discreet (f v)) : Discreet (x >>= f)
  | mapError {ε ε' α : Type} {x : Action ε Buffer α} (hx : Discreet x) (r : ε → ε') :
      Discreet (Action.mapError r x)
  | congr {ε α : Type} {x y : Action ε Buffer α} (h : x = y) (hx : Discreet x) : Discreet y
  | resize (n : Nat) : Discreet (resize n)
  | giveBack (note : Storage → Event) : Discreet (giveBack note)

namespace Discreet

def replacing (n : Nat) (b : Buffer) (s : Storage) : List Request :=
  if needsReplacement n s b.shared then
    match (Pool.relend s n b.pool).result with
    | .ok _ => [.relend s n, .takeBack s]
    | .error _ => [.relend s n]
  else []

def requests {ε α : Type} {x : Action ε Buffer α} : Discreet x → Buffer → List Request
  | .look _ hf, b => (hf b).requests b
  | @bind _ _ _ x _ hx hf, b =>
    hx.requests b ++
      match (x b).result with
      | .ok v => (hf v).requests (x b).state
      | .error _ => []
  | .mapError hx _, b => hx.requests b
  | .congr _ hx, b => hx.requests b
  | .resize n, b => b.group.storage.toList.flatMap (replacing n b)
  | .giveBack _, b => b.group.storage.toList.map .takeBack
  | _, _ => []

def ite {ε α : Type} {x y : Action ε Buffer α} {c : Prop} [h : Decidable c] (hx : c → Discreet x)
    (hy : ¬c → Discreet y) : Discreet (if c then x else y) :=
  match h with
  | isTrue h => hx h
  | isFalse h => hy h

end Discreet

namespace Tame

variable {ε : Type} {f : Buffer → Except ε Buffer}

theorem pool (h : Tame f) {b c : Buffer} (hc : f b = .ok c) : c.pool = b.pool := by
  have hblind := h.blind b b.pool
  rw [show b.withPool b.pool = b from rfl, hc] at hblind
  exact (congrArg Buffer.pool (Except.ok.inj hblind) :)

theorem of_storage (blind : ∀ b q, f (b.withPool q) = (f b).map (withPool q))
    (storage : ∀ b c, f b = .ok c → c.group.storage = b.group.storage) : Tame f :=
  ⟨blind, fun b c hc => congrArg _ (storage b c hc)⟩

end Tame

theorem map_bind_of {ε α β : Type} {x : Except ε α} {f f' : α → Except ε β} {g : β → β}
    (h : ∀ v, f' v = (f v).map g) : (x >>= f') = (x >>= f).map g := by
  cases x with
  | error e => rfl
  | ok v => exact h v

open SharedBuffer.Action (current_bind ask_bind_of_ok ask_bind_of_error)

section Updates

theorem tame_moveCursor {ε : Type} (f : Cursor → Cursor) :
    Tame (fun b => .ok (b.moveCursor f) : Buffer → Except ε Buffer) := by
  refine .of_storage (fun _ _ => rfl) fun b c hc => ?_
  cases hc
  rfl

theorem tame_setIndexes {r w : Buffer → Nat} (hr : ∀ b q, r (withPool q b) = r b)
    (hw : ∀ b q, w (withPool q b) = w b) : Tame fun b => b.setIndexes (r b) (w b) := by
  refine .of_storage (fun b q => ?_) fun b c hc => ?_
  · rw [hr, hw]
    exact map_bind_of fun _ => rfl
  · obtain ⟨cursor, -, hc⟩ := except_bind_eq_ok.1 hc
    cases hc
    rfl

theorem tame_skip (n : Nat) : Tame (skip n) := by
  refine .of_storage (fun b q => map_bind_of fun _ => map_bind_of fun _ => rfl) fun b c hc => ?_
  obtain ⟨-, -, rfl⟩ := skip_eq_ok hc
  rfl

theorem tame_retain (n : Nat) : Tame (retain n) := by
  refine .of_storage (fun b q => map_bind_of fun _ => rfl) fun b c hc => ?_
  obtain ⟨-, -, -, rfl⟩ := retain_eq_ok_iff.1 hc
  rfl

theorem tame_overwrite {i n : Buffer → Nat} (hi : ∀ b q, i (withPool q b) = i b)
    (hn : ∀ b q, n (withPool q b) = n b) (data : Bytes) :
    Tame fun b => b.overwrite (i b) (n b) data where
  blind b q := by
    rw [hi, hn]
    exact map_bind_of fun _ => map_bind_of fun _ => rfl
  shape b c hc := by
    obtain ⟨-, -, -, s, hs, hle, rfl⟩ := overwrite_eq_ok hc
    rw [hs]
    refine congrArg some (Storage.shape_splice ?_)
    rw [List.length_take]
    omega

theorem tame_write (i : Nat) (data : Bytes) : Tame (write i data) :=
  tame_overwrite (i := fun _ => i) (n := fun _ => data.length) (fun _ _ => rfl) (fun _ _ => rfl) data

theorem tame_setZero (i n : Nat) : Tame (setZero i n) := by
  have heq : setZero i n = fun b => b.overwrite i n (Bytes.zeros n) :=
    funext fun b => setZero_eq_overwrite i n b
  rw [heq]
  exact tame_overwrite (i := fun _ => i) (n := fun _ => n) (fun _ _ => rfl) (fun _ _ => rfl) _

theorem Tame.then_move {f : Buffer → Except Fault Buffer} (hf : Tame f) {g : Buffer → Cursor → Cursor}
    (hg : ∀ b q, g (withPool q b) = g b) :
    Tame fun b => do
      let c ← f b
      return c.moveCursor (g b) where
  blind b q := by
    rw [hf.blind, hg]
    cases f b <;> rfl
  shape b c hc := by
    obtain ⟨d, hd, hc⟩ := except_bind_eq_ok.1 hc
    cases hc
    exact hf.shape b d hd

theorem tame_appendInPlace (data : Bytes) : Tame (appendInPlace data) :=
  (tame_overwrite (i := fun b => b.handle.writer) (n := fun _ => data.length) (fun _ _ => rfl)
    (fun _ _ => rfl) data).then_move fun _ _ => rfl

theorem Tame.checked {f : Buffer → Except Fault Buffer} (hf : Tame f)
    {g : Buffer → Except Fault Unit} (hg : ∀ b q, g (withPool q b) = g b) :
    Tame fun b => do
      g b
      f b where
  blind b q := by
    rw [hg]
    exact map_bind_of fun _ => hf.blind b q
  shape b c hc := by
    obtain ⟨-, -, hc⟩ := except_bind_eq_ok.1 hc
    exact hf.shape b c hc

theorem tame_overwriteArray (data : Bytes) : Tame (overwriteArray data) :=
  ((tame_overwrite (i := fun _ => 0) (n := fun b => b.handle.capacity) (fun _ _ => rfl)
    (fun _ _ => rfl) data).checked (g := checkArray) fun _ _ => rfl).checked fun _ _ => rfl

theorem tame_overwriteWritable (data : Bytes) : Tame (overwriteWritable data) :=
  (tame_overwrite (i := fun b => b.handle.writer) (n := fun b => b.handle.writable) (fun _ _ => rfl)
    (fun _ _ => rfl) data).checked fun _ _ => rfl

theorem tame_copyOver (source : Buffer) (i j n : Nat) : Tame (copyOver source i j n) where
  blind b q := map_bind_of fun _ => map_bind_of fun _ => map_bind_of fun bytes =>
    (tame_write j bytes).blind b q
  shape b c hc := by
    obtain ⟨-, -, hc⟩ := except_bind_eq_ok.1 hc
    obtain ⟨-, -, hc⟩ := except_bind_eq_ok.1 hc
    obtain ⟨bytes, -, hc⟩ := except_bind_eq_ok.1 hc
    exact (tame_write j bytes).shape b c hc

theorem tame_setScalar (i : Nat) (v : Scalar) : Tame (setScalar i v) where
  blind b q := map_bind_of fun bytes => (tame_write i bytes).blind b q
  shape b c hc := by
    obtain ⟨bytes, -, hc⟩ := except_bind_eq_ok.1 hc
    exact (tame_write i bytes).shape b c hc

theorem Tame.keep {ε : Type} : Tame (fun b => .ok b : Buffer → Except ε Buffer) :=
  tame_moveCursor id

theorem Tame.ite {ε : Type} {f g : Buffer → Except ε Buffer} (hf : Tame f) (hg : Tame g)
    {c : Buffer → Prop} [∀ b, Decidable (c b)] (hc : ∀ b q, c (withPool q b) ↔ c b) :
    Tame fun b => if c b then f b else g b where
  blind b q := by
    simp only [hc, hf.blind, hg.blind]
    split <;> rfl
  shape b d hd := by
    split at hd
    · exact hf.shape b d hd
    · exact hg.shape b d hd

theorem tame_moveReadable : Tame moveReadable := by
  have hmove : Tame fun b => do
      let s ← b.heldStorage
      let s ← s.moveRange (b.handle.offset + b.handle.reader) b.handle.readable b.handle.offset
      return b.setStorage s := by
    refine ⟨fun b q => map_bind_of fun _ => map_bind_of fun _ => rfl, fun b c hc => ?_⟩
    obtain ⟨s, hs, hc⟩ := except_bind_eq_ok.1 hc
    obtain ⟨t, ht, hc⟩ := except_bind_eq_ok.1 hc
    cases hc
    rw [heldStorage_eq_ok.1 hs]
    exact congrArg some (Storage.shape_moveRange ht)
  exact .ite .keep hmove fun _ _ => .rfl

theorem tame_compact : Tame compact :=
  Tame.checked (.ite .keep (tame_moveReadable.then_move fun _ _ => rfl) fun _ _ => .rfl)
    fun _ _ => rfl

theorem tame_compactLazily : Tame compactLazily :=
  Tame.checked (g := checkMutable) (.ite .keep (.ite (Tame.keep.then_move fun _ _ => rfl)
    (.ite tame_compact .keep fun _ _ => .rfl) fun _ _ => .rfl) fun _ _ => .rfl) fun _ _ => rfl

end Updates

section Reads

variable {σ : Type} (b : Buffer) (q : Pool)

theorem read_withPool (i n : Nat) : (b.withPool q).read i n = b.read i n := rfl

theorem scanForward_withPool (feed : Feed σ) (s : σ) (i n : Nat) :
    scanForward feed (b.withPool q) s i n = scanForward feed b s i n := by
  -- Each block is a read, which does not see the pool, and leaves a shorter range.
  induction n using Nat.strongRecOn generalizing i s with
  | ind n ih =>
    rw [scanForward, scanForward]
    split
    · rfl
    · next hn =>
      dsimp only
      rw [read_withPool]
      split
      · rfl
      · split
        · rfl
        · rw [ih _ (by simp only [scanBlock]; omega)]

theorem scanBackward_withPool (feed : Feed σ) (s : σ) (i n : Nat) :
    scanBackward feed (b.withPool q) s i n = scanBackward feed b s i n := by
  induction n using Nat.strongRecOn generalizing s with
  | ind n ih =>
    rw [scanBackward, scanBackward]
    split
    · rfl
    · next hn =>
      dsimp only
      rw [read_withPool]
      split
      · rfl
      · split
        · rfl
        · rw [ih _ (by simp only [scanBlock]; omega)]

theorem scan_withPool (d : Direction) (feed : Feed σ) (s : σ) (i n : Nat) :
    scan d feed (b.withPool q) s i n = scan d feed b s i n := by
  cases d with
  | forward => exact scanForward_withPool b q feed s i n
  | backward => exact scanBackward_withPool b q feed s i n

theorem visitBytes_withPool (d : Direction) (feed : Feed σ) (s : σ) (i n : Nat) :
    (b.withPool q).visitBytes d feed s i n = b.visitBytes d feed s i n := by
  simp only [visitBytes, scan_withPool]
  rfl

theorem distanceIn_withPool (value : UInt8) (i n : Nat) :
    (b.withPool q).distanceIn i n value = b.distanceIn i n value :=
  congrArg (· >>= _) (visitBytes_withPool b q .forward _ _ i n)

theorem answer_withPool (query : Query) : query.answer (b.withPool q) = query.answer b := by
  cases query with
  | findByte start stop value =>
    simp only [Query.answer, findByte, scan_withPool]
    rfl
  | distanceTo value => exact congrArg (_ <$> ·) (distanceIn_withPool b q value _ _)
  | distanceWithin n value =>
    simp only [Query.answer, distanceWithin, distanceIn_withPool]
    rfl
  | distanceIn i n value => exact congrArg (_ <$> ·) (distanceIn_withPool b q value i n)
  | visit d extent processor =>
    cases extent with
    | within i n => exact congrArg (_ <$> ·) (visitBytes_withPool b q d _ processor i n)
    | readable => exact congrArg (_ <$> ·) (visitBytes_withPool b q d _ processor _ _)
  | visitAll i n processors =>
    simp only [Query.answer, visitAll, visitBytes_withPool]
  | _ => rfl

end Reads

section Actions

variable {ε : Type}

def Discreet.modify (f : Buffer → Buffer) (blind : ∀ b q, f (b.withPool q) = (f b).withPool q)
    (storage : ∀ b, (f b).group.storage = b.group.storage) :
    Discreet (Action.modify f : Action ε Buffer Unit) :=
  .update (f := fun b => .ok (f b)) (.of_storage (fun b q => congrArg Except.ok (blind b q))
    fun b _ hc => Except.ok.inj hc ▸ storage b)

def discreetSeek (f : Cursor → Cursor) :
    Discreet (Action.modify (moveCursor f) : Action ε Buffer Unit) :=
  .modify _ (fun _ _ => rfl) fun _ => rfl

def Discreet.map {α β : Type} {x : Action ε Buffer α} (hx : Discreet x) (f : α → β) :
    Discreet (f <$> x) :=
  hx.bind fun v => .pure (f v)

def Discreet.lift {α : Type} {x : Action Fault Buffer α} (hx : Discreet x) :
    Discreet (Arena.lift x) :=
  hx.mapError _

def discreetReserve (n : Nat) : Discreet (reserve n) :=
  .bind (.ask fun _ _ => rfl) fun
    | none => .pure ()
    | some capacity => .resize capacity

def discreetTryReserve (n : Nat) : Discreet (tryReserve n) :=
  .look (fun _ _ => rfl) fun _ => .bind (.ask fun _ _ => rfl) fun _ =>
    .ite (fun _ => .pure _) fun _ => .ite (fun _ => .pure _) fun _ => .ite (fun _ => .pure _) fun _ =>
      (discreetReserve n).bind fun _ => .pure _

def discreetChangeCapacity (n : Nat) : Discreet (changeCapacity n) :=
  .look (fun _ _ => rfl) fun _ => .bind (.ask fun _ _ => rfl) fun _ =>
    .ite (fun _ => .pure _) fun _ => .bind (.resize n) fun _ => discreetSeek _

def discreetAppend (data : Bytes) : Discreet (append data) :=
  (discreetReserve _).bind fun _ => .update (tame_appendInPlace data)

def discreetEach : (chunks : List Bytes) → Discreet (chunks.forM append)
  | [] => .pure _
  | data :: rest => (discreetAppend data).bind fun _ => discreetEach rest

def discreetAppendAll (chunks : List Bytes) : Discreet (appendAll chunks) :=
  (discreetReserve _).bind fun _ => (discreetEach chunks).bind fun _ => .pure _

def discreetConsume (n : Nat) : Discreet (consume n) :=
  .bind (.ask fun _ _ => rfl) fun _ => (discreetSeek _).bind fun _ => .pure _

def discreetConsumeInto (n room : Nat) : Discreet (consumeInto n room) :=
  .bind (.ask fun _ _ => rfl) fun _ => .ite (fun _ => .fail _) fun _ => discreetConsume n

def discreetAppendEncoded (worst : Nat) (bytes : Bytes) : Discreet (appendEncoded worst bytes) :=
  .look (fun _ _ => rfl) fun _ => .bind (.ask fun _ _ => rfl) fun _ =>
    .ite (fun _ => .bind (discreetReserve _) fun _ => (discreetAppend _).bind fun _ => .pure _)
      fun _ => .bind (discreetAppend _) fun _ => .pure _

def discreetReadLine : Discreet readLine :=
  .bind (.ask fun b q => distanceIn_withPool b q 10 _ _) fun
    | none => .pure _
    | some n => (discreetConsume n).bind fun _ => .bind (.update (tame_skip 1)) fun _ => .pure _

def discreetRelease (n : Nat) : Discreet (release n) :=
  .look (fun _ _ => rfl) fun _ => .ite (fun _ => .fail _) fun _ =>
    .ite (fun _ => .bind (.emit _) fun _ => .fail _) fun _ =>
      (Discreet.modify (setCount _) (fun _ _ => rfl) fun _ => rfl).bind fun _ =>
        .ite (fun _ => .bind (.giveBack _) fun _ => .pure _) fun _ => .pure _

end Actions

section Streams

variable {σ : Type}

def Discreet.behind {x : Action (Broken × σ) Buffer (Transferred × σ)} (h : Discreet x) (asked : Nat)
    (piece : Bytes) : Discreet (Buffer.behind asked piece x) :=
  (h.bind fun _ => .pure _).mapError _

theorem loadUpTo_eq (r : Stream.Reader σ) (n : Nat) (s : σ) :
    loadUpTo r n s =
      if n = 0 then pure (⟨0, [], []⟩, s)
      else
        match r.read (min n Stream.blockSize) s with
        | (.interrupted, t) => Buffer.behind (min n Stream.blockSize) [] (loadUpTo r n t)
        | (.broken reason, t) => Action.fail (⟨.stream reason, [min n Stream.blockSize], []⟩, t)
        | (.bytes bytes, t) =>
          if bytes = [] then pure (⟨0, [min n Stream.blockSize], []⟩, t)
          else
            Buffer.behind (min n Stream.blockSize) bytes
              (Action.mapError (fun f => (refused f, t)) (append bytes) >>= fun _ =>
                loadUpTo r (n - bytes.length) t) := by
  fun_cases loadUpTo r n s with
  | case1 hn => rw [if_pos hn]
  | case2 hn asked t hr => rw [if_neg hn, show r.read (min n Stream.blockSize) s = _ from hr]
  | case3 hn asked reason t hr => rw [if_neg hn, show r.read (min n Stream.blockSize) s = _ from hr]
  | case4 hn asked t hr =>
    rw [if_neg hn, show r.read (min n Stream.blockSize) s = _ from hr]
    rfl
  | case5 hn asked bytes t hr hb =>
    rw [if_neg hn, show r.read (min n Stream.blockSize) s = _ from hr]
    exact (if_neg hb).symm

def discreetLoadUpTo (r : Stream.Reader σ) (n : Nat) (s : σ) : Discreet (loadUpTo r n s) :=
  .congr (loadUpTo_eq r n s).symm <| .ite (fun _ => .pure _) fun _hn =>
    match _hr : r.read (min n Stream.blockSize) s with
    | (.interrupted, t) => (discreetLoadUpTo r n t).behind _ _
    | (.broken _, _) => .fail _
    | (.bytes bytes, t) => .ite (fun _ => .pure _) fun _hb =>
      Discreet.behind (.bind ((discreetAppend bytes).mapError _) fun _ =>
        discreetLoadUpTo r (n - bytes.length) t) _ _
termination_by (n, r.patience (min n Stream.blockSize) s)
decreasing_by
  · exact Prod.Lex.right _ (r.patience_lt _hr)
  · have := List.length_pos_iff.2 _hb
    exact Prod.Lex.left _ _ (by omega)

def discreetLoad (r : Stream.Reader σ) (s : σ) : Discreet (load r s) :=
  .look (fun _ _ => rfl) fun _ =>
    .bind (.mapError (.ask fun _ _ => rfl) _) fun _ => discreetLoadUpTo r _ s

def discreetLoadLength (n : Nat) (r : Stream.Reader σ) (s : σ) : Discreet (loadLength n r s) :=
  .bind ((discreetReserve n).mapError _) fun _ => discreetLoadUpTo r n s

def discreetLoadFile : (content : Option Bytes) → Discreet (loadFile content)
  | none => .fail _
  | some _ => ((discreetLoadLength _ _ _).mapError _).map _

theorem storeRest_withPool (w : Stream.Writer σ) (s : σ) (b : Buffer) (q : Pool) :
    storeRest w s (b.withPool q) =
      { storeRest w s b with state := (storeRest w s b).state.withPool q } := by
  have hreadable (b : Buffer) : (b.withPool q).handle.readable = b.handle.readable := rfl
  have hblock (b : Buffer) : (b.withPool q).nextBlock = b.nextBlock := rfl
  have hskip (n : Nat) (b : Buffer) : (b.withPool q).skip n = (b.skip n).map (withPool q) :=
    (tame_skip n).blind b q
  fun_induction storeRest w s b with
  | case3 s b hsome offer hoffer t hw ih =>
    rw [storeRest_eq]
    simp only [hreadable, hsome, hblock, hoffer, hw, if_false, ih]
  | case7 s b hsome offer hoffer n t hw hn c hs ih =>
    rw [storeRest_eq]
    simp only [hreadable, hsome, hblock, hoffer, hw, hn, hskip, hs, Except.map, if_false, ih]
    rfl
  | _ =>
    rw [storeRest_eq]
    simp only [*, if_true, if_false, Except.map]

theorem storeRest_eq_seek (w : Stream.Writer σ) (s : σ) :
    storeRest w s = (Action.current >>= fun b => do
      Action.modify (moveCursor fun _ => (storeRest w s b).state.handle.cursor)
      Action.ask fun _ => (storeRest w s b).result) := by
  funext b
  obtain ⟨n, -, hstate, hevents⟩ := storeRest_seeks w s b
  rw [current_bind]
  generalize storeRest w s b = o at hstate hevents ⊢
  rcases o with ⟨result, c, log⟩
  cases hstate
  cases hevents
  rfl

/-- The loop comes to a move of the cursor and an answer, which do not depend on the pool. -/
def discreetStoreRest (w : Stream.Writer σ) (s : σ) : Discreet (storeRest w s) :=
  .congr (storeRest_eq_seek w s).symm <| .look (fun b q => by rw [storeRest_withPool]; rfl) fun _ =>
    .bind (discreetSeek _) fun _ => .ask fun _ _ => rfl

def discreetStore (script : List Stream.Acceptance) : Discreet (store script) :=
  .map (.mapError (.bind (.mapError (.ask fun _ _ => rfl) _) fun _ => discreetStoreRest _ _) _) _

def discreetStoreFile (reachable : Bool) : Discreet (storeFile reachable) :=
  .ite (fun _ => discreetStore []) fun _ => .fail _

def discreetReadSome (n : Nat) : Discreet (readSome n) :=
  .look (fun _ _ => rfl) fun _ => (discreetConsume _).mapError _

def discreetReadRest : Discreet readRest :=
  .look (fun _ _ => rfl) fun _ => discreetReadSome _

def discreetWriteSome (data : Bytes) : Discreet (writeSome data) :=
  .look (fun _ _ => rfl) fun _ => .ite (fun _ => .pure _) fun _ =>
    .bind ((discreetAppend _).mapError _) fun _ => .pure _

def discreetWriteAll (data : Bytes) : Discreet (writeAll data) :=
  if hdata : data = [] then .congr (hdata ▸ writeAll_nil.symm) (.pure ())
  else .congr (writeAll_eq hdata).symm <| (discreetWriteSome data).bind fun taken =>
    .ite (fun _ => .fail _) fun _ => discreetWriteAll (data.drop taken)
termination_by data.length
decreasing_by
  have := List.length_pos_iff.2 hdata
  rw [List.length_drop]
  omega

end Streams

section Views

def discreetRetainedSlice (i n : Nat) : Discreet (retainedSlice i n) :=
  .bind (.ask fun _ _ => rfl) fun _ => .bind (.ask fun _ _ => rfl) fun _ =>
    .bind (.update (tame_retain 1)) fun _ => .ask fun _ _ => rfl

def discreetRetainedDuplicate : Discreet retainedDuplicate :=
  .bind (.update (tame_retain 1)) fun _ => .ask fun _ _ => rfl

def discreetTakeSlice (n : Nat) : Discreet (takeSlice n) :=
  .bind (.ask fun _ _ => rfl) fun _ => (discreetSeek _).bind fun _ => .pure _

def discreetTakeRetainedSlice (n : Nat) : Discreet (takeRetainedSlice n) :=
  .look (fun _ _ => rfl) fun _ => .bind (.ask fun _ _ => rfl) fun _ => .bind (.ask fun _ _ => rfl)
    fun _ => (discreetRetainedSlice _ _).bind fun _ => (discreetSeek _).bind fun _ => .pure _

end Views

end Buffer

open Buffer

namespace Change

def discreetUpdate {f : Buffer → Except Fault Buffer} (hf : Tame f) : Discreet (update f) :=
  (Discreet.update hf).lift.bind fun _ => .pure _

def discreetMove (f : Cursor → Cursor) : Discreet (move f) := (discreetSeek f).bind fun _ => .pure _

def discreet : (c : Change) → Discreet c.run
  | .setAutoExpand value =>
    (Discreet.modify (Buffer.setAutoExpand value) (fun _ _ => rfl) fun _ => rfl).bind fun _ => .pure _
  | .clear => discreetMove _
  | .markReader => discreetMove _
  | .markWriter => discreetMove _
  | .resetReader => discreetUpdate (tame_setIndexes (fun _ _ => rfl) fun _ _ => rfl)
  | .resetWriter => discreetUpdate (tame_setIndexes (fun _ _ => rfl) fun _ _ => rfl)
  | .setReader index => discreetUpdate (tame_setIndexes (fun _ _ => rfl) fun _ _ => rfl)
  | .setWriter index => discreetUpdate (tame_setIndexes (fun _ _ => rfl) fun _ _ => rfl)
  | .setIndexes reader writer => discreetUpdate (tame_setIndexes (fun _ _ => rfl) fun _ _ => rfl)
  | .skip n => discreetUpdate (tame_skip n)
  | .reserve n => (discreetReserve n).lift.bind fun _ => .pure _
  | .tryReserve n => (discreetTryReserve n).lift.map _
  | .changeCapacity n => (discreetChangeCapacity n).lift.bind fun _ => .pure _
  | .compact => discreetUpdate tame_compact
  | .compactLazily => discreetUpdate tame_compactLazily
  | .consume n => (discreetConsume n).lift.map _
  | .consumeInto n room => (discreetConsumeInto n room).lift.map _
  | .setBytes index data => discreetUpdate (tame_write index data)
  | .setZero index length => discreetUpdate (tame_setZero index length)
  | .append data => (discreetAppend data).lift.bind fun _ => .pure _
  | .appendZero n =>
    .congr (by rw [run, appendZero_eq]) ((discreetAppend (Bytes.zeros n)).lift.bind fun _ => .pure .done)
  | .appendAll chunks => (discreetAppendAll chunks).lift.map _
  | .overwriteArray data =>
    .look (fun _ _ => rfl) fun _ => (Discreet.update (tame_overwriteArray data)).lift.bind fun _ =>
      .pure _
  | .overwriteWritable data =>
    .look (fun _ _ => rfl) fun _ => (Discreet.update (tame_overwriteWritable data)).lift.bind fun _ =>
      .pure _
  | .retain n => discreetUpdate (tame_retain n)
  | .release n => (discreetRelease n).lift.map _
  | .setScalar index value => discreetUpdate (tame_setScalar index value)
  | .readScalar type => ((discreetConsume _).bind fun _ => .pure _).lift.map _
  | .writeScalar value =>
    (Discreet.bind (.ask fun _ _ => rfl) fun _ => discreetAppend _).lift.bind fun _ => .pure _
  | .setString index text charset =>
    (Discreet.update (tame_write index _)).lift.bind fun _ => .pure _
  | .readString n charset => ((discreetConsume _).bind fun _ => .pure _).lift.map _
  | .writeString text charset => (discreetAppendEncoded _ _).lift.map _
  | .writeLine text => (discreetAppendEncoded _ _).lift.map _
  | .readLine => discreetReadLine.lift.map _
  | .load script => ((discreetLoad _ _).mapError _).map _
  | .loadLength n script => ((discreetLoadLength n _ _).mapError _).map _
  | .loadFile content => ((discreetLoadFile content).mapError _).map _
  | .store script => ((discreetStore script).mapError _).map _
  | .storeFile reachable => ((discreetStoreFile reachable).mapError _).map _
  | .readSome n => ((discreetReadSome n).mapError _).map _
  | .readRest => (discreetReadRest.mapError _).map _
  | .writeSome data => ((discreetWriteSome data).mapError _).map _
  | .writeAll data => ((discreetWriteAll data).mapError _).bind fun _ => .pure _
  | .flush => .pure _

end Change

namespace Derivation

def view : (d : Derivation) → d.copies = false → Action Fault Buffer Handle
  | .slice extent, _ => Action.ask fun b => b.slice (place b extent).1 (place b extent).2
  | .duplicate, _ => Action.ask Buffer.duplicate
  | .retainedSlice extent, _ => Action.current >>= fun b =>
    Buffer.retainedSlice (place b extent).1 (place b extent).2
  | .retainedDuplicate, _ => Buffer.retainedDuplicate
  | .takeSlice n, _ => Buffer.takeSlice n
  | .takeRetainedSlice n, _ => Buffer.takeRetainedSlice n
  | .readOnlyView, _ => Action.ask Buffer.readOnlyView
  | .whole, _ => Action.ask Buffer.whole

theorem run_eq_view {d : Derivation} (hd : d.copies = false) :
    d.run = (fun h => (h, none)) <$> d.view hd := by
  cases d with
  | copy extent => cases hd
  | takeCopy n => cases hd
  | retainedSlice extent => exact (Action.bind_assoc _ _ _).symm
  | _ => rfl

def discreetView : (d : Derivation) → (hd : d.copies = false) → Discreet (d.view hd)
  | .slice extent, _ => .ask fun _ _ => by cases extent <;> rfl
  | .duplicate, _ => .ask fun _ _ => rfl
  | .retainedSlice extent, _ => .look (fun _ _ => by cases extent <;> rfl) fun _ => discreetRetainedSlice _ _
  | .retainedDuplicate, _ => discreetRetainedDuplicate
  | .takeSlice n, _ => discreetTakeSlice n
  | .takeRetainedSlice n, _ => discreetTakeRetainedSlice n
  | .readOnlyView, _ => .ask fun _ _ => rfl
  | .whole, _ => .ask fun _ _ => rfl

def discreet (d : Derivation) (hd : d.copies = false) : Discreet d.run :=
  .congr (run_eq_view hd).symm ((d.discreetView hd).map _)

def copied (b : Buffer) : Derivation → Option Nat
  | .copy extent =>
    if 0 < b.group.count ∧ (place b extent).1 + (place b extent).2 ≤ b.handle.capacity then
      some (place b extent).2
    else none
  | .takeCopy n => if 0 < b.group.count ∧ n ≤ b.handle.readable then some n else none
  | _ => none

def borrowing (b : Buffer) (d : Derivation) : List Request :=
  (d.copied b).toList.map fun n => .lend b.group.kind n (max b.handle.maxCapacity n)

variable {d : Derivation} {b : Buffer} {n : Nat}

open SharedBuffer.Action (current_bind ask_bind_of_ok ask_bind_of_error)

def Answered (b : Buffer) (n : Nat) (o : Outcome Fault Buffer (Handle × Option Storage)) : Prop :=
  let lent := Pool.lend b.group.kind n (max b.handle.maxCapacity n) b.pool
  match lent.result with
  | .error f => o = ⟨.error f, { b with pool := lent.state }, lent.events⟩
  | .ok s => ∃ h t c, t.shape = s.shape ∧ c.group = b.group ∧ c.pool = lent.state ∧
      o = ⟨.ok (h, some t), c, lent.events⟩

theorem answered_copy (hb : b.Valid) (live : 0 < b.group.count) {i : Nat}
    (hin : i + n ≤ b.handle.capacity) (taken : Nat) :
    Answered b n ((Buffer.copy i n >>= fun made => do
      Action.modify (moveCursor (Cursor.advanceReader taken))
      return (made.1, some made.2)) b) := by
  have hbounds : checkBounds i n b.handle.capacity = .ok () :=
    (checkBounds_eq_ok_iff hb.handle.capacity_le_largest).2 hin
  unfold Answered
  rcases ho : Pool.lend b.group.kind n (max b.handle.maxCapacity n) b.pool with ⟨f | s, p, log⟩
  · exact Action.bind_of_error (copy_of_refused live hbounds ho)
  · obtain ⟨bytes, -, hlen, hcap, hcopy⟩ := copy_of_lend hb live hin ho
    refine ⟨_, _, _, Storage.shape_splice ?_, ?_, ?_, (Action.bind_of_ok hcopy).trans
      (congrArg (Outcome.mk _ _) (List.append_nil log))⟩
    · rw [hlen, Nat.zero_add]
      exact Nat.le_of_eq hcap.symm
    · rfl
    · rfl

theorem run_of_copied (hb : b.Valid) (h : d.copied b = some n) : Answered b n (d.run b) := by
  cases d with
  | copy extent =>
    simp only [copied, Option.ite_none_right_eq_some, Option.some.injEq] at h
    obtain ⟨⟨live, hin⟩, rfl⟩ := h
    rw [run, current_bind]
    exact answered_copy hb live hin 0
  | takeCopy k =>
    simp only [copied, Option.ite_none_right_eq_some, Option.some.injEq] at h
    obtain ⟨⟨live, hread⟩, rfl⟩ := h
    have hlive : b.checkLive = .ok () := (checkLive_eq_ok_iff b).2 live
    have hreadable := Cursor.checkReadable_eq_ok_iff.2 hread
    have hin : b.handle.reader + k ≤ b.handle.capacity := by
      have hle := readable_le hb
      omega
    simp only [run, Buffer.takeCopy, Action.bind_assoc]
    rw [current_bind, ask_bind_of_ok hlive,
      ask_bind_of_ok (g := fun b : Buffer => b.handle.cursor.checkReadable k) hreadable]
    exact answered_copy hb live hin k
  | _ => cases h

theorem run_of_not_copied (hd : d.copies = true) (h : d.copied b = none) :
    ∃ f, d.run b = ⟨.error f, b, []⟩ := by
  cases hlive : b.checkLive with
  | error f =>
    refine ⟨f, ?_⟩
    cases d with
    | copy extent =>
      have hcopy (i n : Nat) : Buffer.copy i n b = ⟨.error f, b, []⟩ := by
        rw [Buffer.copy, current_bind, ask_bind_of_error hlive]
      rw [run, current_bind, Action.bind_of_error (hcopy _ _)]
    | takeCopy k =>
      rw [run, Buffer.takeCopy, Action.bind_of_error]
      rw [current_bind, ask_bind_of_error hlive]
    | _ => cases hd
  | ok =>
    have live := (checkLive_eq_ok_iff b).1 hlive
    cases d with
    | copy extent =>
      have hout : b.handle.capacity < (place b extent).1 + (place b extent).2 := by
        refine Nat.lt_of_not_le fun hin => ?_
        simp only [copied, if_pos (And.intro live hin)] at h
        cases h
      have hcopy {i n : Nat} (hout : b.handle.capacity < i + n) :
          Buffer.copy i n b = ⟨.error (.rangeOutside i n b.handle.capacity), b, []⟩ := by
        rw [Buffer.copy, current_bind, ask_bind_of_ok hlive]
        exact ask_bind_of_error (g := fun b : Buffer => checkBounds i n b.handle.capacity)
          (checkBounds_of_lt hout)
      refine ⟨.rangeOutside (place b extent).1 (place b extent).2 b.handle.capacity, ?_⟩
      rw [run, current_bind, Action.bind_of_error (hcopy hout)]
    | takeCopy k =>
      have hread : b.handle.cursor.checkReadable k ≠ .ok () := fun hok => by
        have hle : k ≤ b.handle.readable := Cursor.checkReadable_eq_ok_iff.1 hok
        simp only [copied, if_pos (And.intro live hle)] at h
        cases h
      cases hcheck : b.handle.cursor.checkReadable k with
      | ok u => exact absurd hcheck hread
      | error f =>
        refine ⟨f, ?_⟩
        rw [run, Buffer.takeCopy, Action.bind_of_error]
        rw [current_bind, ask_bind_of_ok hlive]
        exact ask_bind_of_error (g := fun b : Buffer => b.handle.cursor.checkReadable k) hcheck
    | _ => cases hd

end Derivation

end SharedBuffer
