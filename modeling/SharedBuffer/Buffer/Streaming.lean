import SharedBuffer.Buffer.Index
import SharedBuffer.Buffer.Transfer
import SharedBuffer.Stream

/-!
Buffers and streams. Loading appends what a source delivers, storing hands the readable bytes to a
sink; both keep what was transferred before a failure. A buffer is also itself a stream, which is
read to its end and written as far as there is room.
-/

namespace SharedBuffer.Buffer

structure Broken where
  fault : Fault
  asked : List Nat
  taken : Bytes
  deriving DecidableEq, Repr

structure Transferred where
  count : Nat
  asked : List Nat
  taken : Bytes
  deriving DecidableEq, Repr

def refused (f : Fault) : Broken := ⟨f, [], []⟩

variable {σ : Type}

def behind (asked : Nat) (bytes : Bytes) (x : Action (Broken × σ) Buffer (Transferred × σ)) :
    Action (Broken × σ) Buffer (Transferred × σ) :=
  Action.mapError (fun (e, t) => (⟨e.fault, asked :: e.asked, bytes ++ e.taken⟩, t)) do
    let (x, t) ← x
    return (⟨bytes.length + x.count, asked :: x.asked, bytes ++ x.taken⟩, t)

/-- Asks block by block, and appends what each request brings, until `demand` bytes have come or the
source ends or breaks. An interrupted request is made again. The source is given back as it is then. -/
def loadUpTo (r : Stream.Reader σ) (demand : Nat) (s : σ) :
    Action (Broken × σ) Buffer (Transferred × σ) :=
  if _hd : demand = 0 then pure (⟨0, [], []⟩, s)
  else
    let asked := min demand Stream.blockSize
    match _hr : r.read asked s with
    | (.interrupted, t) => behind asked [] (loadUpTo r demand t)
    | (.broken reason, t) => Action.fail (⟨.stream reason, [asked], []⟩, t)
    | (.bytes bytes, t) =>
      if _hb : bytes = [] then pure (⟨0, [asked], []⟩, t)
      else
        behind asked bytes do
          Action.mapError (fun f => (refused f, t)) (append bytes)
          loadUpTo r (demand - bytes.length) t
termination_by (demand, r.patience (min demand Stream.blockSize) s)
decreasing_by
  · exact Prod.Lex.right _ (r.patience_lt _hr)
  · have := List.length_pos_iff.2 _hb
    exact Prod.Lex.left _ _ (by omega)

def load (r : Stream.Reader σ) (s : σ) : Action (Broken × σ) Buffer (Transferred × σ) := do
  let b ← Action.current
  Action.mapError (fun f => (refused f, s)) (Action.ask checkMutable)
  loadUpTo r b.handle.writable s

def loadLength (n : Nat) (r : Stream.Reader σ) (s : σ) :
    Action (Broken × σ) Buffer (Transferred × σ) := do
  Action.mapError (fun f => (refused f, s)) (reserve n)
  loadUpTo r n s

def noSuchFile : Fault := .stream "No such file or directory (os error 2)"

def loadFile : Option Bytes → Action Broken Buffer Transferred
  | none => Action.fail (refused noSuchFile)
  | some bytes =>
    Prod.fst <$> Action.mapError Prod.fst
      (loadLength bytes.length Stream.Source.reader (.ofScript [.chunk bytes]))

def nextBlock (b : Buffer) : Except Fault Bytes :=
  b.read b.handle.reader (min b.handle.readable Stream.blockSize)

theorem readable_lt_of_skip {n : Nat} {b c : Buffer} (h : b.skip n = .ok c) (hn : n ≠ 0) :
    c.handle.readable < b.handle.readable := by
  obtain ⟨-, hle, rfl⟩ := skip_eq_ok h
  simp only [Handle.readable, moveCursor, Handle.moveCursor, Cursor.readable,
    Cursor.advanceReader] at hle ⊢
  omega

def further (n : Nat) (o : Outcome (Fault × σ) Buffer (Nat × σ)) :
    Outcome (Fault × σ) Buffer (Nat × σ) :=
  { o with result := o.result.map fun (count, s) => (n + count, s) }

def storeRest (w : Stream.Writer σ) (s : σ) (b : Buffer) : Outcome (Fault × σ) Buffer (Nat × σ) :=
  if b.handle.readable = 0 then ⟨.ok (0, s), b, []⟩
  else
    match _hb : b.nextBlock with
    | .error f => ⟨.error (f, s), b, []⟩
    | .ok offer =>
      match _hw : w.write offer s with
      | (.interrupted, t) => storeRest w t b
      | (.broken reason, t) => ⟨.error (.stream reason, t), b, []⟩
      | (.took n, t) =>
        if _hn : n = 0 then ⟨.ok (0, t), b, []⟩
        else
          match _hs : b.skip n with
          | .error f => ⟨.error (f, t), b, []⟩
          | .ok c => further n (storeRest w t c)
termination_by (b.handle.readable, (b.nextBlock.toOption.map (w.patience · s)).getD 0)
decreasing_by
  · apply Prod.Lex.right
    simp only [_hb, Except.toOption, Option.map_some, Option.getD_some]
    exact w.patience_lt _hw
  · exact Prod.Lex.left _ _ (readable_lt_of_skip _hs _hn)

def storeTo (w : Stream.Writer σ) (s : σ) : Action (Fault × σ) Buffer (Nat × σ) := do
  Action.mapError (fun f => (f, s)) (Action.ask checkLive)
  storeRest w s

def store (script : List Stream.Acceptance) : Action Broken Buffer Transferred :=
  (fun (count, sink) => ⟨count, sink.offered, sink.taken⟩) <$>
    Action.mapError (fun (f, sink) => ⟨f, sink.offered, sink.taken⟩)
      (storeTo Stream.Sink.writer (.ofScript script))

def storeFile (reachable : Bool) : Action Broken Buffer Transferred :=
  if reachable then store [] else Action.fail (refused noSuchFile)

inductive StreamFault where
  | buffer (fault : Fault)
  | nothingWritten
  deriving DecidableEq, Repr

def StreamFault.message : StreamFault → String
  | .buffer fault => (fault.report?.map Report.display).getD fault.message
  | .nothingWritten => "failed to write whole buffer"

def readSome (n : Nat) : Action StreamFault Buffer Bytes := do
  let b ← Action.current
  Action.mapError StreamFault.buffer (consume (min n b.handle.readable))

def readRest : Action StreamFault Buffer Bytes := do
  let b ← Action.current
  readSome b.handle.readable

def room (h : Handle) : Nat := if h.autoExpand then h.maxWritable else h.writable

def writeSome (data : Bytes) : Action StreamFault Buffer Nat := do
  let b ← Action.current
  let n := min data.length (room b.handle)
  if n = 0 then return 0
  else
    Action.mapError StreamFault.buffer (append (data.take n))
    return n

def writeAll (data : Bytes) : Action StreamFault Buffer Unit :=
  if _h : data = [] then pure ()
  else fun b =>
    match writeSome data b with
    | ⟨.error f, b', log⟩ => ⟨.error f, b', log⟩
    | ⟨.ok n, b', log⟩ =>
      if _hn : n = 0 then ⟨.error .nothingWritten, b', log⟩
      else
        let o := writeAll (data.drop n) b'
        ⟨o.result, o.state, log ++ o.events⟩
termination_by data.length
decreasing_by
  have := List.length_pos_iff.2 _h
  simp only [List.length_drop]
  omega

end SharedBuffer.Buffer
