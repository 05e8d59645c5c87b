import SharedBuffer.Buffer.Basic
import SharedBuffer.Scan

/-!
Searching a window. Scans read the storage in blocks, forwards or backwards, and feed a processor
until it stops; the position found is an index of the window.
-/

namespace SharedBuffer.Buffer

def scanBlock : Nat := 256

variable {σ : Type}

def scanForward (feed : Feed σ) (b : Buffer) (s : σ) (index length : Nat) :
    Except Fault (Visit σ) :=
  if _h : length = 0 then .ok ⟨none, [], s⟩
  else
    let n := min length scanBlock
    match b.read index n with
    | .error f => .error f
    | .ok bytes =>
      let v := Visit.ofBytes feed s bytes
      match v.stop with
      | some i => .ok { v with stop := some (index + i) }
      | none =>
        match scanForward feed b v.state (index + n) (length - n) with
        | .error f => .error f
        | .ok w => .ok (v.andThen w)
termination_by length
decreasing_by
  simp only [scanBlock]
  omega

def scanBackward (feed : Feed σ) (b : Buffer) (s : σ) (index length : Nat) :
    Except Fault (Visit σ) :=
  if _h : length = 0 then .ok ⟨none, [], s⟩
  else
    let n := min length scanBlock
    let start := index + (length - n)
    match b.read start n with
    | .error f => .error f
    | .ok bytes =>
      let v := Visit.ofBytes feed s bytes.reverse
      match v.stop with
      | some i => .ok { v with stop := some (start + (n - 1 - i)) }
      | none =>
        match scanBackward feed b v.state index (length - n) with
        | .error f => .error f
        | .ok w => .ok (v.andThen w)
termination_by length
decreasing_by
  simp only [scanBlock]
  omega

inductive Direction where
  | forward
  | backward
  deriving DecidableEq, Repr

def scan (d : Direction) (feed : Feed σ) (b : Buffer) (s : σ) (index length : Nat) :
    Except Fault (Visit σ) :=
  match d with
  | .forward => scanForward feed b s index length
  | .backward => scanBackward feed b s index length

def visitBytes (d : Direction) (feed : Feed σ) (s : σ) (index length : Nat) (b : Buffer) :
    Except Fault (Visit σ) := do
  b.checkLive
  checkBounds index length b.handle.capacity
  scan d feed b s index length

def visitReadable (d : Direction) (feed : Feed σ) (s : σ) (b : Buffer) :
    Except Fault (Visit σ) :=
  b.visitBytes d feed s b.handle.reader b.handle.readable

def visitAll (feed : Feed σ) (ps : List σ) (index length : Nat) (b : Buffer) :
    Except Fault (Visit (List σ)) :=
  if ps.isEmpty then .error .noProcessor
  else b.visitBytes .forward (feedEach feed) ps index length

/-- The range is cut off at the end of the window and searched backwards if it is given so. -/
def findByte (start stop : Nat) (value : UInt8) (b : Buffer) : Except Fault (Option Nat) := do
  b.checkLive
  let low := min start stop
  let high := min (max start stop) b.handle.capacity
  let direction : Direction := if start ≤ stop then .forward else .backward
  if high ≤ low then return none
  else
    let v ← scan direction Processor.feed b (.stopIn [value]) low (high - low)
    return v.stop

def haystack (start stop : Nat) (pattern : Bytes) (b : Buffer) : Except Fault Bytes :=
  if pattern.isEmpty then .error .emptyPattern
  else do
    b.checkLive
    let stop := min stop b.handle.capacity
    if stop ≤ start ∨ stop - start < pattern.length then return []
    else b.read start (stop - start)

def findFirst (start stop : Nat) (pattern : Bytes) (b : Buffer) :
    Except Fault (Option Nat) := do
  let bytes ← b.haystack start stop pattern
  return (Bytes.firstOccurrence? pattern bytes).map (start + ·)

def findLast (start stop : Nat) (pattern : Bytes) (b : Buffer) :
    Except Fault (Option Nat) := do
  let bytes ← b.haystack start stop pattern
  return (Bytes.lastOccurrence? pattern bytes).map (start + ·)

def distanceIn (index length : Nat) (value : UInt8) (b : Buffer) :
    Except Fault (Option Nat) := do
  let v ← b.visitBytes .forward Processor.feed (.stopIn [value]) index length
  return v.stop.map (· - index)

def distanceTo (value : UInt8) (b : Buffer) : Except Fault (Option Nat) :=
  b.distanceIn b.handle.reader b.handle.readable value

def distanceWithin (n : Nat) (value : UInt8) (b : Buffer) : Except Fault (Option Nat) := do
  b.checkLive
  b.handle.cursor.checkReadable n
  b.distanceIn b.handle.reader n value

end SharedBuffer.Buffer
