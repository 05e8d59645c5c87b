import SharedBuffer.Buffer.Reserve

/-!
Moving bytes in and out of a buffer at its indexes. Appending grows the buffer as far as it may;
consuming takes bytes from the front of the readable region.
-/

namespace SharedBuffer.Buffer

def appendInPlace (data : Bytes) (b : Buffer) : Except Fault Buffer := do
  let written ← b.write b.handle.writer data
  return written.moveCursor (Cursor.advanceWriter data.length)

def append (data : Bytes) : Action Fault Buffer Unit := do
  reserve data.length
  Action.update (appendInPlace data)

def setZero (index length : Nat) (b : Buffer) : Except Fault Buffer := do
  b.checkMutable
  let (s, start) ← b.locate index length
  return b.setStorage { s with bytes := s.bytes.splice start (Bytes.zeros length) }

def appendZeroInPlace (n : Nat) (b : Buffer) : Except Fault Buffer := do
  let written ← b.setZero b.handle.writer n
  return written.moveCursor (Cursor.advanceWriter n)

def appendZero (n : Nat) : Action Fault Buffer Unit := do
  reserve n
  Action.update (appendZeroInPlace n)

def appendAll (chunks : List Bytes) : Action Fault Buffer Nat := do
  let total := chunks.flatten.length
  reserve total
  chunks.forM append
  return total

def consume (n : Nat) : Action Fault Buffer Bytes := do
  let bytes ← Action.ask (peek n)
  Action.modify (moveCursor (Cursor.advanceReader n))
  return bytes

def consumeInto (n room : Nat) : Action Fault Buffer Bytes := do
  Action.ask checkLive
  if room < n then Action.fail (.destinationFull n room)
  else consume n

def wholeArray (b : Buffer) : Except Fault Bytes := do
  b.checkLive
  let s ← b.heldStorage
  match s.array? with
  | none => .error .noArray
  | some bytes => .ok bytes

def checkArray (b : Buffer) : Except Fault Unit :=
  if b.group.kind = .heap then .ok () else .error .noArray

def arrayOffset (b : Buffer) : Except Fault Nat := do
  b.checkArray
  return b.handle.offset

def overwriteArray (data : Bytes) (b : Buffer) : Except Fault Buffer := do
  b.checkMutable
  b.checkArray
  b.overwrite 0 b.handle.capacity data

def overwriteWritable (data : Bytes) (b : Buffer) : Except Fault Buffer := do
  b.checkLive
  b.overwrite b.handle.writer b.handle.writable data

/-- Copies `[index, index + length)` of one buffer over a part of another. The destination is
checked before the source is read. -/
def copyOver (source : Buffer) (index destIndex length : Nat) (dest : Buffer) :
    Except Fault Buffer := do
  dest.checkMutable
  checkBounds destIndex length dest.handle.capacity
  let bytes ← source.read index length
  dest.write destIndex bytes

def compareContent (b other : Buffer) : Except Fault Ordering := do
  let theirs ← other.content
  let ours ← b.content
  return compareOfLessAndEq ours theirs

/-- Regions of different lengths are told apart without reading them. -/
def sameContent (b other : Buffer) : Except Fault Bool :=
  if b.handle.readable = other.handle.readable then do
    let order ← b.compareContent other
    return order == .eq
  else .ok false

end SharedBuffer.Buffer
