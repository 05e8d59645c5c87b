import SharedBuffer.Buffer.Index
import SharedBuffer.Buffer.Search
import SharedBuffer.Buffer.Transfer
import SharedBuffer.Scalar
import SharedBuffer.Text.Charset

/-!
Scalars and strings in a buffer, at an index of the window or at the cursor.
-/

namespace SharedBuffer.Buffer

def getScalar (t : ScalarType) (index : Nat) (b : Buffer) : Except Fault Scalar := do
  let bytes ← b.read index t.width
  return t.read bytes

/-- A scalar without a form in bytes is refused before the buffer is looked at. -/
def setScalar (index : Nat) (v : Scalar) (b : Buffer) : Except Fault Buffer := do
  let bytes ← v.bytes
  b.write index bytes

def readScalar (t : ScalarType) : Action Fault Buffer Scalar := do
  let bytes ← consume t.width
  return t.read bytes

def writeScalar (v : Scalar) : Action Fault Buffer Unit := do
  let bytes ← Action.ask fun _ => v.bytes
  append bytes

/-- Whether to make room for the worst length of a text before writing it: only if that is needed
and allowed. -/
def wantsReserve (worst : Nat) (h : Handle) : Bool :=
  h.autoExpand && h.writable < worst && worst ≤ h.maxWritable

def appendEncoded (worst : Nat) (bytes : Bytes) : Action Fault Buffer Nat := do
  let b ← Action.current
  Action.ask checkMutable
  if wantsReserve worst b.handle then reserve worst
  append bytes
  return bytes.length

def writeString (text : List Char) (charset : Charset) : Action Fault Buffer Nat :=
  appendEncoded (charset.worstLength text) (charset.encode text)

def writeLine (text : List Char) : Action Fault Buffer Nat :=
  appendEncoded (Word.addSaturating (Charset.utf8.worstLength text) 1)
    (Charset.utf8.encode text ++ [10])

def setString (index : Nat) (text : List Char) (charset : Charset) (b : Buffer) :
    Except Fault Buffer :=
  b.write index (charset.encode text)

def getString (index length : Nat) (charset : Charset) (b : Buffer) : Except Fault (List Char) := do
  let bytes ← b.read index length
  return charset.decode bytes

def readString (n : Nat) (charset : Charset) : Action Fault Buffer (List Char) := do
  let bytes ← consume n
  return charset.decode bytes

def contentString (charset : Charset) (b : Buffer) : Except Fault (List Char) := do
  let bytes ← b.content
  return charset.decode bytes

def trimReturn (line : Bytes) : Bytes :=
  if line.getLast? = some 13 then line.dropLast else line

def readLine : Action Fault Buffer (Option (List Char)) := do
  match ← Action.ask (distanceTo 10) with
  | none => return none
  | some n =>
    let line ← consume n
    Action.update (skip 1)
    return some (Charset.utf8.decode (trimReturn line))

end SharedBuffer.Buffer
