import SharedBuffer.Buffer.Basic
import SharedBuffer.Capacity

/-!
Room to write: growing a buffer on demand, setting its capacity outright, and winning room back by
dropping the bytes that have been read. The storage is replaced only if it is too small, or if it
is too large and no other handle needs it; until then a smaller capacity is a smaller window.
-/

namespace SharedBuffer.Buffer

def needsReplacement (capacity : Nat) (s : Storage) (shared : Bool) : Bool :=
  s.capacity < capacity || (!shared && capacity < s.capacity)

def setCapacity (capacity : Nat) (b : Buffer) : Buffer :=
  { b with handle := { b.handle with capacity } }

def replaceStorage (old : Storage) (capacity : Nat) : Action Fault Buffer Unit := do
  let new ← onPool (Pool.relend old capacity)
  Action.modify (setStorage new)
  onPool (Pool.takeBack old)

def resize (capacity : Nat) : Action Fault Buffer Unit := do
  let b ← Action.current
  let s ← Action.ask heldStorage
  let replaced := needsReplacement capacity s b.shared
  if replaced then replaceStorage s capacity
  Action.modify (setCapacity capacity)
  Action.emit
    (.capacityAdjusted b.handle.capacity capacity b.handle.maxCapacity b.shared replaced)

def growthFor (n : Nat) (b : Buffer) : Except Fault (Option Nat) := do
  b.checkMutable
  if n ≤ b.handle.writable then return none
  else if b.handle.canGrow then
    match Word.add? b.handle.writer n with
    | none => .error (.growthOverflow b.handle.writer n)
    | some required =>
      let capacity ← Capacity.next b.handle.capacity required b.handle.maxCapacity
      return some capacity
  else .error (.growthDisabled b.handle.writer n b.handle.capacity)

def reserve (n : Nat) : Action Fault Buffer Unit := do
  match ← Action.ask (growthFor n) with
  | none => pure ()
  | some capacity => resize capacity

inductive Reservation where
  | alreadyWritable
  | grown
  | capacityExceeded
  | notExpandable
  deriving DecidableEq, Repr

def Reservation.name : Reservation → String
  | .alreadyWritable => "AlreadyWritable"
  | .grown => "Grown"
  | .capacityExceeded => "CapacityExceeded"
  | .notExpandable => "NotExpandable"

def tryReserve (n : Nat) : Action Fault Buffer Reservation := do
  let b ← Action.current
  Action.ask checkMutable
  if n ≤ b.handle.writable then return .alreadyWritable
  else if !b.handle.canGrow then return .notExpandable
  else if b.handle.maxWritable < n then return .capacityExceeded
  else
    reserve n
    return .grown

def checkCapacity (capacity : Nat) (b : Buffer) : Except Fault Unit := do
  b.checkMutable
  if b.handle.origin = .slice then .error .sliceFixed
  else if b.handle.maxCapacity < capacity then
    .error (.resizeAboveMax capacity b.handle.maxCapacity)
  else .ok ()

def changeCapacity (capacity : Nat) : Action Fault Buffer Unit := do
  let b ← Action.current
  Action.ask (checkCapacity capacity)
  if capacity = b.handle.capacity then pure ()
  else
    resize capacity
    Action.modify (moveCursor (Cursor.truncate capacity))

def moveReadable (b : Buffer) : Except Fault Buffer :=
  if b.handle.readable = 0 then .ok b
  else do
    let s ← b.heldStorage
    let s ← s.moveRange (b.handle.offset + b.handle.reader) b.handle.readable b.handle.offset
    return b.setStorage s

def compact (b : Buffer) : Except Fault Buffer := do
  b.checkMutable
  if b.handle.reader = 0 then return b
  else
    let moved ← b.moveReadable
    return moved.moveCursor (Cursor.shift b.handle.reader)

/-- Discards only where it is cheap or frees half of the window: an empty readable region needs no
move. -/
def compactLazily (b : Buffer) : Except Fault Buffer := do
  b.checkMutable
  if b.handle.reader = 0 then return b
  else if b.handle.reader = b.handle.writer then
    return b.moveCursor (Cursor.shift b.handle.reader)
  else if b.handle.capacity / 2 ≤ b.handle.reader then b.compact
  else return b

end SharedBuffer.Buffer
