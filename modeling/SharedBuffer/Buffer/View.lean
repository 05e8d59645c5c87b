import SharedBuffer.Buffer.Count
import SharedBuffer.Buffer.Index

/-!
New handles from a buffer: views, which join its group, and copies, which found a group of their
own on a storage from the same pool.
-/

namespace SharedBuffer.Buffer

def slice (index length : Nat) (b : Buffer) : Except Fault Handle := do
  b.checkLive
  checkBounds index length b.handle.capacity
  return b.handle.slice index length

def duplicate (b : Buffer) : Except Fault Handle := do
  b.checkLive
  return b.handle.duplicate

def readOnlyView (b : Buffer) : Except Fault Handle := do
  let h ← b.duplicate
  return { h with readOnly := true }

def whole (b : Buffer) : Except Fault Handle :=
  if b.handle.origin = .root then b.duplicate
  else do
    b.checkLive
    let s ← b.heldStorage
    return b.handle.whole s

def retainedSlice (index length : Nat) : Action Fault Buffer Handle := do
  Action.ask checkLive
  Action.ask fun b => checkBounds index length b.handle.capacity
  Action.update (retain 1)
  Action.ask (slice index length)

def retainedDuplicate : Action Fault Buffer Handle := do
  Action.update (retain 1)
  Action.ask duplicate

def takeSlice (n : Nat) : Action Fault Buffer Handle := do
  let h ← Action.ask fun b => do
    b.checkLive
    b.handle.cursor.checkReadable n
    b.slice b.handle.reader n
  Action.modify (moveCursor (Cursor.advanceReader n))
  return h

def takeRetainedSlice (n : Nat) : Action Fault Buffer Handle := do
  let b ← Action.current
  Action.ask checkLive
  Action.ask fun b => b.handle.cursor.checkReadable n
  let h ← retainedSlice b.handle.reader n
  Action.modify (moveCursor (Cursor.advanceReader n))
  return h

def fillFrom (s : Storage) (index length : Nat) (b : Buffer) : Except Fault Storage := do
  let bytes ← b.read index length
  s.writeRange 0 bytes

/-- A handle of its own with the bytes of `[index, index + length)`, and the storage under it. It is
had first and filled then, or else handed back. -/
def copy (index length : Nat) : Action Fault Buffer (Handle × Storage) := do
  let b ← Action.current
  Action.ask checkLive
  Action.ask fun b => checkBounds index length b.handle.capacity
  let maxCapacity := max b.handle.maxCapacity length
  let s ← onPool (Pool.lend b.group.kind length maxCapacity)
  let filled ← Action.orUndo (Action.ask (fillFrom s index length)) (onPool (Pool.takeBack s))
  return (Handle.root length maxCapacity length b.handle.autoExpand, filled)

def takeCopy (n : Nat) : Action Fault Buffer (Handle × Storage) := do
  let b ← Action.current
  Action.ask checkLive
  Action.ask fun b => b.handle.cursor.checkReadable n
  let made ← copy b.handle.reader n
  Action.modify (moveCursor (Cursor.advanceReader n))
  return made

end SharedBuffer.Buffer
