import SharedBuffer.Handle
import SharedBuffer.Pool

/-!
A buffer is a handle seen together with its group, the pool that lent the storage, and whether the
group has further handles. Everything that one handle does is an action on a buffer. Here are the
checks and the two ways to the bytes: reading a window and overwriting one.
-/

namespace SharedBuffer

structure Buffer where
  handle : Handle
  group : Group
  pool : Pool
  shared : Bool

namespace Buffer

def checkLive (b : Buffer) : Except Fault Unit :=
  if b.group.isReleased then .error .released else .ok ()

def checkMutable (b : Buffer) : Except Fault Unit := do
  b.checkLive
  if b.handle.readOnly then .error .readOnly else .ok ()

theorem checkLive_eq_ok_iff (b : Buffer) : b.checkLive = .ok () ↔ 0 < b.group.count := by
  unfold checkLive Group.isReleased
  by_cases h : b.group.count = 0
  · simp [h]
  · simp [h]
    omega

theorem checkMutable_eq_ok_iff (b : Buffer) :
    b.checkMutable = .ok () ↔ 0 < b.group.count ∧ b.handle.readOnly = false := by
  rw [← b.checkLive_eq_ok_iff]
  unfold checkMutable
  rcases b.checkLive with f | ⟨⟩
  · simp [bind, Except.bind]
  · cases b.handle.readOnly <;> simp [bind, Except.bind]

def heldStorage (b : Buffer) : Except Fault Storage :=
  match b.group.storage with
  | none => .error .groupReleased
  | some s => .ok s

def locate (index length : Nat) (b : Buffer) : Except Fault (Storage × Nat) := do
  checkBounds index length b.handle.capacity
  let s ← b.heldStorage
  let start := b.handle.offset + index
  if start + length ≤ s.capacity then .ok (s, start)
  else .error (.windowDetached start length s.capacity)

def read (index length : Nat) (b : Buffer) : Except Fault Bytes := do
  b.checkLive
  let (s, start) ← b.locate index length
  return s.bytes.window start length

def setStorage (s : Storage) (b : Buffer) : Buffer :=
  { b with group := { b.group with storage := some s } }

def overwrite (index length : Nat) (data : Bytes) (b : Buffer) : Except Fault Buffer := do
  b.checkMutable
  let (s, start) ← b.locate index length
  return b.setStorage { s with bytes := s.bytes.splice start (data.take length) }

def write (index : Nat) (data : Bytes) (b : Buffer) : Except Fault Buffer :=
  b.overwrite index data.length data

def moveCursor (f : Cursor → Cursor) (b : Buffer) : Buffer :=
  { b with handle := b.handle.moveCursor f }

def content (b : Buffer) : Except Fault Bytes := b.read b.handle.reader b.handle.readable

def peek (n : Nat) (b : Buffer) : Except Fault Bytes := do
  b.checkLive
  b.handle.cursor.checkReadable n
  b.read b.handle.reader n

def onPool {ε α : Type} (x : Action ε Pool α) : Action ε Buffer α :=
  Action.zoom Buffer.pool (fun p b => { b with pool := p }) x

def describe (b : Buffer) : String :=
  if b.group.isReleased then "ByteBuf(freed)"
  else
    "ByteBuf[" ++ b.group.kind.label ++ "]" ++
      s!"(ridx: {b.handle.reader}, widx: {b.handle.writer}, " ++
      s!"cap: {b.handle.capacity}/{b.handle.maxCapacity})"

end Buffer

end SharedBuffer
