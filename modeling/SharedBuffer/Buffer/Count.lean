import SharedBuffer.Buffer.Basic

/-!
The reference count of a group. The release that reaches zero gives the storage back to the pool;
a release that asks for more than is outstanding changes nothing and is reported.
-/

namespace SharedBuffer.Buffer

def retain (n : Nat) (b : Buffer) : Except Fault Buffer := do
  let group ← b.group.retain n
  return { b with group }

def setCount (count : Nat) (b : Buffer) : Buffer := { b with group := { b.group with count } }

def dropStorage (b : Buffer) : Buffer := { b with group := { b.group with storage := none } }

/-- Takes the storage out of the group, if it is there, and reports it before it is reclaimed. -/
def giveBack (note : Storage → Event) : Action Fault Buffer Unit := do
  let b ← Action.current
  match b.group.storage with
  | none => pure ()
  | some s =>
    Action.modify dropStorage
    Action.emit (note s)
    onPool (Pool.takeBack s)

def release (n : Nat) : Action Fault Buffer Bool := do
  let b ← Action.current
  let count := b.group.count
  if n = 0 then Action.fail .releaseZero
  else if count < n then
    Action.emit (.releaseUnderflow count n)
    Action.fail (.releaseUnderflow count n)
  else
    Action.modify (setCount (count - n))
    if count = n then
      giveBack fun s => .deallocated b.group.kind s.capacity
      return true
    else return false

end SharedBuffer.Buffer
