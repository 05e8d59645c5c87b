import SharedBuffer.Buffer.Streaming
import SharedBuffer.Buffer.Typed
import SharedBuffer.Buffer.View
import SharedBuffer.Config
import SharedBuffer.Table

/-!
An arena holds everything that is alive together on a system: pools, the groups with the number of
the pool that lends to each, and by name the handles, each with the number of its group, allocators
and storages on loan. A handle that loses its name is dropped, and the last handle of a group takes
the storage back to its pool.
-/

namespace SharedBuffer

structure Member where
  group : Nat
  handle : Handle
  deriving DecidableEq, Repr

structure Estate where
  pool : Nat
  group : Group
  deriving DecidableEq, Repr

structure Allocator where
  config : Config
  pool : Nat
  deriving DecidableEq, Repr

structure Arena where
  system : System := {}
  pools : List Pool := []
  groups : List Estate := []
  buffers : Table Member := []
  poolNames : Table Nat := []
  allocators : Table Allocator := []
  stores : Table Storage := []

inductive Failure where
  | fault (f : Fault)
  | loading (f : Fault) (asked : List Nat)
  | storing (f : Fault) (asked : List Nat) (taken : Bytes)
  | stream (f : Buffer.StreamFault)
  | unknownName (name : String)
  | malformedConfig
  deriving DecidableEq, Repr

namespace Arena

variable {α : Type}

def lift {σ : Type} (x : Action Fault σ α) : Action Failure σ α := Action.mapError Failure.fault x

def isHeld (group : Nat) (a : Arena) : Bool := a.buffers.any fun entry => entry.2.group == group

def isShared (name : String) (group : Nat) (a : Arena) : Bool :=
  a.buffers.any fun entry => entry.1 != name && entry.2.group == group

def assemble (m : Member) (shared : Bool) (a : Arena) : Option (Nat × Buffer) :=
  match a.groups[m.group]? with
  | none => none
  | some e =>
    match a.pools[e.pool]? with
    | none => none
    | some p => some (e.pool, ⟨m.handle, e.group, p, shared⟩)

def restore (group pool : Nat) (b : Buffer) (a : Arena) : Arena :=
  { a with groups := a.groups.set group ⟨pool, b.group⟩, pools := a.pools.set pool b.pool }

def buffer? (name : String) (a : Arena) : Option Buffer :=
  (a.buffers.find? name).bind fun m => (a.assemble m (a.isShared name m.group)).map Prod.snd

def buffer (name : String) (a : Arena) : Except Failure Buffer :=
  match a.buffer? name with
  | none => .error (.unknownName name)
  | some b => .ok b

def onBuffer (name : String) (x : Action Failure Buffer α) : Action Failure Arena α := fun a =>
  match a.buffers.find? name with
  | none => ⟨.error (.unknownName name), a, []⟩
  | some m =>
    match a.assemble m (a.isShared name m.group) with
    | none => ⟨.error (.unknownName name), a, []⟩
    | some (pool, b) =>
      let o := x b
      ⟨o.result,
        { a.restore m.group pool o.state with
          buffers := a.buffers.put name ⟨m.group, o.state.handle⟩ },
        o.events⟩

def poolAt (i : Nat) (a : Arena) : Pool := a.pools[i]?.getD (.plain a.system)

def onPoolAt (i : Nat) (x : Action Fault Pool α) : Action Failure Arena α :=
  Action.zoom (poolAt i) (fun p a => { a with pools := a.pools.set i p }) (lift x)

def require (t : Arena → Table α) (name : String) : Action Failure Arena α :=
  Action.ask fun a =>
    match (t a).find? name with
    | none => .error (.unknownName name)
    | some value => .ok value

/-- A member without a name is gone. If it was the last of its group, the storage goes back. -/
def bury (m : Member) : Action Failure Arena Unit := fun a =>
  if a.isHeld m.group then ⟨.ok (), a, []⟩
  else
    match a.assemble m false with
    | none => ⟨.ok (), a, []⟩
    | some (pool, b) =>
      let o := lift (Buffer.giveBack fun _ => .abandoned b.group.count) b
      ⟨o.result, a.restore m.group pool o.state, o.events⟩

/-- Gives a member a name; what had the name before is dropped afterwards. -/
def enrol (name : String) (m : Member) : Action Failure Arena Unit := do
  let a ← Action.current
  Action.modify fun a => { a with buffers := a.buffers.put name m }
  match a.buffers.find? name with
  | none => pure ()
  | some old => bury old

def drop (name : String) : Action Failure Arena Unit := do
  let m ← require buffers name
  Action.modify fun a => { a with buffers := a.buffers.erase name }
  bury m

def addPool (p : System → Pool) : Action Failure Arena Nat := fun a =>
  ⟨.ok a.pools.length, { a with pools := a.pools ++ [p a.system] }, []⟩

def dropPool : Action Failure Arena Unit := Action.modify fun a => { a with pools := a.pools.dropLast }

def found (pool : Nat) (s : Storage) (h : Handle) : Action Failure Arena Member := fun a =>
  ⟨.ok ⟨a.groups.length, h⟩, { a with groups := a.groups ++ [⟨pool, .holding s⟩] }, []⟩

def checkInitial (capacity maxCapacity : Nat) : Except Failure Unit :=
  if maxCapacity < capacity then .error (.fault (.initialAboveMax capacity maxCapacity)) else .ok ()

def allocate (pool : Nat) (kind : StorageKind) (capacity maxCapacity : Nat) (autoExpand : Bool) :
    Action Failure Arena Member := do
  Action.ask fun _ => checkInitial capacity maxCapacity
  let s ← onPoolAt pool (Pool.lend kind capacity maxCapacity)
  found pool s (.root capacity maxCapacity 0 autoExpand)

def onMember (m : Member) (x : Action Failure Buffer Unit) : Action Failure Arena Member := fun a =>
  match a.assemble m false with
  | none => ⟨.ok m, a, []⟩
  | some (pool, b) =>
    let o := x b
    ⟨o.result.map fun _ => ⟨m.group, o.state.handle⟩, a.restore m.group pool o.state, o.events⟩

def allocateCopy (pool : Nat) (kind : StorageKind) (data : Bytes) (maxCapacity : Nat)
    (autoExpand : Bool) : Action Failure Arena Member := do
  let m ← allocate pool kind data.length maxCapacity autoExpand
  Action.orUndo (onMember m (lift (Buffer.append data))) (bury m)

/-- A buffer on a pool of its own, which does not outlive a failure. -/
def allocateAlone (capacity maxCapacity : Nat) : Action Failure Arena Member := do
  Action.ask fun _ => checkInitial capacity maxCapacity
  let pool ← addPool .plain
  Action.orUndo (allocate pool .heap capacity maxCapacity true) dropPool

/-- Bytes taken over as they are. The pool of the buffer has not lent them. -/
def adopt (data : Bytes) (autoExpand : Bool) : Action Failure Arena Member := do
  let maxCapacity := max data.length defaultMaxCapacity
  let pool ← addPool .plain
  found pool ⟨.heap, data, maxCapacity⟩ (.root data.length maxCapacity data.length autoExpand)

def foundCopy (name : String) (h : Handle) (s : Storage) : Action Failure Arena Member := do
  let m ← require buffers name
  let a ← Action.current
  match a.groups[m.group]? with
  | none => Action.fail (.unknownName name)
  | some e => found e.pool s h

def copyBetween (source dest : String) (index destIndex length : Nat) :
    Action Failure Arena Unit := do
  let b ← Action.ask (buffer source)
  onBuffer dest (lift (Action.update (Buffer.copyOver b index destIndex length)))

def pour (source dest : String) (n : Nat) : Action Failure Arena Unit := do
  let bytes ← onBuffer source (lift (Action.ask (Buffer.peek n)))
  onBuffer dest (lift (Buffer.append bytes))
  onBuffer source (lift (Action.modify (Buffer.moveCursor (Cursor.advanceReader n))))

def allocatorOf (settings : List (String × Setting)) : Except Failure Config :=
  match Config.ofSettings? settings with
  | none => .error .malformedConfig
  | some c =>
    match c.validate with
    | .error f => .error (.fault f)
    | .ok () => .ok c

def describeAllocator (al : Allocator) (a : Arena) : String :=
  "ByteBufAllocator \x7b config: " ++ al.config.describe ++ ", strategy: " ++
    (a.poolAt al.pool).strategy.name ++ " \x7d"

end Arena

end SharedBuffer
