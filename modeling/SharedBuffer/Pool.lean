import SharedBuffer.Action
import SharedBuffer.Ledger

/-!
Pools lend storages and take them back. A plain pool asks the system each time; a slab pool keeps
returned storages, erased, in a free list of bounded length and lends them again to a request of
exactly their kind, capacity and greatest capacity.
-/

namespace SharedBuffer

structure FreeList where
  slots : Nat
  parked : List Storage
  deriving DecidableEq, Repr

namespace FreeList

def defaultSlots : Nat := 64

def fits (kind : StorageKind) (capacity maxCapacity : Nat) (s : Storage) : Bool :=
  s.kind == kind && s.capacity == capacity && s.maxCapacity == maxCapacity

/-- Takes the element at `i` out; the last element moves into its place. -/
def swapRemove (i : Nat) (xs : List Storage) : List Storage :=
  match xs.getLast? with
  | none => []
  | some last => (xs.set i last).dropLast

def take? (kind : StorageKind) (capacity maxCapacity : Nat) (l : FreeList) :
    Option (Storage × FreeList) :=
  match l.parked.findIdx? (fits kind capacity maxCapacity) with
  | none => none
  | some i =>
    match l.parked[i]? with
    | none => none
    | some s => some (s, { l with parked := swapRemove i l.parked })

def isFull (l : FreeList) : Bool := l.slots ≤ l.parked.length

end FreeList

inductive PoolingStrategy where
  | unpooled
  | pooled
  deriving DecidableEq, Repr

namespace PoolingStrategy

def label : PoolingStrategy → String
  | .unpooled => "unpooled"
  | .pooled => "pooled"

def name : PoolingStrategy → String
  | .unpooled => "Unpooled"
  | .pooled => "Pooled"

end PoolingStrategy

structure Pool where
  system : System
  freeList : Option FreeList
  ledger : Ledger := {}

namespace Pool

def plain (sys : System) : Pool := { system := sys, freeList := none }

def slab (slots : Nat) (sys : System) : Pool := { system := sys, freeList := some ⟨slots, []⟩ }

def withSlots : Option Nat → System → Pool
  | none => plain
  | some slots => slab slots

def ofStrategy : PoolingStrategy → System → Pool
  | .unpooled => plain
  | .pooled => slab FreeList.defaultSlots

def strategy (p : Pool) : PoolingStrategy :=
  match p.freeList with
  | none => .unpooled
  | some _ => .pooled

/-- A panic is not noted as a failure. -/
def lendFresh (kind : StorageKind) (capacity maxCapacity : Nat) :
    Action Fault Pool Storage := fun p =>
  match Storage.create p.system kind capacity maxCapacity with
  | .error f =>
    ⟨.error f, if f.isPanic then p else { p with ledger := p.ledger.noteFailure }, []⟩
  | .ok s => ⟨.ok s, { p with ledger := p.ledger.lendFresh capacity }, []⟩

/-- A parked storage that fits goes first; it is erased already. -/
def lend (kind : StorageKind) (capacity maxCapacity : Nat) : Action Fault Pool Storage := fun p =>
  match p.freeList.bind (FreeList.take? kind capacity maxCapacity) with
  | none => lendFresh kind capacity maxCapacity p
  | some (s, rest) =>
    ⟨.ok s, { p with freeList := some rest, ledger := (p.ledger.unpark capacity).lend },
      [.storageReused kind capacity]⟩

/-- A storage of another capacity with the same content; the old one stays with its holder. A
plain pool resizes without booking a lease, a slab pool acquires. -/
def relend (s : Storage) (capacity : Nat) : Action Fault Pool Storage := do
  let p ← Action.current
  if p.freeList.isNone ∨ s.maxCapacity < capacity then
    Action.ask fun p => s.resize p.system capacity
  else
    let fresh ← lend s.kind capacity s.maxCapacity
    Action.ask fun _ => fresh.writeRange 0 (s.bytes.take capacity)

/-- Takes a storage back. It is parked if there is a free list with room and it has a byte to
offer, otherwise its memory goes back to the system. -/
def takeBack (s : Storage) : Action Fault Pool Unit := fun p =>
  let ledger := p.ledger.takeBack
  match p.freeList with
  | none => ⟨.ok (), { p with ledger := ledger.surrender s.capacity }, []⟩
  | some l =>
    if l.isFull ∨ s.capacity = 0 then
      ⟨.ok (), { p with ledger := ledger.surrender s.capacity }, []⟩
    else
      ⟨.ok (),
        { p with
          freeList := some { l with parked := l.parked ++ [s.erase] }
          ledger := ledger.park s.capacity },
        [.storageParked s.kind s.capacity]⟩

def shrink : Action Fault Pool Nat := fun p =>
  match p.freeList with
  | none => ⟨.ok 0, p, []⟩
  | some l =>
    let freed := (l.parked.map Storage.capacity).foldr (· + ·) 0
    ⟨.ok freed,
      { p with
        freeList := some { l with parked := [] }
        ledger := (p.ledger.unpark freed).surrender freed },
      []⟩

structure Statistics where
  ledger : Ledger
  measures : List (String × Nat)
  deriving DecidableEq, Repr

def Statistics.measure? (s : Statistics) (key : String) : Option Nat :=
  (s.measures.find? fun m => m.1 == key).map Prod.snd

def statistics (p : Pool) : Statistics :=
  ⟨p.ledger,
    match p.freeList with
    | none => []
    | some l => [("slab_free_slots", l.parked.length)]⟩

end Pool

end SharedBuffer
