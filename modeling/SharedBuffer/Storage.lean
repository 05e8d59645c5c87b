import SharedBuffer.Bytes
import SharedBuffer.Fault
import SharedBuffer.Word

/-!
A storage: zeroed bytes of one of two kinds, with the greatest capacity it may be resized to.
Which direct memory is granted is up to the system. Ranges are checked in the natural numbers, so
that an end beyond the word range is refused like any other. Main statements: what a fresh and a
resized storage hold.
-/

namespace SharedBuffer

def checkBounds (index length capacity : Nat) : Except Fault Unit :=
  if index + length ≤ capacity ∧ index + length ≤ Word.largest then .ok ()
  else .error (.rangeOutside index length capacity)

theorem checkBounds_eq_ok_iff {index length capacity : Nat} (h : capacity ≤ Word.largest) :
    checkBounds index length capacity = .ok () ↔ index + length ≤ capacity := by
  unfold checkBounds
  split
  · simp_all
  · simp only [reduceCtorEq, false_iff]
    omega

theorem checkBounds_of_lt {index length capacity : Nat} (h : capacity < index + length) :
    checkBounds index length capacity = .error (.rangeOutside index length capacity) :=
  if_neg fun hle => Nat.not_le_of_lt h hle.1

inductive StorageKind where
  | heap
  | direct
  deriving DecidableEq, Repr

namespace StorageKind

def label : StorageKind → String
  | .heap => "heap"
  | .direct => "direct"

def name : StorageKind → String
  | .heap => "Heap"
  | .direct => "Direct"

end StorageKind

structure Storage where
  kind : StorageKind
  bytes : Bytes
  maxCapacity : Nat
  deriving DecidableEq, Repr

/-- What the system answers when it is asked for so many bytes of direct memory. For heap memory
there is no such answer: without it the process ends. -/
structure System where
  grants : Nat → Bool := fun _ => true

namespace Storage

def capacity (s : Storage) : Nat := s.bytes.length

/-- Direct memory is aligned to 64 bytes inside a signed 64-bit size. -/
def directLimit : Nat := Nat.pow 2 63 - 64

/-- Direct memory is asked for unless none is needed or its layout excludes it; a heap array longer
than any byte string is a panic. -/
def checkKind (sys : System) : StorageKind → Nat → Except Fault Unit
  | .heap, capacity =>
    if Word.longest < capacity then .error (.capacityOverflow capacity) else .ok ()
  | .direct, capacity =>
    if capacity = 0 then .ok ()
    else if directLimit < capacity then .error (.directLimit capacity)
    else if sys.grants capacity then .ok ()
    else .error (.directRefused capacity)

theorem checkKind_heap {sys : System} {capacity : Nat} (h : capacity ≤ Word.longest) :
    checkKind sys .heap capacity = .ok () :=
  if_neg (Nat.not_lt.2 h)

def create (sys : System) (kind : StorageKind) (capacity maxCapacity : Nat) :
    Except Fault Storage :=
  if maxCapacity < capacity then .error (.initialAboveMax capacity maxCapacity)
  else
    match checkKind sys kind capacity with
    | .error f => .error f
    | .ok () => .ok ⟨kind, Bytes.zeros capacity, maxCapacity⟩

theorem create_eq_ok {sys : System} {kind : StorageKind} {capacity maxCapacity : Nat} {s : Storage}
    (h : create sys kind capacity maxCapacity = .ok s) :
    capacity ≤ maxCapacity ∧ s = ⟨kind, Bytes.zeros capacity, maxCapacity⟩ := by
  unfold create at h
  split at h
  · cases h
  · split at h
    · cases h
    · cases h
      exact ⟨by omega, rfl⟩

def adopt (bytes : Bytes) (maxCapacity : Nat) : Except Fault Storage :=
  if maxCapacity < bytes.length then .error (.initialAboveMax bytes.length maxCapacity)
  else .ok ⟨.heap, bytes, maxCapacity⟩

def refit (s : Storage) (capacity : Nat) : Storage := { s with bytes := s.bytes.fit capacity }

theorem capacity_refit (s : Storage) (n : Nat) : (s.refit n).capacity = n := Bytes.length_fit _ _

def resize (sys : System) (s : Storage) (capacity : Nat) : Except Fault Storage :=
  if s.maxCapacity < capacity then .error (.resizeAboveMax capacity s.maxCapacity)
  else
    match checkKind sys s.kind capacity with
    | .error f => .error f
    | .ok () => .ok (s.refit capacity)

theorem resize_eq_ok {sys : System} {s t : Storage} {n : Nat} (h : s.resize sys n = .ok t) :
    n ≤ s.maxCapacity ∧ t = s.refit n := by
  unfold resize at h
  split at h
  · cases h
  · split at h
    · cases h
    · cases h
      exact ⟨by omega, rfl⟩

def array? (s : Storage) : Option Bytes :=
  match s.kind with
  | .heap => some s.bytes
  | .direct => none

def readRange (s : Storage) (index length : Nat) : Except Fault Bytes :=
  match checkBounds index length s.capacity with
  | .error f => .error f
  | .ok () => .ok (s.bytes.window index length)

def writeRange (s : Storage) (index : Nat) (src : Bytes) : Except Fault Storage :=
  match checkBounds index src.length s.capacity with
  | .error f => .error f
  | .ok () => .ok { s with bytes := s.bytes.splice index src }

def fill (s : Storage) (index length : Nat) (value : UInt8) : Except Fault Storage :=
  match checkBounds index length s.capacity with
  | .error f => .error f
  | .ok () => .ok { s with bytes := s.bytes.splice index (List.replicate length value) }

def moveRange (s : Storage) (src length dest : Nat) : Except Fault Storage :=
  match checkBounds src length s.capacity, checkBounds dest length s.capacity with
  | .error f, _ => .error f
  | .ok (), .error f => .error f
  | .ok (), .ok () => .ok { s with bytes := s.bytes.moveWithin src length dest }

def erase (s : Storage) : Storage := { s with bytes := Bytes.zeros s.capacity }

theorem capacity_erase (s : Storage) : s.erase.capacity = s.capacity := Bytes.length_zeros _

def describe (s : Storage) : String :=
  match s.kind with
  | .heap =>
    let items := ", ".intercalate (s.bytes.map fun b => toString b.toNat)
    "HeapStorage \x7b array: [" ++ items ++ s!"], max_capacity: {s.maxCapacity} " ++ "\x7d"
  | .direct =>
    "DirectStorage \x7b " ++ s!"capacity: {s.capacity}, max_capacity: {s.maxCapacity} " ++ "\x7d"

end Storage

end SharedBuffer
