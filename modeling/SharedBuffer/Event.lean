import SharedBuffer.Storage

/-!
What the library reports while it works: counts that run out, storages that change hands and
capacities that move. Each event has a level, a target, a message and named fields.
-/

namespace SharedBuffer

inductive Event where
  | releaseUnderflow (count decrement : Nat)
  | deallocated (kind : StorageKind) (capacity : Nat)
  | abandoned (count : Nat)
  | capacityAdjusted (old new maxCapacity : Nat) (shared replaced : Bool)
  | storageReused (kind : StorageKind) (capacity : Nat)
  | storageParked (kind : StorageKind) (capacity : Nat)
  deriving DecidableEq, Repr

namespace Event

inductive Level where
  | trace
  | debug
  | error
  deriving DecidableEq, Repr

inductive Field where
  | number (n : Nat)
  | flag (b : Bool)
  | text (s : String)
  deriving DecidableEq, Repr

def Level.name : Level → String
  | .trace => "TRACE"
  | .debug => "DEBUG"
  | .error => "ERROR"

def level : Event → Level
  | .releaseUnderflow .. => .error
  | .deallocated .. | .capacityAdjusted .. => .debug
  | .abandoned .. | .storageReused .. | .storageParked .. => .trace

def target : Event → String
  | .releaseUnderflow .. | .deallocated .. | .abandoned .. => "spark_buffer::refcnt"
  | .capacityAdjusted .. => "spark_buffer::capacity"
  | .storageReused .. | .storageParked .. => "spark_buffer::pool"

def message : Event → String
  | .releaseUnderflow .. => "release called more times than outstanding retains"
  | .deallocated .. => "reference count reached zero, storage deallocated"
  | .abandoned .. => "last handle dropped, storage returned without explicit release"
  | .capacityAdjusted .. => "buffer capacity adjusted"
  | .storageReused .. => "reusing pooled storage"
  | .storageParked .. => "storage returned to free list"

/-- The messages, each with the level and the target under which it is reported. -/
def catalogue : List (String × Level × String) :=
  [("release called more times than outstanding retains", .error, "spark_buffer::refcnt"),
    ("reference count reached zero, storage deallocated", .debug, "spark_buffer::refcnt"),
    ("last handle dropped, storage returned without explicit release", .trace,
      "spark_buffer::refcnt"),
    ("buffer capacity adjusted", .debug, "spark_buffer::capacity"),
    ("reusing pooled storage", .trace, "spark_buffer::pool"),
    ("storage returned to free list", .trace, "spark_buffer::pool")]

theorem mem_catalogue_iff (e : Event) (l : Level) (t : String) :
    (e.message, l, t) ∈ catalogue ↔ l = e.level ∧ t = e.target := by
  cases e <;> simp [catalogue, message, level, target]

def fields : Event → List (String × Field)
  | .releaseUnderflow count decrement =>
    [("ref_cnt", .number count), ("decrement", .number decrement)]
  | .deallocated kind capacity | .storageReused kind capacity | .storageParked kind capacity =>
    [("kind", .text kind.name), ("capacity", .number capacity)]
  | .abandoned count => [("ref_cnt", .number count)]
  | .capacityAdjusted old new maxCapacity shared replaced =>
    [("old_capacity", .number old), ("new_capacity", .number new),
      ("max_capacity", .number maxCapacity), ("shared", .flag shared),
      ("storage_replaced", .flag replaced)]

end Event

end SharedBuffer
