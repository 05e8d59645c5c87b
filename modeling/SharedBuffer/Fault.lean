import SharedBuffer.Numeral

/-!
Why an operation is refused. A `Fault` is a cause with the numbers that belong to it; its kind has
a stable code, and `Fault.message` is the only place where the wording stands. A `Report` is the
general coded error: a code, a message and at most one cause. A panic is a fault without a code: it
ends the operation where it stands and is reported to nobody.
-/

namespace SharedBuffer

inductive FaultKind where
  | outOfBounds
  | capacityExceeded
  | useAfterRelease
  | releaseUnderflow
  | invalidPattern
  | invalidArgument
  | readOnly
  | unsupported
  | io
  deriving DecidableEq, Repr

namespace FaultKind

def all : List FaultKind :=
  [.outOfBounds, .capacityExceeded, .useAfterRelease, .releaseUnderflow, .invalidPattern,
    .invalidArgument, .readOnly, .unsupported, .io]

theorem mem_all (k : FaultKind) : k ∈ all := by cases k <;> decide

def code : FaultKind → String
  | .outOfBounds => "buffer.out_of_bounds"
  | .capacityExceeded => "buffer.capacity_exceeded"
  | .useAfterRelease => "buffer.use_after_release"
  | .releaseUnderflow => "buffer.release_underflow"
  | .invalidPattern => "buffer.invalid_pattern"
  | .invalidArgument => "buffer.invalid_argument"
  | .readOnly => "buffer.read_only"
  | .unsupported => "buffer.unsupported"
  | .io => "buffer.io"

def name : FaultKind → String
  | .outOfBounds => "OutOfBounds"
  | .capacityExceeded => "CapacityExceeded"
  | .useAfterRelease => "UseAfterRelease"
  | .releaseUnderflow => "ReleaseUnderflow"
  | .invalidPattern => "InvalidPattern"
  | .invalidArgument => "InvalidArgument"
  | .readOnly => "ReadOnly"
  | .unsupported => "Unsupported"
  | .io => "Io"

def ofCode? (code : String) : Option FaultKind := all.find? fun k => k.code == code

theorem ofCode?_code (k : FaultKind) : ofCode? k.code = some k := by cases k <;> decide

def isMisuse : FaultKind → Bool
  | .useAfterRelease | .releaseUnderflow => true
  | _ => false

end FaultKind

structure Report where
  code : String
  message : String
  cause : Option String := none
  deriving DecidableEq, Repr

namespace Report

def display (r : Report) : String := "[" ++ r.code ++ "] " ++ r.message

def kind? (r : Report) : Option FaultKind := FaultKind.ofCode? r.code

def hasKind (r : Report) (k : FaultKind) : Bool := r.code == k.code

def withCause (r : Report) (cause : String) : Report := { r with cause := some cause }

end Report

inductive Fault where
  | rangeOutside (index length capacity : Nat)
  | windowDetached (start length capacity : Nat)
  | notReadable (reader length writer : Nat)
  | indexesCrossed (reader writer capacity : Nat)
  | destinationFull (length room : Nat)
  | requiredAboveMax (required maxCapacity : Nat)
  | growthDisabled (writer wanted capacity : Nat)
  | growthOverflow (writer wanted : Nat)
  | resizeAboveMax (capacity maxCapacity : Nat)
  | directLimit (capacity : Nat)
  | directRefused (capacity : Nat)
  | capacityOverflow (capacity : Nat)
  | released
  | groupReleased
  | retainReleased (increment : Nat)
  | retainZero
  | retainOverflow (count increment : Nat)
  | releaseZero
  | releaseUnderflow (count decrement : Nat)
  | readOnly
  | sliceFixed
  | noArray
  | emptyPattern
  | noProcessor
  | malformedHex (reason : String)
  | wideChar (char : Char)
  | initialAboveMax (capacity maxCapacity : Nat)
  | maxNotPositive
  | configInitialAboveMax (initial maxCapacity : Nat)
  | configSyntax (reason : String)
  | stream (cause : String)
  deriving DecidableEq, Repr

namespace Fault

def kind? : Fault → Option FaultKind
  | .rangeOutside .. | .windowDetached .. | .notReadable .. | .indexesCrossed ..
  | .destinationFull .. => some .outOfBounds
  | .requiredAboveMax .. | .growthDisabled .. | .growthOverflow .. | .resizeAboveMax ..
  | .directLimit .. | .directRefused .. => some .capacityExceeded
  | .capacityOverflow .. => none
  | .released | .groupReleased | .retainReleased .. => some .useAfterRelease
  | .releaseUnderflow .. => some .releaseUnderflow
  | .emptyPattern | .noProcessor | .malformedHex .. => some .invalidPattern
  | .retainZero | .retainOverflow .. | .releaseZero | .wideChar .. | .initialAboveMax ..
  | .maxNotPositive | .configInitialAboveMax .. | .configSyntax .. => some .invalidArgument
  | .readOnly => some .readOnly
  | .sliceFixed | .noArray => some .unsupported
  | .stream .. => some .io

def isPanic (f : Fault) : Bool := f.kind?.isNone

def message : Fault → String
  | .rangeOutside index length capacity =>
    s!"index: {index}, length: {length} (expected: range(0, {capacity}))"
  | .windowDetached start length capacity =>
    s!"window [{start}, {start} + {length}) is outside the storage capacity {capacity}"
  | .notReadable reader length writer =>
    s!"readerIndex({reader}) + length({length}) exceeds writerIndex({writer})"
  | .indexesCrossed reader writer capacity =>
    s!"readerIndex: {reader}, writerIndex: {writer} " ++
      s!"(expected: 0 <= readerIndex <= writerIndex <= capacity({capacity}))"
  | .destinationFull length room =>
    s!"length({length}) exceeds the destination's remaining capacity({room})"
  | .requiredAboveMax required maxCapacity =>
    s!"required capacity {required} exceeds maxCapacity({maxCapacity})"
  | .growthDisabled writer wanted capacity =>
    s!"writerIndex({writer}) + minWritableBytes({wanted}) exceeds capacity({capacity}) " ++
      "and auto-expand is disabled"
  | .growthOverflow writer wanted =>
    s!"writerIndex({writer}) + minWritableBytes({wanted}) overflows"
  | .resizeAboveMax capacity maxCapacity =>
    s!"newCapacity: {capacity} (expected: 0-{maxCapacity})"
  | .directLimit capacity =>
    s!"direct capacity {capacity} exceeds the platform allocation limit"
  | .directRefused capacity => s!"direct allocation of {capacity} bytes failed"
  | .capacityOverflow .. => "capacity overflow"
  | .released => "refCnt: 0, the buffer has been released"
  | .groupReleased => "refCnt: 0, the ownership group has been released"
  | .retainReleased increment => s!"refCnt: 0, increment: {increment}"
  | .retainZero => "increment: 0 (expected: > 0)"
  | .retainOverflow count increment =>
    s!"refCnt: {count}, increment: {increment} overflows the counter"
  | .releaseZero => "decrement: 0 (expected: > 0)"
  | .releaseUnderflow count decrement => s!"refCnt: {count}, decrement: {decrement}"
  | .readOnly => "cannot write through a read-only view"
  | .sliceFixed => "a slice cannot change its capacity"
  | .noArray => "direct storage has no backing array"
  | .emptyPattern => "search pattern must not be empty"
  | .noProcessor => "at least one processor is required"
  | .malformedHex reason => "malformed hex string: " ++ reason
  | .wideChar char =>
    "char U+" ++ String.ofList (Numeral.padded 16 4 char.toNat) ++
      " does not fit in a single UTF-16 code unit"
  | .initialAboveMax capacity maxCapacity =>
    s!"initialCapacity: {capacity} (expected: 0-maxCapacity({maxCapacity}))"
  | .maxNotPositive => "max_capacity must be positive"
  | .configInitialAboveMax initial maxCapacity =>
    s!"initial_capacity: {initial} (expected: not greater than max_capacity({maxCapacity}))"
  | .configSyntax reason => "allocator config is not valid TOML: " ++ reason
  | .stream cause => "stream failure: " ++ cause

def cause? : Fault → Option String
  | .malformedHex cause | .configSyntax cause | .stream cause => some cause
  | _ => none

def report? (f : Fault) : Option Report := f.kind?.map fun k => ⟨k.code, f.message, f.cause?⟩

theorem kind?_of_report? {f : Fault} {r : Report} (h : f.report? = some r) : r.kind? = f.kind? := by
  obtain ⟨k, hk, rfl⟩ := Option.map_eq_some_iff.1 h
  exact (FaultKind.ofCode?_code k).trans hk.symm

end Fault

end SharedBuffer
