import SharedBuffer.Cursor
import SharedBuffer.Storage

/-!
A handle sees the window `[offset, offset + capacity)` of a storage and has a cursor of its own.
Handles on one storage form a group, which counts the references to it.
-/

namespace SharedBuffer

inductive Origin where
  | root
  | duplicate
  | slice
  deriving DecidableEq, Repr

structure Handle where
  offset : Nat
  capacity : Nat
  maxCapacity : Nat
  cursor : Cursor
  autoExpand : Bool
  readOnly : Bool
  origin : Origin
  deriving DecidableEq, Repr

namespace Handle

def root (capacity maxCapacity written : Nat) (autoExpand : Bool) : Handle :=
  { offset := 0, capacity, maxCapacity, cursor := Cursor.between 0 written, autoExpand,
    readOnly := false, origin := .root }

def reader (h : Handle) : Nat := h.cursor.reader

def writer (h : Handle) : Nat := h.cursor.writer

def readable (h : Handle) : Nat := h.cursor.readable

def writable (h : Handle) : Nat := h.capacity - h.writer

def maxWritable (h : Handle) : Nat := h.maxCapacity - h.writer

/-- A slice keeps its window whatever its flag says. -/
def canGrow (h : Handle) : Bool := h.autoExpand && h.origin != .slice

def moveCursor (f : Cursor → Cursor) (h : Handle) : Handle := { h with cursor := f h.cursor }

def slice (index length : Nat) (h : Handle) : Handle :=
  { offset := h.offset + index, capacity := length, maxCapacity := length,
    cursor := Cursor.between 0 length, autoExpand := false, readOnly := h.readOnly,
    origin := .slice }

def duplicate (h : Handle) : Handle :=
  { h with
    cursor := ⟨h.reader, h.writer, h.reader, h.writer⟩
    origin := if h.origin = .slice then .slice else .duplicate }

def whole (s : Storage) (h : Handle) : Handle :=
  { offset := 0, capacity := s.capacity, maxCapacity := s.maxCapacity,
    cursor := Cursor.between 0 s.capacity, autoExpand := h.autoExpand, readOnly := h.readOnly,
    origin := .duplicate }

theorem slice_slice (h : Handle) (i n j m : Nat) :
    (h.slice i n).slice j m = h.slice (i + j) m := by
  simp [slice, Nat.add_assoc]

end Handle

/-- The storage is there until the count reaches zero or the last handle is gone. -/
structure Group where
  kind : StorageKind
  count : Nat
  storage : Option Storage
  deriving DecidableEq, Repr

namespace Group

def holding (s : Storage) : Group := ⟨s.kind, 1, some s⟩

def isReleased (g : Group) : Bool := g.count == 0

def retain (n : Nat) (g : Group) : Except Fault Group :=
  if n = 0 then .error .retainZero
  else if g.count = 0 then .error (.retainReleased n)
  else
    match Word.add? g.count n with
    | none => .error (.retainOverflow g.count n)
    | some count => .ok { g with count }

theorem retain_eq_ok_iff {n : Nat} {g g' : Group} :
    g.retain n = .ok g' ↔
      0 < n ∧ 0 < g.count ∧ g.count + n ≤ Word.largest ∧ g' = { g with count := g.count + n } := by
  unfold retain Word.add?
  by_cases hn : n = 0
  · simp [hn]
  by_cases hc : g.count = 0
  · simp [hn, hc]
  by_cases ho : g.count + n ≤ Word.largest
  · simp only [hn, hc, ho, if_true, if_false, Except.ok.injEq]
    constructor
    · rintro rfl
      exact ⟨by omega, by omega, trivial, rfl⟩
    · rintro ⟨-, -, -, rfl⟩
      rfl
  · simp [hn, hc, ho]

end Group

end SharedBuffer
