import SharedBuffer.Fault

/-!
The cursor of a handle: a reader index, a writer index, and a mark for each. Main statement: the
moves of the cursor keep the reader at or before the writer.
-/

namespace SharedBuffer

structure Cursor where
  reader : Nat := 0
  writer : Nat := 0
  markedReader : Nat := 0
  markedWriter : Nat := 0
  deriving DecidableEq, Repr

namespace Cursor

def between (reader writer : Nat) : Cursor := { reader, writer }

def readable (c : Cursor) : Nat := c.writer - c.reader

def checkReadable (n : Nat) (c : Cursor) : Except Fault Unit :=
  if n ≤ c.readable then .ok () else .error (.notReadable c.reader n c.writer)

def setIndexes (reader writer capacity : Nat) (c : Cursor) : Except Fault Cursor :=
  if reader ≤ writer ∧ writer ≤ capacity then .ok { c with reader, writer }
  else .error (.indexesCrossed reader writer capacity)

def advanceReader (n : Nat) (c : Cursor) : Cursor := { c with reader := c.reader + n }

def advanceWriter (n : Nat) (c : Cursor) : Cursor := { c with writer := c.writer + n }

def clear (c : Cursor) : Cursor := { c with reader := 0, writer := 0 }

def markReader (c : Cursor) : Cursor := { c with markedReader := c.reader }

def markWriter (c : Cursor) : Cursor := { c with markedWriter := c.writer }

def shift (n : Nat) (c : Cursor) : Cursor :=
  ⟨c.reader - n, c.writer - n, c.markedReader - n, c.markedWriter - n⟩

/-- Each writer position is held within `capacity`, each reader position behind its writer. -/
def truncate (capacity : Nat) (c : Cursor) : Cursor :=
  let writer := min c.writer capacity
  let markedWriter := min c.markedWriter capacity
  ⟨min c.reader writer, writer, min c.markedReader markedWriter, markedWriter⟩

theorem reader_le_writer_shift {c : Cursor} (h : c.reader ≤ c.writer) (n : Nat) :
    (c.shift n).reader ≤ (c.shift n).writer := Nat.sub_le_sub_right h n

theorem reader_le_writer_truncate (c : Cursor) (n : Nat) :
    (c.truncate n).reader ≤ (c.truncate n).writer := Nat.min_le_right _ _

theorem writer_truncate_le (c : Cursor) (n : Nat) : (c.truncate n).writer ≤ n :=
  Nat.min_le_right _ _

theorem readable_shift {c : Cursor} (n : Nat) (h : n ≤ c.reader) :
    (c.shift n).readable = c.readable := by
  simp only [readable, shift]
  omega

end Cursor

end SharedBuffer
