import SharedBuffer.Buffer.Basic

/-!
Moving the indexes of a handle. Placing them asks only that they are in order and within the
window; skipping asks for a buffer that is still accessible.
-/

namespace SharedBuffer.Buffer

def setIndexes (reader writer : Nat) (b : Buffer) : Except Fault Buffer := do
  let cursor ← b.handle.cursor.setIndexes reader writer b.handle.capacity
  return b.moveCursor fun _ => cursor

def setReader (reader : Nat) (b : Buffer) : Except Fault Buffer :=
  b.setIndexes reader b.handle.writer

def setWriter (writer : Nat) (b : Buffer) : Except Fault Buffer :=
  b.setIndexes b.handle.reader writer

def resetReader (b : Buffer) : Except Fault Buffer := b.setReader b.handle.cursor.markedReader

def resetWriter (b : Buffer) : Except Fault Buffer := b.setWriter b.handle.cursor.markedWriter

def skip (n : Nat) (b : Buffer) : Except Fault Buffer := do
  b.checkLive
  b.handle.cursor.checkReadable n
  return b.moveCursor (Cursor.advanceReader n)

theorem skip_eq_ok {n : Nat} {b c : Buffer} (h : b.skip n = .ok c) :
    0 < b.group.count ∧ n ≤ b.handle.cursor.readable ∧ c = b.moveCursor (Cursor.advanceReader n) := by
  rw [← b.checkLive_eq_ok_iff]
  unfold skip Cursor.checkReadable at h
  rcases hlive : b.checkLive with f | ⟨⟩
  · simp [hlive, bind, Except.bind] at h
  · by_cases hle : n ≤ b.handle.cursor.readable
    · simp only [hlive, if_pos hle, bind, Except.bind, pure, Except.pure, Except.ok.injEq] at h
      exact ⟨rfl, hle, h.symm⟩
    · simp [hlive, if_neg hle, bind, Except.bind] at h

def setAutoExpand (value : Bool) (b : Buffer) : Buffer :=
  { b with handle := { b.handle with autoExpand := value } }

end SharedBuffer.Buffer
