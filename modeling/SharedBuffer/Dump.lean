import SharedBuffer.Bytes
import SharedBuffer.Numeral

/-!
The hexadecimal dump: a banner, one row for each sixteen bytes, a closing banner. A row has its
offset twice, the bytes as numbers in two groups of eight, and the bytes as text.
-/

namespace SharedBuffer.Dump

def width : Nat := 77

def bytesPerRow : Nat := 16

structure Row where
  offset : Nat
  bytes : Bytes
  deriving DecidableEq, Repr

def rowsFrom (offset : Nat) (bs : Bytes) : List Row :=
  if _h : bs = [] then []
  else ⟨offset, bs.take bytesPerRow⟩ :: rowsFrom (offset + bytesPerRow) (bs.drop bytesPerRow)
termination_by bs.length
decreasing_by
  have := List.length_pos_iff.2 _h
  simp only [List.length_drop, bytesPerRow]
  omega

def rows (bs : Bytes) : List Row := rowsFrom 0 bs

namespace Row

def number : Option UInt8 → List Char
  | some b => Numeral.byte b ++ [' ']
  | none => [' ', ' ', ' ']

def glyph : Option UInt8 → Char
  | some b => if 33 ≤ b.toNat ∧ b.toNat ≤ 126 then Char.ofNat b.toNat else '.'
  | none => ' '

def offsetText (r : Row) : List Char :=
  Numeral.padded 16 4 r.offset ++ ['('] ++ Numeral.padded 10 4 r.offset ++ [')', ':', ' ']

def numbers (r : Row) (first count : Nat) : List Char :=
  (List.range' first count).flatMap fun column => number r.bytes[column]?

def glyphs (r : Row) : List Char :=
  (List.range bytesPerRow).map fun column => glyph r.bytes[column]?

def render (r : Row) : List Char :=
  r.offsetText ++ r.numbers 0 8 ++ [' '] ++ r.numbers 8 8 ++ r.glyphs

theorem length_glyphs (r : Row) : r.glyphs.length = bytesPerRow := by simp [glyphs]

end Row

def banner (title marker : List Char) : List Char :=
  let text := title ++ [' '] ++ marker
  text ++ List.replicate (width - text.length) '='

def lines (title : List Char) (bs : Bytes) : List (List Char) :=
  [banner title ['[', 'b', 'e', 'g', 'i', 'n', ']']] ++ (rows bs).map Row.render ++
    [banner title ['[', 'e', 'n', 'd', ']']]

def render (title : List Char) (bs : Bytes) : List Char :=
  (lines title bs).flatMap fun line => line ++ ['\n']

end SharedBuffer.Dump
