import SharedBuffer.Text.Utf16
import SharedBuffer.Word

/-!
The charsets of strings in a buffer. A character that a charset lacks is written as a question
mark; bytes that mean nothing are read as the replacement character.
-/

namespace SharedBuffer

inductive Charset where
  | utf8
  | usAscii
  | iso8859
  | utf16 (order : ByteOrder)
  deriving DecidableEq, Repr

namespace Charset

open Text

def maxBytesPerUnit : Charset → Nat
  | .utf8 => 3
  | .usAscii | .iso8859 => 1
  | .utf16 _ => 2

/-- One byte per character, with `?` for those at or above `limit`. -/
def encodeBelow (limit : Nat) (text : List Char) : Bytes :=
  text.map fun c => if c.toNat < limit then UInt8.ofNat c.toNat else 63

def decodeBelow (limit : Nat) (bs : Bytes) : List Char :=
  bs.map fun b => if b.toNat < limit then Char.ofNat b.toNat else replacement

def encode : Charset → List Char → Bytes
  | .utf8 => Utf8.encode
  | .usAscii => encodeBelow 0x80
  | .iso8859 => encodeBelow 0x100
  | .utf16 order => Utf16.encode order

def decode : Charset → Bytes → List Char
  | .utf8 => Utf8.decode
  | .usAscii => decodeBelow 0x80
  | .iso8859 => decodeBelow 0x100
  | .utf16 order => Utf16.decode order

theorem length_encodeBelow (limit : Nat) (text : List Char) :
    (encodeBelow limit text).length = text.length := List.length_map _

/-- The length that is enough for a text of so many UTF-16 units, whatever its characters. -/
def worstLength (charset : Charset) (text : List Char) : Nat :=
  Word.mulSaturating (Utf16.units text).length charset.maxBytesPerUnit

end Charset

end SharedBuffer
