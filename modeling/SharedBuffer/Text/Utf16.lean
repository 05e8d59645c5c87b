import SharedBuffer.ByteOrder
import SharedBuffer.Text.Utf8

/-!
UTF-16 as a sequence of code units. Decoding never fails: every unpaired surrogate, and a byte
left over at the end, becomes one replacement character.
-/

namespace SharedBuffer.Text.Utf16

def unitsOfChar (c : Char) : List Nat :=
  let n := c.toNat
  if n < 0x10000 then [n]
  else [0xD800 + (n - 0x10000) / 0x400, 0xDC00 + (n - 0x10000) % 0x400]

def units (text : List Char) : List Nat := text.flatMap unitsOfChar

def isHigh (u : Nat) : Bool := 0xD800 ≤ u && u ≤ 0xDBFF

def isLow (u : Nat) : Bool := 0xDC00 ≤ u && u ≤ 0xDFFF

def pair (high low : Nat) : Char :=
  Char.ofNat (0x10000 + (high - 0xD800) * 0x400 + (low - 0xDC00))

def ofUnit (u : Nat) : Char := if isHigh u || isLow u then replacement else Char.ofNat u

def decodeUnits : List Nat → List Char
  | [] => []
  | [u] => [ofUnit u]
  | u :: v :: rest =>
    if isHigh u && isLow v then pair u v :: decodeUnits rest
    else ofUnit u :: decodeUnits (v :: rest)

def bytesOfUnit (order : ByteOrder) (u : Nat) : Bytes := order.arrange (Bytes.ofInt 2 u)

def encode (order : ByteOrder) (text : List Char) : Bytes :=
  (units text).flatMap (bytesOfUnit order)

def unitsOfBytes (order : ByteOrder) : Bytes → List Nat × Bool
  | [] => ([], false)
  | [_] => ([], true)
  | a :: b :: rest =>
    let tail := unitsOfBytes order rest
    (Bytes.toNat (order.arrange [a, b]) :: tail.1, tail.2)

def decode (order : ByteOrder) (bs : Bytes) : List Char :=
  let read := unitsOfBytes order bs
  decodeUnits read.1 ++ if read.2 then [replacement] else []

theorem decodeUnits_pair {u v : Nat} (hu : isHigh u = true) (hv : isLow v = true)
    (rest : List Nat) :
    decodeUnits (u :: v :: rest) = pair u v :: decodeUnits rest := by
  simp [decodeUnits, hu, hv]

theorem decodeUnits_single {u : Nat} (hu : isHigh u = false) (rest : List Nat) :
    decodeUnits (u :: rest) = ofUnit u :: decodeUnits rest := by
  cases rest <;> simp [decodeUnits, hu]

end SharedBuffer.Text.Utf16
