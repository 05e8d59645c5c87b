import SharedBuffer.Fault
import SharedBuffer.Bytes

/-!
The hexadecimal form of bytes. Encoder and decoder are not of this library: a `Codec` is any pair of
them that goes by pairs of digits, from the front, and tells the place of the first fault. `pairwise`
is one.
-/

namespace SharedBuffer

inductive HexFault where
  | oddLength
  | invalidDigit (byte : UInt8) (position : Nat)
  deriving DecidableEq, Repr

namespace HexFault

def shift (n : Nat) : HexFault → HexFault
  | .oddLength => .oddLength
  | .invalidDigit byte position => .invalidDigit byte (position + n)

/-- A byte read as a Latin-1 character and quoted: controls, the blanks beyond ASCII and the soft
hyphen are written by number. -/
def quoted (byte : UInt8) : String :=
  let n := byte.toNat
  let body : List Char :=
    if n = 0 then ['\\', '0']
    else if n = 9 then ['\\', 't']
    else if n = 10 then ['\\', 'n']
    else if n = 13 then ['\\', 'r']
    else if n = 39 then ['\\', '\'']
    else if n = 92 then ['\\', '\\']
    else if n < 32 ∨ (127 ≤ n ∧ n ≤ 160) ∨ n = 173 then
      ['\\', 'u', '\x7b'] ++ (Numeral.digits 16 n).map Char.toLower ++ ['\x7d']
    else [Char.ofNat n]
  String.ofList (['\''] ++ body ++ ['\''])

def message : HexFault → String
  | .oddLength => "Odd number of digits"
  | .invalidDigit byte position =>
    "Invalid character " ++ quoted byte ++ " at position " ++ toString position

end HexFault

namespace Hex

def value? (b : UInt8) : Option Nat :=
  let n := b.toNat
  if 48 ≤ n ∧ n ≤ 57 then some (n - 48)
  else if 65 ≤ n ∧ n ≤ 70 then some (n - 55)
  else if 97 ≤ n ∧ n ≤ 102 then some (n - 87)
  else none

def behindPair (value : Nat) : Except HexFault Bytes → Except HexFault Bytes
  | .error f => .error (f.shift 2)
  | .ok bs => .ok (UInt8.ofNat value :: bs)

structure Codec where
  encode : Bytes → List Char
  decode : Bytes → Except HexFault Bytes
  describe : HexFault → String
  encode_nil : encode [] = []
  encode_cons : ∀ b bs, encode (b :: bs) = Numeral.byte b ++ encode bs
  decode_nil : decode [] = .ok []
  decode_odd : ∀ text : Bytes, text.length % 2 = 1 → decode text = .error .oddLength
  decode_high : ∀ (a b : UInt8) (rest : Bytes), rest.length % 2 = 0 → value? a = none →
    decode (a :: b :: rest) = .error (.invalidDigit a 0)
  decode_low : ∀ (a b : UInt8) (rest : Bytes) (high : Nat), rest.length % 2 = 0 →
    value? a = some high → value? b = none → decode (a :: b :: rest) = .error (.invalidDigit b 1)
  decode_pair : ∀ (a b : UInt8) (rest : Bytes) (high low : Nat), rest.length % 2 = 0 →
    value? a = some high → value? b = some low →
    decode (a :: b :: rest) = behindPair (16 * high + low) (decode rest)

def decode (c : Codec) (text : Bytes) : Except Fault Bytes :=
  match c.decode text with
  | .error reason => .error (.malformedHex (c.describe reason))
  | .ok bs => .ok bs

def decodePairs : Bytes → Except HexFault Bytes
  | [] => .ok []
  | [_] => .error .oddLength
  | a :: b :: rest =>
    match value? a, value? b with
    | none, _ => .error (.invalidDigit a 0)
    | some _, none => .error (.invalidDigit b 1)
    | some high, some low => behindPair (16 * high + low) (decodePairs rest)

def decodeBytes (text : Bytes) : Except HexFault Bytes :=
  if text.length % 2 = 1 then .error .oddLength else decodePairs text

theorem decodeBytes_of_even {text : Bytes} (h : text.length % 2 = 0) :
    decodeBytes text = decodePairs text :=
  if_neg (by omega)

theorem decodeBytes_pair {a b : UInt8} {rest : Bytes} (h : rest.length % 2 = 0) :
    decodeBytes (a :: b :: rest) = decodePairs (a :: b :: rest) :=
  decodeBytes_of_even (by simp only [List.length_cons]; omega)

def pairwise : Codec where
  encode bs := bs.flatMap Numeral.byte
  decode := decodeBytes
  describe := HexFault.message
  encode_nil := rfl
  encode_cons _ _ := List.flatMap_cons
  decode_nil := rfl
  decode_odd _ h := if_pos h
  decode_high a b rest h ha := by rw [decodeBytes_pair h, decodePairs, ha]
  decode_low a b rest high h ha hb := by rw [decodeBytes_pair h, decodePairs, ha, hb]
  decode_pair a b rest high low h ha hb := by
    rw [decodeBytes_pair h, decodePairs, ha, hb, decodeBytes_of_even h]

end Hex

end SharedBuffer
