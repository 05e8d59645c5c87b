/-!
Natural numbers written in a base up to sixteen, with upper-case digits and at least a given
number of places, and bytes in two hexadecimal digits.
-/

namespace SharedBuffer.Numeral

def digit (n : Nat) : Char := Char.ofNat (if n < 10 then 48 + n else 55 + n)

def byte (b : UInt8) : List Char := [digit (b.toNat / 16), digit (b.toNat % 16)]

def digits (base n : Nat) : List Char :=
  if _h : n < base ∨ base < 2 then [digit n]
  else digits base (n / base) ++ [digit (n % base)]
termination_by n
decreasing_by exact Nat.div_lt_self (by omega) (by omega)

def padded (base width n : Nat) : List Char :=
  List.replicate (width - (digits base n).length) '0' ++ digits base n

end SharedBuffer.Numeral
