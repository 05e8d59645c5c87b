import SharedBuffer.Bytes

/-!
UTF-8. Decoding never fails: a decoder state knows which byte may come next, and each maximal
ill-formed part becomes one replacement character.
-/

namespace SharedBuffer.Text

def replacement : Char := Char.ofNat 0xFFFD

namespace Utf8

def encodeChar (c : Char) : Bytes :=
  let n := c.toNat
  if n < 0x80 then [UInt8.ofNat n]
  else if n < 0x800 then [UInt8.ofNat (0xC0 + n / 64), UInt8.ofNat (0x80 + n % 64)]
  else if n < 0x10000 then
    [UInt8.ofNat (0xE0 + n / 4096), UInt8.ofNat (0x80 + n / 64 % 64), UInt8.ofNat (0x80 + n % 64)]
  else
    [UInt8.ofNat (0xF0 + n / 262144), UInt8.ofNat (0x80 + n / 4096 % 64),
      UInt8.ofNat (0x80 + n / 64 % 64), UInt8.ofNat (0x80 + n % 64)]

def encode (text : List Char) : Bytes := text.flatMap encodeChar

/-- Between characters, or inside one: `more + 1` bytes are due, the next within `[low, high]`,
and `value` holds the bits so far. -/
inductive State where
  | ground
  | awaiting (more value low high : Nat)
  deriving DecidableEq, Repr

/-- The lead byte fixes the length and the range of the byte after it, which keeps out overlong
forms, surrogates and code points above the last. -/
def start (b : UInt8) : List Char × State :=
  let n := b.toNat
  if n < 0x80 then ([Char.ofNat n], .ground)
  else if n < 0xC2 then ([replacement], .ground)
  else if n < 0xE0 then ([], .awaiting 0 (n - 0xC0) 0x80 0xBF)
  else if n = 0xE0 then ([], .awaiting 1 0 0xA0 0xBF)
  else if n = 0xED then ([], .awaiting 1 0xD 0x80 0x9F)
  else if n < 0xF0 then ([], .awaiting 1 (n - 0xE0) 0x80 0xBF)
  else if n = 0xF0 then ([], .awaiting 2 0 0x90 0xBF)
  else if n < 0xF4 then ([], .awaiting 2 (n - 0xF0) 0x80 0xBF)
  else if n = 0xF4 then ([], .awaiting 2 4 0x80 0x8F)
  else ([replacement], .ground)

/-- A byte that cannot continue the character ends it and is looked at afresh. -/
def step : State → UInt8 → List Char × State
  | .ground, b => start b
  | .awaiting more value low high, b =>
    if low ≤ b.toNat ∧ b.toNat ≤ high then
      let value := value * 64 + b.toNat % 64
      match more with
      | 0 => ([Char.ofNat value], .ground)
      | more + 1 => ([], .awaiting more value 0x80 0xBF)
    else
      let next := start b
      (replacement :: next.1, next.2)

def finish : State → List Char
  | .ground => []
  | .awaiting .. => [replacement]

def decodeFrom : State → Bytes → List Char
  | s, [] => finish s
  | s, b :: bs => (step s b).1 ++ decodeFrom (step s b).2 bs

def decode (bs : Bytes) : List Char := decodeFrom .ground bs

theorem decodeFrom_cons (s : State) (b : UInt8) (bs : Bytes) :
    decodeFrom s (b :: bs) = (step s b).1 ++ decodeFrom (step s b).2 bs := rfl

/-- An ASCII byte ends whatever was open, so decoding may be cut behind it. -/
theorem step_ascii (s : State) {b : UInt8} (h : b.toNat < 0x80)
    (hs : ∀ more value low high, s = .awaiting more value low high → 0x80 ≤ low) :
    step s b = (finish s ++ [Char.ofNat b.toNat], .ground) := by
  have hstart : start b = ([Char.ofNat b.toNat], .ground) := by simp [start, h]
  cases s with
  | ground => exact hstart
  | awaiting more value low high =>
    have hl := hs more value low high rfl
    rw [step, if_neg (by omega), hstart]
    rfl

end Utf8

end SharedBuffer.Text
