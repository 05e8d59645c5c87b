import SharedBuffer.Bytes

/-!
Integers as fixed numbers of bytes. A width takes the low bits of any integer; reading gives them
back as a natural number, or sign-extended. Main statement: reading what was laid down returns the
integer modulo the width.
-/

namespace SharedBuffer

inductive ByteOrder where
  | big
  | little
  deriving DecidableEq, Repr

namespace ByteOrder

def arrange : ByteOrder → Bytes → Bytes
  | .big, bs => bs
  | .little, bs => bs.reverse

theorem arrange_arrange (o : ByteOrder) (bs : Bytes) : o.arrange (o.arrange bs) = bs := by
  cases o
  · rfl
  · exact List.reverse_reverse bs

theorem length_arrange (o : ByteOrder) (bs : Bytes) : (o.arrange bs).length = bs.length := by
  cases o
  · rfl
  · exact List.length_reverse

end ByteOrder

namespace Bytes

def ofInt : Nat → Int → Bytes
  | 0, _ => []
  | width + 1, v => ofInt width (v / 256) ++ [UInt8.ofNat (v % 256).toNat]

theorem length_ofInt (width : Nat) (v : Int) : (ofInt width v).length = width := by
  induction width generalizing v with
  | zero => rfl
  | succ width ih => simp [ofInt, ih]

def toNat (bs : Bytes) : Nat := bs.foldl (fun n b => n * 256 + b.toNat) 0

theorem toNat_append_singleton (bs : Bytes) (b : UInt8) :
    toNat (bs ++ [b]) = toNat bs * 256 + b.toNat := by
  simp [toNat]

theorem toNat_ofInt (width : Nat) (v : Int) : (toNat (ofInt width v) : Int) = v % Int.pow 256 width := by
  change _ = v % 256 ^ width
  induction width generalizing v with
  | zero => simp [ofInt, toNat]
  | succ width ih =>
    have hlow : (UInt8.ofNat (v % 256).toNat).toNat = (v % 256).toNat := by
      rw [UInt8.toNat_ofNat']
      omega
    have hpos : (0 : Int) < 256 ^ width := Int.pow_pos (by omega)
    have hq := Int.emod_add_mul_ediv (v / 256) (256 ^ width)
    have hr := Int.emod_nonneg (v / 256) (by omega : (256 : Int) ^ width ≠ 0)
    have hl := Int.emod_lt_of_pos (v / 256) hpos
    have hv : (v / 256) % 256 ^ width * 256 + v % 256
        + 256 ^ width * 256 * (v / 256 / 256 ^ width) = v := by
      rw [Int.mul_right_comm]
      omega
    have hm := ((Int.ediv_emod_unique (a := v) (b := 256 ^ width * 256) (by omega)).2
      ⟨hv, by omega, by omega⟩).2
    rw [ofInt, toNat_append_singleton, Int.natCast_add, Int.natCast_mul, ih, hlow, Int.pow_succ, hm]
    omega

def toInt (bs : Bytes) : Int :=
  let bound : Int := Int.pow 256 bs.length
  let n : Int := toNat bs
  if bound ≤ 2 * n then n - bound else n

end Bytes

end SharedBuffer
