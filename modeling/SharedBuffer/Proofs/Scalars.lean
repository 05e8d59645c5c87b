import Mathlib.Algebra.Group.Int.Defs
import Mathlib.Algebra.GroupWithZero.Nat
import SharedBuffer.Proofs.Transfer
import SharedBuffer.Proofs.Utf16

/-!
Scalars and the bytes that they are laid down in. Main statements: what is read where a scalar was
laid down is the scalar, for every value that its type has; an integer of three bytes is read back
sign-extended or as a natural number, whatever it was; and the two byte orders are the reverse of each
other.
-/

namespace SharedBuffer

open Text

namespace Bytes

theorem toNat_ofInt_of_lt {width : Nat} {v : Nat} (h : v < 256 ^ width) : toNat (ofInt width v) = v := by
  have hpow : Int.pow 256 width = ((256 ^ width : Nat) : Int) := (Int.natCast_pow 256 width).symm
  have hread := toNat_ofInt width v
  rw [hpow, ← Int.natCast_emod, Nat.mod_eq_of_lt h] at hread
  exact Int.ofNat.inj hread

theorem toInt_ofInt (width : Nat) (v : Int) : toInt (ofInt width v) = v.bmod (256 ^ width) := by
  have hpow : Int.pow 256 width = ((256 ^ width : Nat) : Int) := (Int.natCast_pow 256 width).symm
  simp only [toInt, length_ofInt, toNat_ofInt, hpow, Int.bmod_def]
  split
  · rw [if_neg (by omega)]
  · rw [if_pos (by omega)]

end Bytes

theorem bmod_eq_self_iff {m : Nat} (hm : 0 < m) (heven : m % 2 = 0) {v : Int} :
    v.bmod m = v ↔ -m ≤ 2 * v ∧ 2 * v < m := by
  have hlo := Int.le_bmod (x := v) hm
  have hhi := Int.bmod_lt (x := v) hm
  constructor
  · intro h
    omega
  · rintro ⟨hle, hlt⟩
    exact Int.bmod_eq_of_le (by omega) (by omega)

namespace IntType

def wrap (t : IntType) (v : Int) : Int :=
  if t.isSigned then v.bmod (256 ^ t.width) else v % (256 ^ t.width : Nat)

def Holds (t : IntType) (v : Int) : Prop :=
  if t.isSigned then -(256 ^ t.width : Nat) ≤ 2 * v ∧ 2 * v < (256 ^ t.width : Nat)
  else 0 ≤ v ∧ v < (256 ^ t.width : Nat)

instance (t : IntType) (v : Int) : Decidable (t.Holds v) := by
  unfold Holds
  infer_instance

theorem read_ofInt (t : IntType) (v : Int) : t.read (Bytes.ofInt t.width v) = t.wrap v := by
  have hpow : Int.pow 256 t.width = ((256 ^ t.width : Nat) : Int) := (Int.natCast_pow 256 _).symm
  rw [read, wrap, Bytes.toInt_ofInt, Bytes.toNat_ofInt, hpow]

theorem wrap_eq_self_iff {t : IntType} {v : Int} : t.wrap v = v ↔ t.Holds v := by
  have hpos : 0 < 256 ^ t.width := Nat.pow_pos (by omega)
  have heven : 256 ^ t.width % 2 = 0 := by cases t <;> rfl
  cases hsigned : t.isSigned with
  | true =>
    simp only [wrap, Holds, hsigned, if_true]
    exact bmod_eq_self_iff hpos heven
  | false =>
    simp only [wrap, Holds, hsigned, Bool.false_eq_true, if_false]
    constructor
    · intro h
      have hlo := Int.emod_nonneg v (by omega : ((256 ^ t.width : Nat) : Int) ≠ 0)
      have hhi := Int.emod_lt_of_pos v (by omega : (0 : Int) < (256 ^ t.width : Nat))
      omega
    · rintro ⟨hle, hlt⟩
      exact Int.emod_eq_of_lt hle hlt

end IntType

namespace Scalar

def Exact : Scalar → Prop
  | .char c => c.toNat < 0x10000
  | .int type _ v => type.Holds v
  | .bool _ | .float32 .. | .float64 .. => True

instance : (v : Scalar) → Decidable v.Exact
  | .char c => inferInstanceAs (Decidable (c.toNat < 0x10000))
  | .int type _ v => inferInstanceAs (Decidable (type.Holds v))
  | .bool _ | .float32 .. | .float64 .. => inferInstanceAs (Decidable True)

/-- As what a scalar is read where it was laid down. The integers of three bytes are written from
larger ones, of which they keep the low bits, and read with or without a sign. -/
inductive ReadAs : Scalar → ScalarType → Scalar → Prop
  | exact {v : Scalar} (h : v.Exact) : ReadAs v v.type v
  | medium {order : ByteOrder} {v w : Int} (h : w = v.bmod (2 ^ 24)) :
      ReadAs (.int .i24 order v) (.int .i24 order) (.int .i24 order w)
  | unsignedMedium {order : ByteOrder} {v w : Int} (h : w = v % 2 ^ 24) :
      ReadAs (.int .i24 order v) (.int .u24 order) (.int .u24 order w)

variable {v w : Scalar} {t : ScalarType} {bs : Bytes}

theorem ofUnit_toNat {c : Char} (h : c.toNat < 0x10000) : Utf16.ofUnit c.toNat = c := by
  obtain ⟨hhigh, hlow⟩ := Utf16.not_surrogate h
  rw [Utf16.ofUnit_of_not_surrogate hhigh hlow, Char.ofNat_toNat]

theorem read_of_exact (h : v.Exact) (hbs : v.bytes = .ok bs) : v.type.read bs = v := by
  cases v with
  | bool value =>
    cases hbs
    cases value <;> rfl
  | char c =>
    have hfits : c.toNat < 0x10000 := h
    rw [bytes, if_pos hfits, Except.ok.injEq] at hbs
    rw [← hbs]
    simp only [type, ScalarType.read]
    rw [Bytes.toNat_ofInt_of_lt hfits, ofUnit_toNat hfits]
  | int type order value =>
    cases hbs
    simp only [Scalar.type, ScalarType.read]
    rw [ByteOrder.arrange_arrange, IntType.read_ofInt, IntType.wrap_eq_self_iff.2 h]
  | float32 order bits =>
    cases hbs
    simp only [type, ScalarType.read]
    rw [ByteOrder.arrange_arrange, Bytes.toNat_ofInt_of_lt bits.toNat_lt, UInt32.ofNat_toNat]
  | float64 order bits =>
    cases hbs
    simp only [type, ScalarType.read]
    rw [ByteOrder.arrange_arrange, Bytes.toNat_ofInt_of_lt bits.toNat_lt, UInt64.ofNat_toNat]

theorem ReadAs.read (h : v.ReadAs t w) (hbs : v.bytes = .ok bs) : t.read bs = w := by
  cases h with
  | exact hexact => exact read_of_exact hexact hbs
  | medium hw =>
    cases hbs
    simp only [ScalarType.read]
    rw [ByteOrder.arrange_arrange, IntType.read_ofInt, hw]
    rfl
  | unsignedMedium hw =>
    cases hbs
    simp only [ScalarType.read]
    rw [ByteOrder.arrange_arrange, show IntType.i24.width = IntType.u24.width from rfl,
      IntType.read_ofInt, hw]
    rfl

theorem ReadAs.width (h : v.ReadAs t w) : t.width = v.type.width := by
  cases h <;> rfl

theorem ReadAs.laid (h : v.ReadAs t w) : v.bytes = .ok (Buffer.bytesOf v) := by
  have hbytes : ∃ bs, v.bytes = .ok bs := by
    cases h with
    | @exact v hexact =>
      cases v with
      | char c => exact ⟨_, if_pos hexact⟩
      | _ => exact ⟨_, rfl⟩
    | _ => exact ⟨_, rfl⟩
  obtain ⟨bs, hbs⟩ := hbytes
  rw [hbs, Buffer.bytesOf_eq hbs]

theorem ReadAs.length (h : v.ReadAs t w) : (Buffer.bytesOf v).length = t.width :=
  (length_bytes h.laid).trans h.width.symm

theorem bytes_wide {c : Char} (h : 0x10000 ≤ c.toNat) : (char c).bytes = .error (.wideChar c) :=
  if_neg (Nat.not_lt.2 h)

theorem bytesOf_little (type : IntType) (value : Int) (single : UInt32) (double : UInt64) :
    Buffer.bytesOf (.int type .little value) = (Buffer.bytesOf (.int type .big value)).reverse ∧
      Buffer.bytesOf (.float32 .little single) = (Buffer.bytesOf (.float32 .big single)).reverse ∧
      Buffer.bytesOf (.float64 .little double) = (Buffer.bytesOf (.float64 .big double)).reverse :=
  ⟨rfl, rfl, rfl⟩

end Scalar

theorem ScalarType.read_surrogate {bs : Bytes} (hlow : 0xD800 ≤ bs.toNat) (hhigh : bs.toNat ≤ 0xDFFF) :
    ScalarType.char.read bs = .char replacement := by
  have hsurrogate : (Utf16.isHigh bs.toNat || Utf16.isLow bs.toNat) = true := by
    rw [Bool.or_eq_true, Utf16.isHigh_iff, Utf16.isLow_iff]
    omega
  rw [ScalarType.read, Utf16.ofUnit, if_pos hsurrogate]

end SharedBuffer
