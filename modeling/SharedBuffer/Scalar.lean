import SharedBuffer.ByteOrder
import SharedBuffer.Fault
import SharedBuffer.Text.Utf16

/-!
Scalars laid down in a fixed number of bytes: truth values, single UTF-16 units, integers of one,
two, three, four or eight bytes, and floating-point numbers as bit patterns.
-/

namespace SharedBuffer

inductive IntType where
  | u8
  | i8
  | u16
  | i16
  | u24
  | i24
  | u32
  | i32
  | u64
  | i64
  deriving DecidableEq, Repr

namespace IntType

def width : IntType → Nat
  | .u8 | .i8 => 1
  | .u16 | .i16 => 2
  | .u24 | .i24 => 3
  | .u32 | .i32 => 4
  | .u64 | .i64 => 8

def isSigned : IntType → Bool
  | .i8 | .i16 | .i24 | .i32 | .i64 => true
  | _ => false

def read (t : IntType) (bs : Bytes) : Int := if t.isSigned then bs.toInt else (bs.toNat : Int)

end IntType

inductive ScalarType where
  | bool
  | char
  | int (type : IntType) (order : ByteOrder)
  | float32 (order : ByteOrder)
  | float64 (order : ByteOrder)
  deriving DecidableEq, Repr

inductive Scalar where
  | bool (value : Bool)
  | char (value : Char)
  | int (type : IntType) (order : ByteOrder) (value : Int)
  | float32 (order : ByteOrder) (bits : UInt32)
  | float64 (order : ByteOrder) (bits : UInt64)
  deriving DecidableEq, Repr

namespace ScalarType

def width : ScalarType → Nat
  | .bool => 1
  | .char => 2
  | .int type _ => type.width
  | .float32 _ => 4
  | .float64 _ => 8

/-- Any byte but zero is true, and a surrogate is read as the replacement character. -/
def read (t : ScalarType) (bs : Bytes) : Scalar :=
  match t with
  | .bool => .bool (bs.toNat != 0)
  | .char => .char (Text.Utf16.ofUnit bs.toNat)
  | .int type order => .int type order (type.read (order.arrange bs))
  | .float32 order => .float32 order (UInt32.ofNat (order.arrange bs).toNat)
  | .float64 order => .float64 order (UInt64.ofNat (order.arrange bs).toNat)

end ScalarType

namespace Scalar

def type : Scalar → ScalarType
  | .bool _ => .bool
  | .char _ => .char
  | .int type order _ => .int type order
  | .float32 order _ => .float32 order
  | .float64 order _ => .float64 order

/-- Of an integer only the low bits are kept; a character must fit in one UTF-16 unit. -/
def bytes : Scalar → Except Fault Bytes
  | .bool value => .ok [if value then 1 else 0]
  | .char value =>
    if value.toNat < 0x10000 then .ok (Bytes.ofInt 2 value.toNat) else .error (.wideChar value)
  | .int type order value => .ok (order.arrange (Bytes.ofInt type.width value))
  | .float32 order bits => .ok (order.arrange (Bytes.ofInt 4 bits.toNat))
  | .float64 order bits => .ok (order.arrange (Bytes.ofInt 8 bits.toNat))

theorem length_bytes {s : Scalar} {bs : Bytes} (h : s.bytes = .ok bs) :
    bs.length = s.type.width := by
  cases s with
  | bool value => cases h; rfl
  | char value =>
    rw [bytes] at h
    split at h <;> cases h
    exact Bytes.length_ofInt _ _
  | int type order value => cases h; simp [ByteOrder.length_arrange, Bytes.length_ofInt]; rfl
  | float32 order bits => cases h; simp [ByteOrder.length_arrange, Bytes.length_ofInt]; rfl
  | float64 order bits => cases h; simp [ByteOrder.length_arrange, Bytes.length_ofInt]; rfl

end Scalar

end SharedBuffer
