import StridedSlice.Binary
/-!
# StridedSlice.Element

**Element types** and the conversion between them.

`ElementType` lists the types a buffer can hold, `ElementType.Value` the values of
each. A value of one type becomes a value of another through a `Scalar`, which
holds every value of every type exactly:

* an integer becomes an integer by keeping the low bits;
* a floating point number becomes an integer by dropping its fraction and then
  going to the nearest value in range; what is not a number becomes zero;
* anything becomes a floating point number by rounding once, to nearest;
* a truth value counts as zero or one, and a number is true unless it is zero.

Between equal types nothing is converted, so every bit is kept.
-/

namespace StridedSlice

/-- The integer types. `intp` and `uintp` are the integers of pointer width. -/
inductive IntType
  | int8
  | int16
  | int32
  | int64
  | intp
  | uint8
  | uint16
  | uint32
  | uint64
  | uintp
  deriving Repr, DecidableEq

namespace IntType

/-- Every integer type. -/
def all : List IntType :=
  [.int8, .int16, .int32, .int64, .intp, .uint8, .uint16, .uint32, .uint64, .uintp]

/-- Width in bits. -/
abbrev bits : IntType → Nat
  | .int8 | .uint8 => 8
  | .int16 | .uint16 => 16
  | .int32 | .uint32 => 32
  | .int64 | .uint64 | .intp | .uintp => 64

/-- Whether the type has negative values. -/
def isSigned : IntType → Bool
  | .int8 | .int16 | .int32 | .int64 | .intp => true
  | .uint8 | .uint16 | .uint32 | .uint64 | .uintp => false

/-- The values of an integer type, as words of its width. -/
abbrev Value (t : IntType) : Type := BitVec t.bits

/-- The integer that a word stands for. -/
def toInt (t : IntType) (v : t.Value) : Int :=
  if t.isSigned then BitVec.toInt v else (BitVec.toNat v : Int)

/-- The word with the low bits of an integer. -/
def ofInt (t : IntType) (i : Int) : t.Value := BitVec.ofInt t.bits i

/-- The least value of a type. -/
def least (t : IntType) : Int := if t.isSigned then -(Nat.pow 2 (t.bits - 1) : Int) else 0

/-- The greatest value of a type. -/
def greatest (t : IntType) : Int :=
  if t.isSigned then (Nat.pow 2 (t.bits - 1) : Int) - 1 else (Nat.pow 2 t.bits : Int) - 1

end IntType

/-- A value of any type, with its kind. -/
inductive Scalar
  | bool (b : Bool)
  | int (v : Int64)
  | uint (v : UInt64)
  | float (v : Binary binary64)
  deriving Repr, DecidableEq

namespace Scalar

/-- The integer that a scalar becomes, in the range of `t`. -/
def toIntType (t : IntType) : Scalar → t.Value
  | .bool b => t.ofInt (if b then 1 else 0)
  | .int v => t.ofInt v.toInt
  | .uint v => t.ofInt (v.toNat : Int)
  | .float v => t.ofInt (v.toIntWithin t.least t.greatest)

/-- The nearest number of a binary format. -/
def toBinary (f : BinaryFormat) : Scalar → Binary f
  | .bool b => Binary.ofInt f (if b then 1 else 0)
  | .int v => Binary.ofInt f v.toInt
  | .uint v => Binary.ofInt f (v.toNat : Int)
  | .float v => v.convert f

/-- The number of 64 bits that a scalar becomes. One that is a number of that format
already is kept as it is. -/
def toBinary64 : Scalar → Binary binary64
  | .float v => v
  | s => s.toBinary binary64

/-- The truth value of a scalar. What is not a number is true, and both zeros are
false. -/
def toBool : Scalar → Bool
  | .bool b => b
  | .int v => v != 0
  | .uint v => v != 0
  | .float v => !v.isZero

end Scalar

/-- The types of the elements of a buffer. A buffer of type `scalar` holds values of
mixed kinds. -/
inductive ElementType
  | bool
  | int (t : IntType)
  | float32
  | float64
  | scalar
  deriving Repr, DecidableEq

namespace ElementType

/-- The values of an element type. -/
abbrev Value : ElementType → Type
  | .bool => Bool
  | .int t => t.Value
  | .float32 => Binary binary32
  | .float64 => Binary binary64
  | .scalar => Scalar

/-- A value as a scalar. This loses nothing, except that a number of 32 bits that is
not a number becomes a quiet one. -/
def toScalar : (t : ElementType) → t.Value → Scalar
  | .bool, b => .bool b
  | .int t, v =>
      if t.isSigned then .int (Int64.ofInt (t.toInt v)) else .uint (UInt64.ofNat (BitVec.toNat v))
  | .float32, x => .float (Binary.convert binary64 x)
  | .float64, x => .float x
  | .scalar, s => s

/-- The value of a type that a scalar becomes. -/
def ofScalar : (t : ElementType) → Scalar → t.Value
  | .bool, s => s.toBool
  | .int t, s => s.toIntType t
  | .float32, s => s.toBinary binary32
  | .float64, s => s.toBinary64
  | .scalar, s => s

/-- Converts a value from one type to another. -/
def convert (source target : ElementType) (v : source.Value) : target.Value :=
  if h : source = target then h ▸ v else target.ofScalar (source.toScalar v)

@[simp] theorem convert_self (t : ElementType) (v : t.Value) : convert t t v = v := by
  simp [convert]

theorem convert_of_ne {source target : ElementType} (h : source ≠ target) (v : source.Value) :
    convert source target v = target.ofScalar (source.toScalar v) := by
  simp [convert, h]

end ElementType

end StridedSlice
