/-!
# StridedSlice.Binary

**Binary floating point numbers** as bit patterns, in exact arithmetic. A number is
stored as a sign bit, an exponent field and a fraction field; the last two
together are its *magnitude*, a natural number that grows with the absolute value.

* `Binary.content` decodes a pattern to `significand * 2 ^ exponent`;
* `Binary.nearest` rounds any quotient of natural numbers to the nearest pattern,
  a tie going to the even one, in a single rounding;
* products, quotients, and conversions to integers and between formats are built from these
  two.

No operation here goes through the floating point unit, so everything can be
reasoned about with natural numbers. Powers are written `Nat.pow`, which means the
same whatever else is imported.
-/

namespace StridedSlice

/-- A binary format, given by the widths of its two fields. -/
structure BinaryFormat where
  /-- Width of the fraction field. -/
  fractionBits : Nat
  /-- Width of the exponent field. -/
  exponentBits : Nat
  deriving Repr, DecidableEq

/-- The format of 32 bits. -/
abbrev binary32 : BinaryFormat := ⟨23, 8⟩

/-- The format of 64 bits. -/
abbrev binary64 : BinaryFormat := ⟨52, 11⟩

namespace BinaryFormat

/-- Width of a whole pattern. -/
abbrev width (f : BinaryFormat) : Nat := f.fractionBits + f.exponentBits + 1

/-- The magnitude of infinity: an exponent field of ones and a fraction of zero.
Larger magnitudes are not numbers. -/
def infinity (f : BinaryFormat) : Nat := (Nat.pow 2 f.exponentBits - 1) * Nat.pow 2 f.fractionBits

/-- The exponent of the smallest positive number, of which all numbers of the format
are multiples. -/
def leastExponent (f : BinaryFormat) : Int :=
  2 - (Nat.pow 2 (f.exponentBits - 1) : Int) - (f.fractionBits : Int)

end BinaryFormat

/-- A number of a binary format, by its bit pattern. -/
structure Binary (f : BinaryFormat) where
  /-- The pattern: sign, exponent field and fraction, from the top. -/
  bits : BitVec f.width
  deriving Repr, DecidableEq

/-- What a bit pattern stands for. -/
inductive BinaryContent
  | nan
  | infinite (negative : Bool)
  /-- The value `significand * 2 ^ exponent`, negated if `negative`. -/
  | finite (negative : Bool) (significand : Nat) (exponent : Int)
  deriving Repr, DecidableEq

namespace Binary

variable {f : BinaryFormat}

/-- Exponent field and fraction as one number. -/
def magnitude (x : Binary f) : Nat := x.bits.toNat % Nat.pow 2 (f.width - 1)

/-- The sign bit. -/
def isNegative (x : Binary f) : Bool := x.bits.msb

/-- The pattern with a given sign and magnitude. -/
def ofMagnitude (f : BinaryFormat) (negative : Bool) (magnitude : Nat) : Binary f :=
  ⟨BitVec.ofNat f.width ((if negative then Nat.pow 2 (f.width - 1) else 0) + magnitude)⟩

/-- Decodes a pattern. An exponent field of zero has no hidden bit and the exponent
of field one. -/
def content (x : Binary f) : BinaryContent :=
  if x.magnitude = f.infinity then .infinite x.isNegative
  else if f.infinity < x.magnitude then .nan
  else
    let field := x.magnitude / Nat.pow 2 f.fractionBits
    let fraction := x.magnitude % Nat.pow 2 f.fractionBits
    if field = 0 then .finite x.isNegative fraction f.leastExponent
    else
      .finite x.isNegative (Nat.pow 2 f.fractionBits + fraction)
        (f.leastExponent + (field - 1 : Nat))

/-- True for the patterns that are not numbers. -/
def isNaN (x : Binary f) : Bool := f.infinity < x.magnitude

/-- Whether the pattern is a number that is not infinite. -/
def IsFinite (x : Binary f) : Prop := x.magnitude < f.infinity

instance (x : Binary f) : Decidable x.IsFinite := inferInstanceAs (Decidable (_ < _))

/-- True for both zeros. -/
def isZero (x : Binary f) : Bool := x.magnitude == 0

/-! ## Rounding -/

/-- The natural number nearest to `num / den`; a tie goes to the even one. -/
def roundQuotient (num den : Nat) : Nat :=
  let q := num / den
  let r := num % den
  if 2 * r < den then q
  else if den < 2 * r then q + 1
  else q + q % 2

/-- The quotient `num / den` in units of `2 ^ e`, again as a quotient. -/
def inUnits (num den : Nat) (e : Int) : Nat × Nat :=
  (num * Nat.pow 2 (-e).toNat, den * Nat.pow 2 e.toNat)

/-- The exponent of the highest binary digit of `num / den`: the greatest `e` such
that `2 ^ e ≤ num / den`, for positive arguments. -/
def floorLog2 (num den : Nat) : Int :=
  let e : Int := (num.log2 : Int) - (den.log2 : Int)
  let scaled := inUnits num den e
  if scaled.2 ≤ scaled.1 then e else e - 1

/-- The pattern nearest to `num / den` with the given sign; a tie goes to the even
magnitude, and what lies beyond the largest number goes to infinity. The quotient
is rounded once, to a multiple of the unit that numbers of its size have. The
magnitude then is that multiple, raised by one step of the exponent field for
every binade above the lowest; a carry out of the significand lands in the
exponent field by itself. -/
def nearest (f : BinaryFormat) (negative : Bool) (num den : Nat) : Binary f :=
  if num = 0 then ofMagnitude f negative 0
  else
    let e := max f.leastExponent (floorLog2 num den - (f.fractionBits : Int))
    let scaled := inUnits num den e
    let steps := (e - f.leastExponent).toNat
    ofMagnitude f negative
      (min f.infinity (roundQuotient scaled.1 scaled.2 + steps * Nat.pow 2 f.fractionBits))

/-- The number nearest to an integer. -/
def ofInt (f : BinaryFormat) (i : Int) : Binary f := nearest f (i < 0) i.natAbs 1

/-- The number nearest to `significand * 2 ^ exponent`. -/
def ofScaled (f : BinaryFormat) (negative : Bool) (significand : Nat) (exponent : Int) :
    Binary f :=
  nearest f negative (significand * Nat.pow 2 exponent.toNat) (Nat.pow 2 (-exponent).toNat)

/-- The product of two finite numbers, rounded once. -/
def mul (x y : Binary f) : Binary f :=
  match x.content, y.content with
  | .finite negative s e, .finite negative' s' e' =>
      ofScaled f (negative != negative') (s * s') (e + e')
  | _, _ => x

/-- The quotient of two finite numbers, of which the second is not zero, rounded once. -/
def div (x y : Binary f) : Binary f :=
  match x.content, y.content with
  | .finite negative s e, .finite negative' s' e' =>
      nearest f (negative != negative') (s * Nat.pow 2 (e - e').toNat)
        (s' * Nat.pow 2 (e' - e).toNat)
  | _, _ => x

/-- A pattern that is not a number, in another format. It keeps its sign and the
leading bits of its fraction, and is made quiet. -/
def convertNaN (g : BinaryFormat) (x : Binary f) : Binary g :=
  let fraction := x.magnitude - f.infinity
  let kept := fraction * Nat.pow 2 (g.fractionBits - f.fractionBits) /
    Nat.pow 2 (f.fractionBits - g.fractionBits)
  ofMagnitude g x.isNegative (g.infinity + (kept ||| Nat.pow 2 (g.fractionBits - 1)))

/-- The nearest number of another format. -/
def convert (g : BinaryFormat) (x : Binary f) : Binary g :=
  match x.content with
  | .nan => x.convertNaN g
  | .infinite negative => ofMagnitude g negative g.infinity
  | .finite negative significand exponent => ofScaled g negative significand exponent

/-! ## To integers -/

/-- `value`, negated if `negative`. -/
def signed (negative : Bool) (value : Nat) : Int :=
  if negative then -(value : Int) else value

/-- The integer next to `significand * 2 ^ exponent` towards zero. -/
def truncateScaled (significand : Nat) (exponent : Int) : Nat :=
  significand * Nat.pow 2 exponent.toNat / Nat.pow 2 (-exponent).toNat

/-- The integer next to a number towards zero, brought into `least … greatest`. What
is not a number becomes zero, which has to be in that range. -/
def toIntWithin (least greatest : Int) (x : Binary f) : Int :=
  match x.content with
  | .nan => 0
  | .infinite negative => if negative then least else greatest
  | .finite negative significand exponent =>
      max least (min greatest (signed negative (truncateScaled significand exponent)))

end Binary

end StridedSlice
