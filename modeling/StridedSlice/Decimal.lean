import StridedSlice.Binary
/-!
# StridedSlice.Decimal

Between binary numbers and **decimal** numerals.

* `Binary.ofParts?` reads `significand * 10 ^ scale` with the help of a table of powers of
  ten, so it may round more than once, and what it finds need not be the nearest number;
* `Binary.shortest` finds the decimal with the fewest digits that reads back to a
  given number, and of those the nearest to it.

The decimals that read back to a number are those in its *rounding interval*,
which reaches half-way to its two neighbours; its ends belong to it when the
significand is even. The shortest of them lie on the coarsest decimal grid
`10 ^ e` that has a point in the interval. If a grid has one, then one of the two
points next to the number is one, so only those two are looked at.
-/

namespace StridedSlice

/-- The decimal `digits * 10 ^ exponent`. -/
structure Decimal where
  /-- The digits, read as one number. -/
  digits : Nat
  /-- The power of ten of the last digit. -/
  exponent : Int
  deriving Repr, DecidableEq

namespace Binary

/-! ## Reading -/

/-- The greatest exponent in the table of powers of ten. -/
def greatestPower : Nat := 308

/-- An entry of the table of powers of ten: the number of 64 bits nearest to `10 ^ n`. -/
def powerOfTen (n : Nat) : Binary binary64 := nearest binary64 false (Nat.pow 10 n) 1

/-- Divides by the greatest power of the table `n` times, or until nothing is left. -/
def lower (x : Binary binary64) : Nat → Binary binary64
  | 0 => x
  | n + 1 => if x.isZero then x else lower (x.div (powerOfTen greatestPower)) n

/-- Reads `significand * 10 ^ scale`; none if that is out of range. The significand is
rounded, and then it is multiplied or divided by an entry of the table, which rounds again.
A scale below the table takes more divisions than one. -/
def ofParts? (significand : Nat) (scale : Int) : Option (Binary binary64) :=
  let x := nearest binary64 false significand 1
  if scale < 0 then
    let steps := (scale.natAbs - 1) / greatestPower
    some ((x.lower steps).div (powerOfTen (scale.natAbs - steps * greatestPower)))
  else if scale ≤ greatestPower then
    let y := x.mul (powerOfTen scale.toNat)
    if y.magnitude = binary64.infinity then none else some y
  else if x.isZero then some x
  else none

/-! ## Shortest digits -/

/-- The rounding interval of a number, in quarters of its unit. -/
structure RoundingInterval where
  /-- Lower end. -/
  low : Nat
  /-- The number itself. -/
  value : Nat
  /-- Upper end. -/
  high : Nat
  /-- Whether the ends belong to the interval. -/
  closed : Bool

/-- The rounding interval of `significand * 2 ^ exponent`, in quarters of
`2 ^ exponent`. The neighbour below is at half the usual distance when the
significand is the least with a hidden bit, except in the lowest binade. -/
def roundingInterval (f : BinaryFormat) (significand : Nat) (exponent : Int) :
    RoundingInterval :=
  let below :=
    if significand = Nat.pow 2 f.fractionBits ∧ f.leastExponent < exponent then 1 else 2
  ⟨4 * significand - below, 4 * significand, 4 * significand + 2, significand % 2 == 0⟩

/-- Whether the interval, scaled by `num`, has the point `p`. -/
def RoundingInterval.holds (i : RoundingInterval) (num p : Nat) : Bool :=
  if i.closed then i.low * num ≤ p && p ≤ i.high * num
  else i.low * num < p && p < i.high * num

/-- The point of the grid with spacing `den / num` nearest to the number of the
interval, if the interval has a point of the grid. Of two equally near points the
even one is taken. -/
def RoundingInterval.gridPoint? (i : RoundingInterval) (num den : Nat) : Option Nat :=
  let d := i.value * num / den
  let r := i.value * num % den
  let lower := i.holds num (d * den)
  let upper := i.holds num ((d + 1) * den)
  if lower && upper then
    if 2 * r < den then some d
    else if den < 2 * r then some (d + 1)
    else some (d + d % 2)
  else if lower then some d
  else if upper then some (d + 1)
  else none

/-- Looks for the coarsest grid with a point in the interval, from `10 ^ e` downwards
through `n` grids. The unit of the interval is `2 ^ unit`. Without a grid left, which
`gridCount` rules out, the answer is zero. -/
def coarsest (i : RoundingInterval) (unit : Int) : Nat → Int → Decimal
  | 0, e => ⟨0, e⟩
  | n + 1, e =>
      let num := Nat.pow 2 unit.toNat * Nat.pow 10 (-e).toNat
      let den := Nat.pow 2 (-unit).toNat * Nat.pow 10 e.toNat
      match i.gridPoint? num den with
      | some d => ⟨d, e⟩
      | none => coarsest i unit n (e - 1)

/-- A number of grids that is enough for the two formats: seventeen digits separate
all numbers of 64 bits, and the search starts at most four grids too coarse. -/
def gridCount : Nat := 22

/-- The shortest decimal that reads back to `significand * 2 ^ exponent`, and of those
the nearest. The significand has to be positive. -/
def shortest (f : BinaryFormat) (significand : Nat) (exponent : Int) : Decimal :=
  let top : Int := (significand.log2 : Int) + exponent
  coarsest (roundingInterval f significand exponent) (exponent - 2) gridCount
    ((top + 1) * 30103 / 100000 + 2)

end Binary

/-! ## Writing -/

/-- How a decimal is written: plainly while its leading digit counts a power of ten
between the two bounds, and with an exponent otherwise. -/
structure DecimalStyle where
  /-- Least exponent of the leading digit that is written plainly. -/
  plainFrom : Int
  /-- Greatest exponent of the leading digit that is written plainly. -/
  plainTo : Int

namespace DecimalStyle

/-- A run of zeros. -/
def zeros (n : Nat) : String := String.ofList (List.replicate n '0')

/-- Plain notation, with at least one decimal. -/
def plain (ds : List Char) (lead : Int) : String :=
  if lead < 0 then
    "0." ++ zeros (-lead - 1).toNat ++ String.ofList ds
  else
    let whole := lead.toNat + 1
    if ds.length ≤ whole then
      String.ofList ds ++ zeros (whole - ds.length) ++ ".0"
    else
      String.ofList (ds.take whole) ++ "." ++ String.ofList (ds.drop whole)

/-- Notation with an exponent, which always has a sign and is never padded. A single
digit has no point. -/
def scientific (ds : List Char) (lead : Int) : String :=
  let fraction := ds.drop 1
  String.ofList (ds.take 1) ++
    (if fraction.isEmpty then "" else "." ++ String.ofList fraction) ++
    "e" ++ (if lead < 0 then "-" else "+") ++ lead.natAbs.repr

/-- The text of a positive decimal. -/
def write (style : DecimalStyle) (d : Decimal) : String :=
  let ds := Nat.toDigits 10 d.digits
  let lead := d.exponent + (ds.length : Int) - 1
  if style.plainFrom ≤ lead ∧ lead ≤ style.plainTo then plain ds lead else scientific ds lead

/-- The text of a number in the fewest digits that read back; none for what is not a
finite number. -/
def text? {f : BinaryFormat} (style : DecimalStyle) (x : Binary f) : Option String :=
  match x.content with
  | .nan => none
  | .infinite _ => none
  | .finite negative significand exponent =>
      let sign := if negative then "-" else ""
      if significand = 0 then some (sign ++ "0.0")
      else some (sign ++ style.write (Binary.shortest f significand exponent))

end DecimalStyle

end StridedSlice
