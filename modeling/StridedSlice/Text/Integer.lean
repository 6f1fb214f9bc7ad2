/-!
# StridedSlice.Text.Integer

**Integers of 64 bits** as settings and arguments write them: decimal digits with an
optional sign, and any number of leading zeros. There are no blanks, and at least one
digit. An unsigned number may have a plus sign only.
-/

namespace StridedSlice.Text

/-- Appends one decimal digit to a number. -/
def appendDigit (n : Nat) (c : Char) : Option Nat :=
  if c.isDigit then some (10 * n + (c.toNat - 48)) else none

/-- The number that decimal digits stand for. There has to be a digit. -/
def natural? : List Char → Option Nat
  | [] => none
  | c :: cs => (c :: cs).foldlM appendDigit 0

/-- An unsigned number of 64 bits. -/
def unsigned? (s : String) : Option Nat :=
  let value :=
    match s.toList with
    | '+' :: cs => natural? cs
    | cs => natural? cs
  value.filter (· < UInt64.size)

/-- A signed number of 64 bits. -/
def signed? (s : String) : Option Int64 :=
  let value : Option Int :=
    match s.toList with
    | '+' :: cs => (natural? cs).map fun n => (n : Int)
    | '-' :: cs => (natural? cs).map fun n => -(n : Int)
    | cs => (natural? cs).map fun n => (n : Int)
  (value.filter fun i => Int64.minValue.toInt ≤ i ∧ i ≤ Int64.maxValue.toInt).map Int64.ofInt

end StridedSlice.Text
