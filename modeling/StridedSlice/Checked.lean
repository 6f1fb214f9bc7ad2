import StridedSlice.Cursor
/-!
# StridedSlice.Checked

**Checked arithmetic**, and the resolution of slices with it. `Slice.resolve` works on
words that wrap; here every operation on words that has no exact result is a fault, as it
is on a machine that watches for overflow. The two agree on all slices and lengths
(`StridedSlice.Proofs.Checked`), so a fault never happens.

* `add`, `sub`, `neg`, `mul`, `div` work on signed words, `size` makes sure that a number is
  a size;
* `resolve` follows `Slice.resolve` step by step, `position?` computes one selected position;
* `nextBack`, `skipNextBack` and `length` are the operations of a cursor that may fail. The
  front of a cursor moves by words that wrap in any case.
-/

namespace StridedSlice.Checked

/-- The word that stands for an integer. -/
def word (i : Int) : Except Stop Int64 :=
  if Int64.minValue.toInt ≤ i ∧ i ≤ Int64.maxValue.toInt then .ok (Int64.ofInt i)
  else .error .fault

/-- The sum of two words. -/
def add (a b : Int64) : Except Stop Int64 := word (a.toInt + b.toInt)

/-- The difference of two words. -/
def sub (a b : Int64) : Except Stop Int64 := word (a.toInt - b.toInt)

/-- A word with the opposite sign. -/
def neg (a : Int64) : Except Stop Int64 := word (-a.toInt)

/-- The product of two words. -/
def mul (a b : Int64) : Except Stop Int64 := word (a.toInt * b.toInt)

/-- The quotient of two words, rounded towards zero. -/
def div (a b : Int64) : Except Stop Int64 :=
  if b = 0 then .error .fault else word (a.toInt.tdiv b.toInt)

/-- A number that is the size of something in memory. -/
def size (n : Nat) : Except Stop Nat := if n < UInt64.size then .ok n else .error .fault

/-- Brings a written bound into `lower … upper`. -/
def clampBound (bound len lower upper : Int64) : Except Stop Int64 :=
  if bound < 0 then do return max (← add bound len) lower else return min bound upper

/-- A bound that may be left out. -/
def boundOr (default : Int64) (bound : Option Int64) (len lower upper : Int64) :
    Except Stop Int64 :=
  match bound with
  | none => return default
  | some v => clampBound v len lower upper

/-- The number of positions from `near` on and before `far` at a distance of `stride`. -/
def countBetween (near far stride : Int64) : Except Stop Nat :=
  if near < far then do
    let quotient ← div (← sub (← sub far near) 1) stride
    size (Selection.positionOf quotient + 1)
  else
    return 0

/-- The selection of an ascending slice. -/
def ascending (start stop : Option Int64) (step len : Int64) : Except Stop Selection := do
  let first ← boundOr 0 start len 0 len
  let bound ← boundOr len stop len 0 len
  return ⟨first, bound, step, ← countBetween first bound step⟩

/-- The selection of a descending slice. -/
def descending (start stop : Option Int64) (step len : Int64) : Except Stop Selection := do
  let last ← sub len 1
  let first ← boundOr last start len (-1) last
  let bound ← boundOr (-1) stop len (-1) last
  return ⟨first, bound, step, ← countBetween bound first (← neg step)⟩

/-- Resolves a slice against a sequence of `len` elements. -/
def resolve (s : Slice) (len : Nat) : Except Stop Selection :=
  if s.step = some 0 then
    .error (.refused .zeroStep)
  else
    let length := Int64.ofNat (Slice.effectiveLength len)
    if 0 < s.effectiveStep then
      ascending s.start s.stop s.effectiveStep length
    else
      descending s.start s.stop s.effectiveStep length

/-- The `i`-th selected position. -/
def position? (n : Selection) (i : Nat) : Except Stop (Option Nat) :=
  if i < n.count then do
    let term ← add n.start (← mul (Int64.ofNat i) n.step)
    return some (Selection.positionOf term)
  else
    return none

/-- Takes the position at the back of a cursor. -/
def nextBack (c : Cursor) : Except Stop (Option Nat × Cursor) :=
  match c.remaining with
  | 0 => .ok (none, c)
  | n + 1 => do
      let back ← add c.front (← mul (Int64.ofNat n) c.step)
      return (some (Selection.positionOf back), { c with remaining := n })

/-- Drops `n` positions at the back of a cursor, one after the other, and takes the one
before them. It ends at the first position that is not there. -/
def skipNextBack (c : Cursor) : Nat → Except Stop (Option Nat × Cursor)
  | 0 => nextBack c
  | n + 1 => do
      match ← nextBack c with
      | (none, c) => return (none, c)
      | (some _, c) => skipNextBack c n

/-- The number of positions left, for those who insist on an exact one. -/
def length (c : Cursor) : Except Stop Nat :=
  let (lower, upper) := c.sizeHint
  if upper = some lower then .ok lower else .error .fault

end StridedSlice.Checked
