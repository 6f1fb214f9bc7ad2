import StridedSlice.Slice
import StridedSlice.Error
/-!
# StridedSlice.Selection

A **selection** is a slice resolved against a length: the positions
`start + i * step` for `i < count`.

`Slice.resolve` follows the usual rules. A missing step is `1`. Bounds that are
missing take the ends of the sequence in the direction of the step; negative
bounds count from the end; all bounds are then clamped into the range that the
direction allows, which is `0 … len` going up and `-1 … len - 1` going down. Only
a zero step is an error, and it is found before anything else is looked at.

All arithmetic on bounds is on 64-bit words, because that is what the foreign
callers exchange. Two limits keep it exact: a length above the largest signed
word counts as that word, and a step below the negated largest word is raised to
it, so that it can be negated.
-/

namespace StridedSlice

/-- The greatest length that a selection distinguishes: the largest signed word, which is
`2 ^ 63 - 1`. -/
def maxLength : Nat := 9223372036854775807

/-- A slice resolved against a length. `stop` is the clamped exclusive bound; it is
`-1` for a descending selection that runs to the first position, and so is
`start` when a descending selection is empty. -/
structure Selection where
  /-- First selected position. -/
  start : Int64
  /-- Exclusive bound in the direction of the step. -/
  stop : Int64
  /-- Distance between neighbouring positions, never zero. -/
  step : Int64
  /-- Number of selected positions. -/
  count : Nat
  deriving Repr, DecidableEq, Inhabited

namespace Selection

/-- Brings a written bound into `lower … upper`. A negative bound first has the
length added, and can then only be too small; any other can only be too large. -/
def clampBound (bound len lower upper : Int64) : Int64 :=
  if bound < 0 then max (bound + len) lower else min bound upper

/-- A bound that may be left out: `default` stands in for a missing one. -/
def boundOr (default : Int64) (bound : Option Int64) (len lower upper : Int64) : Int64 :=
  match bound with
  | none => default
  | some v => clampBound v len lower upper

/-- The number of positions at a distance of `stride` from each other in a nonempty
span of `span` positions, the first one included. -/
def countIn (span stride : Int64) : Nat :=
  ((span - 1) / stride).toUInt64.toNat + 1

/-- The selection of an ascending slice. -/
def ascending (start stop : Option Int64) (step len : Int64) : Selection :=
  let first := boundOr 0 start len 0 len
  let bound := boundOr len stop len 0 len
  ⟨first, bound, step, if first < bound then countIn (bound - first) step else 0⟩

/-- The selection of a descending slice. -/
def descending (start stop : Option Int64) (step len : Int64) : Selection :=
  let first := boundOr (len - 1) start len (-1) (len - 1)
  let bound := boundOr (-1) stop len (-1) (len - 1)
  ⟨first, bound, step, if bound < first then countIn (first - bound) (-step) else 0⟩

/-- True when nothing is selected. -/
def isEmpty (s : Selection) : Bool := s.count == 0

/-- True when the selected positions form one ascending run without gaps. -/
def isContiguous (s : Selection) : Bool := s.step == 1

/-- The position that a word of the resolved arithmetic stands for. -/
def positionOf (w : Int64) : Nat := w.toUInt64.toNat

/-- The `i`-th selected position. -/
def position? (s : Selection) (i : Nat) : Option Nat :=
  if i < s.count then some (positionOf (s.start + Int64.ofNat i * s.step)) else none

/-- The last selected position. -/
def last? (s : Selection) : Option Nat :=
  match s.count with
  | 0 => none
  | n + 1 => s.position? n

@[simp] theorem position?_eq_none_iff {s : Selection} {i : Nat} :
    s.position? i = none ↔ s.count ≤ i := by
  simp [position?]

end Selection

namespace Slice

/-- The length as far as a selection distinguishes lengths. -/
def effectiveLength (len : Nat) : Nat := min len maxLength

/-- The step that a slice is walked with: `1` when absent, and never so low that it
cannot be negated. -/
def effectiveStep (s : Slice) : Int64 :=
  match s.step with
  | none => 1
  | some v => max v (-Int64.maxValue)

/-- Resolves a slice against a sequence of `len` elements. -/
def resolve (s : Slice) (len : Nat) : Except SliceError Selection :=
  if s.step = some 0 then
    .error .zeroStep
  else
    let step := s.effectiveStep
    let length := Int64.ofNat (effectiveLength len)
    if 0 < step then
      .ok (Selection.ascending s.start s.stop step length)
    else
      .ok (Selection.descending s.start s.stop step length)

/-- A zero step is the only reason to refuse a slice, and it always is one. -/
theorem resolve_eq_error_iff {s : Slice} {len : Nat} {e : SliceError} :
    s.resolve len = .error e ↔ s.step = some 0 ∧ e = .zeroStep := by
  unfold resolve
  by_cases h : s.step = some 0
  · simp [h, eq_comm]
  · by_cases hs : 0 < s.effectiveStep <;> simp [h, hs]

end Slice

end StridedSlice
