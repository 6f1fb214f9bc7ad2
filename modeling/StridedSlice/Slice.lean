/-!
# StridedSlice.Slice

A **slice** as it is written at the place of use: `start:stop:step` with each
part possibly left out. Nothing is resolved here; what an absent part stands for
depends on the sign of the step and on the length of the sequence
(`StridedSlice.Selection`).

* `Slice` holds the three optional machine words;
* `Slice.text` is the written form that reports and log lines quote.
-/

namespace StridedSlice

/-- A slice as written. `none` is a part that was left out. -/
structure Slice where
  /-- First position, counted from the end when negative. -/
  start : Option Int64
  /-- Exclusive bound, counted from the end when negative. -/
  stop : Option Int64
  /-- Distance between neighbouring positions. -/
  step : Option Int64
  deriving Repr, DecidableEq, Inhabited

namespace Slice

/-- The decimal text of a part; an absent part has no text. -/
def partText : Option Int64 → String
  | none => ""
  | some v => v.toInt.repr

/-- The written form. The colon between start and stop is always there, the one
before the step only when a step is written. -/
def text (s : Slice) : String :=
  partText s.start ++ ":" ++ partText s.stop ++
    (match s.step with
      | none => ""
      | some v => ":" ++ v.toInt.repr)

end Slice

end StridedSlice
