import StridedSlice.Status
/-!
# StridedSlice.Error

The three ways in which a slice load or store fails. Each is found before the
destination is touched. An error is its cause; texts and codes are functions of
the cause.

A computation that runs under the checks of a machine has one more way to end, a
`Stop.fault`. That no input leads to one is a theorem about the engine, not a matter
of its types.
-/

namespace StridedSlice

/-- Why a slice operation was refused. -/
inductive SliceError
  /-- The slice has a step of zero. -/
  | zeroStep
  /-- A sequence of `len` elements was assigned to `count` positions. -/
  | lengthMismatch (count len : Nat)
  /-- A single index falls outside a sequence of `len` elements. -/
  | indexOutOfBounds (index : Int64) (len : Nat)
  deriving Repr, DecidableEq

namespace SliceError

/-- The text shown to users. -/
def message : SliceError → String
  | .zeroStep => "slice step cannot be zero"
  | .lengthMismatch count len =>
      "cannot assign sequence of length " ++ len.repr ++ " to slice selecting " ++
        count.repr ++ " elements"
  | .indexOutOfBounds _ _ => "index out of bounds"

/-- The status that a foreign call answers with. -/
def status : SliceError → Status
  | .zeroStep => .zeroStep
  | .lengthMismatch _ _ => .lengthMismatch
  | .indexOutOfBounds _ _ => .indexOutOfBounds

/-- The code under which reports list the error. -/
def diagnosticCode : SliceError → String
  | .zeroStep => "NSLICE-SLICE-0001"
  | .lengthMismatch _ _ => "NSLICE-SLICE-0002"
  | .indexOutOfBounds _ _ => "NSLICE-SLICE-0003"

end SliceError

/-- Why a computation on memory ended early. -/
inductive Stop
  /-- The operation was refused. -/
  | refused (cause : SliceError)
  /-- A check of the machine failed: a word or a size overflowed, or an index or a
  range lies outside its array. -/
  | fault
  deriving Repr, DecidableEq

namespace Stop

/-- The status that a foreign call answers with. -/
def status : Stop → Status
  | .refused cause => cause.status
  | .fault => .internalError

end Stop

end StridedSlice
