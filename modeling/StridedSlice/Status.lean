/-!
# StridedSlice.Status

The **status codes** that the foreign entry points answer with, and the fixed
text of each. A code is a 32-bit word, so callers may ask for the text of any
word; only seven of them are assigned.
-/

namespace StridedSlice

/-- Outcome of a foreign call. -/
inductive Status
  | ok
  | zeroStep
  | lengthMismatch
  | indexOutOfBounds
  | nullPointer
  | internalError
  | outputTooSmall
  deriving Repr, DecidableEq

namespace Status

/-- Every status, in the order of the codes. -/
def all : List Status :=
  [.ok, .zeroStep, .lengthMismatch, .indexOutOfBounds, .nullPointer, .internalError,
    .outputTooSmall]

/-- The code of a status. Zero is success. -/
def code : Status → Int32
  | .ok => 0
  | .zeroStep => 1
  | .lengthMismatch => 2
  | .indexOutOfBounds => 3
  | .nullPointer => 4
  | .internalError => 5
  | .outputTooSmall => 6

/-- The status that a code is assigned to. -/
def ofCode? (c : Int32) : Option Status :=
  all.find? (·.code == c)

/-- The fixed text of a status. It carries no lengths or indices, for callers
that have only the code. -/
def message : Status → String
  | .ok => "ok"
  | .zeroStep => "slice step cannot be zero"
  | .lengthMismatch => "source sequence length does not match slice selection"
  | .indexOutOfBounds => "index out of bounds"
  | .nullPointer => "null array pointer with nonzero length"
  | .internalError => "internal error"
  | .outputTooSmall => "output buffer too small for slice selection"

/-- The text for any code, assigned or not. -/
def messageOfCode (c : Int32) : String :=
  match ofCode? c with
  | some s => s.message
  | none => "unknown status code"

/-- Reading a code back gives the status it was taken from. -/
theorem ofCode?_code (s : Status) : ofCode? s.code = some s := by
  cases s <;> rfl

theorem messageOfCode_code (s : Status) : messageOfCode s.code = s.message := by
  simp [messageOfCode, ofCode?_code]

end Status

end StridedSlice
