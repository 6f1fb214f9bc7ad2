import StridedSlice.DType
import StridedSlice.Limits
import StridedSlice.Store
/-!
# StridedSlice.Script.Basic

A **script** is a buffer, given by a data type and the values of its elements, and a list
of operations on it: stores through a slice, stores at one position, and loads through a
slice.

`Script.validate` checks the schema of a script and that it stays within the limits. It
looks at nothing that an operation does.
-/

namespace StridedSlice

/-- The schema that scripts follow. -/
def scriptSchema : String := "nslice.script@0.1.0"

/-- An operation on a buffer. -/
inductive Operation
  /-- Gives a value, or the values of a sequence, to the selected positions. -/
  | assign (slice : Slice) (value : Source Scalar)
  /-- Gives a value to one position. -/
  | assignAt (index : Int64) (value : Scalar)
  /-- Reads the selected elements. -/
  | load (slice : Slice)
  deriving Repr

namespace Operation

/-- The name of an operation in scripts and reports. -/
def name : Operation → String
  | .assign _ _ => "setitem"
  | .assignAt _ _ => "store"
  | .load _ => "getitem"

/-- The slice that an operation works on. -/
def slice? : Operation → Option Slice
  | .assign s _ => some s
  | .assignAt _ _ => none
  | .load s => some s

/-- The sequence that an operation stores. -/
def sequence? : Operation → Option (Array Scalar)
  | .assign _ (.sequence vs) => some vs
  | _ => none

end Operation

/-- A buffer and what to do with it. -/
structure Script where
  /-- The schema that the script claims to follow. -/
  schemaVersion : Option String
  /-- The type of the elements. -/
  dtype : DType
  /-- The values of the elements. -/
  data : Array Scalar
  /-- The operations, in order. -/
  operations : List Operation

/-- Why a script is not run. -/
inductive InvalidScript
  /-- It claims to follow another schema. -/
  | schema (found : String)
  /-- The buffer has too many elements. -/
  | manyElements (count limit : Nat)
  /-- There are too many operations. -/
  | manyOperations (count limit : Nat)
  /-- The operation at position `op` stores too long a sequence. -/
  | longSequence (op count limit : Nat)
  deriving Repr, DecidableEq

namespace InvalidScript

/-- The message for an invalid script. -/
def message : InvalidScript → String
  | .schema found =>
      "script.schema_version must be " ++ Text.quoted scriptSchema ++ ", got " ++
        Text.quoted found
  | .manyElements count limit =>
      "script.data has " ++ count.repr ++ " elements (limit " ++ limit.repr ++ "; set " ++
        Limits.elementsVariable ++ " to raise it)"
  | .manyOperations count limit =>
      "script.ops has " ++ count.repr ++ " entries (limit " ++ limit.repr ++ "; set " ++
        Limits.operationsVariable ++ " to raise it)"
  | .longSequence op count limit =>
      "script.ops[" ++ op.repr ++ "].value has " ++ count.repr ++ " elements (limit " ++
        limit.repr ++ ")"

end InvalidScript

namespace Script

/-- The first sequence longer than `limit`, among operations at positions from `op` on,
with its position and its length. -/
def findLongSequence (limit : Nat) : Nat → List Operation → Option (Nat × Nat)
  | _, [] => none
  | op, o :: rest =>
      match o.sequence? with
      | some vs =>
        if limit < vs.size then some (op, vs.size) else findLongSequence limit (op + 1) rest
      | none => findLongSequence limit (op + 1) rest

/-- Whether a script that claims `schema` may be run. Blanks around the schema do not
count. -/
def acceptsSchema : Option String → Bool
  | none => true
  | some v => Text.trimList v.toList == scriptSchema.toList

/-- Checks the schema and the limits, in the order in which they are reported. -/
def validate (s : Script) (limits : Limits) : Except InvalidScript Unit :=
  if !acceptsSchema s.schemaVersion then
    .error (.schema (s.schemaVersion.getD ""))
  else if limits.elements < s.data.size then
    .error (.manyElements s.data.size limits.elements)
  else if limits.operations < s.operations.length then
    .error (.manyOperations s.operations.length limits.operations)
  else
    match findLongSequence limits.elements 0 s.operations with
    | some (op, count) => .error (.longSequence op count limits.elements)
    | none => .ok ()

end Script

end StridedSlice
