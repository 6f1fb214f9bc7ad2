import StridedSlice.Element
import StridedSlice.Text.Blank
import StridedSlice.Text.Quoted
/-!
# StridedSlice.DType

The **data types** of scripts and of the command line: the element types that have a
name and a width of their own. Their names are fixed; `intp` and `uintp` are further
names of the widest integers.

* `DType.ofName?` knows the exact names;
* `DType.parse` also allows blanks around a name and capital ASCII letters, and its
  error keeps the text it compared.
-/

namespace StridedSlice

/-- A named data type. -/
inductive DType
  | bool
  | int8
  | int16
  | int32
  | int64
  | uint8
  | uint16
  | uint32
  | uint64
  | float32
  | float64
  deriving Repr, DecidableEq, Inhabited

namespace DType

/-- Every data type, in the order messages list them. -/
def all : List DType :=
  [.bool, .int8, .int16, .int32, .int64, .uint8, .uint16, .uint32, .uint64, .float32, .float64]

/-- The name of a data type. -/
def name : DType → String
  | .bool => "bool"
  | .int8 => "int8"
  | .int16 => "int16"
  | .int32 => "int32"
  | .int64 => "int64"
  | .uint8 => "uint8"
  | .uint16 => "uint16"
  | .uint32 => "uint32"
  | .uint64 => "uint64"
  | .float32 => "float32"
  | .float64 => "float64"

/-- The data type with a given name. -/
def ofName? : String → Option DType
  | "bool" => some .bool
  | "int8" => some .int8
  | "int16" => some .int16
  | "int32" => some .int32
  | "int64" => some .int64
  | "intp" => some .int64
  | "uint8" => some .uint8
  | "uint16" => some .uint16
  | "uint32" => some .uint32
  | "uint64" => some .uint64
  | "uintp" => some .uint64
  | "float32" => some .float32
  | "float64" => some .float64
  | _ => none

/-- Width of one element in bytes. -/
def byteWidth : DType → Nat
  | .bool | .int8 | .uint8 => 1
  | .int16 | .uint16 => 2
  | .int32 | .uint32 | .float32 => 4
  | .int64 | .uint64 | .float64 => 8

/-- The type of the elements. -/
abbrev elementType : DType → ElementType
  | .bool => .bool
  | .int8 => .int .int8
  | .int16 => .int .int16
  | .int32 => .int .int32
  | .int64 => .int .int64
  | .uint8 => .int .uint8
  | .uint16 => .int .uint16
  | .uint32 => .int .uint32
  | .uint64 => .int .uint64
  | .float32 => .float32
  | .float64 => .float64

/-- The form in which a text is compared with the names: without blanks at its ends,
and with small ASCII letters. -/
def normalForm (text : String) : String :=
  String.ofList ((Text.trimList text.toList).map Char.toLower)

/-- The text that names no data type. -/
structure ParseError where
  /-- The text in the form in which it was compared. -/
  text : String
  deriving Repr, DecidableEq

/-- The message for a text that names no data type. -/
def ParseError.message (e : ParseError) : String :=
  "unknown dtype " ++ Text.quoted e.text ++ " (expected one of: " ++
    ", ".intercalate (all.map name) ++ ")"

/-- Reads a data type. -/
def parse (text : String) : Except ParseError DType :=
  match ofName? (normalForm text) with
  | some d => .ok d
  | none => .error ⟨normalForm text⟩

theorem ofName?_name (d : DType) : ofName? d.name = some d := by
  cases d <;> rfl

theorem mem_all (d : DType) : d ∈ all := by
  cases d <;> decide

end DType

end StridedSlice
