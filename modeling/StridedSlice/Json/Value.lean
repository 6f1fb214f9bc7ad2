import StridedSlice.Decimal
/-!
# StridedSlice.Json.Value

JSON **values** that are written. Numbers keep their kind, because it decides their
text: an integer has no point, and a floating point number has the fewest digits that
read back in its own format. Members of an object stand in the order in which they are
written.

`Attributes` are members that are kept sorted by name, for the parts of a report that
anyone may add to.
-/

namespace StridedSlice

/-- A JSON value. -/
inductive Json
  | null
  | bool (b : Bool)
  | int (i : Int)
  | float32 (x : Binary binary32)
  | float64 (x : Binary binary64)
  | text (s : String)
  | array (items : List Json)
  | object (members : List (String × Json))
  deriving Inhabited

namespace Json

/-- A natural number as a value. -/
def nat (n : Nat) : Json := .int n

end Json

/-- Members of an object, ascending by name and each name once. -/
abbrev Attributes : Type := List (String × Json)

namespace Attributes

/-- Sets the value of a name, in place of the value it may have. -/
def set (name : String) (value : Json) : Attributes → Attributes
  | [] => [(name, value)]
  | (k, v) :: rest =>
      if name < k then (name, value) :: (k, v) :: rest
      else if name = k then (name, value) :: rest
      else (k, v) :: set name value rest

/-- The value of a name. -/
def get? (name : String) (attributes : Attributes) : Option Json :=
  (attributes.find? (·.1 == name)).map (·.2)

end Attributes

end StridedSlice
