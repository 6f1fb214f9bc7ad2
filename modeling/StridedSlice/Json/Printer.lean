import StridedSlice.Json.Value
/-!
# StridedSlice.Json.Printer

The **text** of a JSON value: compact, without a blank anywhere. Strings escape the
double quote, the backslash and the control characters, and nothing else. What is not a
finite number is written as `null`.
-/

namespace StridedSlice.Json

/-- Numbers of 64 bits are written plainly from `0.00001` up to sixteen whole digits. -/
def float64Style : DecimalStyle := ⟨-5, 15⟩

/-- Numbers of 32 bits are written plainly from `0.000001` up to thirteen whole digits. -/
def float32Style : DecimalStyle := ⟨-6, 12⟩

/-- The four hexadecimal digits of a control character. -/
def controlEscape (c : Char) : String :=
  let digits := Nat.toDigits 16 c.toNat
  "\\u" ++ String.ofList (List.replicate (4 - digits.length) '0') ++ String.ofList digits

/-- A character inside a string. -/
def escapedChar (c : Char) : String :=
  match c with
  | '"' => "\\\""
  | '\\' => "\\\\"
  | '\x08' => "\\b"
  | '\t' => "\\t"
  | '\n' => "\\n"
  | '\x0c' => "\\f"
  | '\r' => "\\r"
  | c => if c.toNat < 0x20 then controlEscape c else c.toString

/-- Writes a string onto `acc`. -/
def writeString (acc : String) (s : String) : String :=
  s.foldl (fun acc c => acc ++ escapedChar c) (acc ++ "\"") ++ "\""

mutual

/-- Writes a value onto `acc`. -/
def write (acc : String) : Json → String
  | .null => acc ++ "null"
  | .bool b => acc ++ (if b then "true" else "false")
  | .int i => acc ++ i.repr
  | .float32 x => acc ++ (float32Style.text? x).getD "null"
  | .float64 x => acc ++ (float64Style.text? x).getD "null"
  | .text s => writeString acc s
  | .array items => writeItems (acc ++ "[") "" items ++ "]"
  | .object members => writeMembers (acc ++ "\x7b") "" members ++ "\x7d"

/-- Writes the items of an array onto `acc`, the first after `separator` and the others
after a comma. -/
def writeItems (acc separator : String) : List Json → String
  | [] => acc
  | v :: rest => writeItems (write (acc ++ separator) v) "," rest

/-- Writes the members of an object onto `acc`, in the manner of `writeItems`. -/
def writeMembers (acc separator : String) : List (String × Json) → String
  | [] => acc
  | (name, v) :: rest =>
      writeMembers (write (writeString (acc ++ separator) name ++ ":") v) "," rest

end

/-- The text of a value. -/
def print (v : Json) : String := write "" v

end StridedSlice.Json
