import StridedSlice.DType
import StridedSlice.Json.Content
import StridedSlice.Json.Printer
/-!
# StridedSlice.Json.Decode

What all **decoders** of JSON texts share: how they fail, and how they read the parts of a
document that are looked at as soon as they are met.

A decoder fails with a fault of the text or with a `Mismatch`, a value that is not what it
should be. It reports whichever comes first in the text. A value of the wrong kind is
refused when its kind is known: a container at its opening bracket, anything else when it
has been read.
-/

namespace StridedSlice.Json

/-- What is found where something else should stand. -/
inductive Found
  | null
  | scalar (s : Scalar)
  | text (s : String)
  | array
  | object
  deriving Repr, DecidableEq

namespace Found

/-- The name of what is found, in messages. -/
def describe : Found → String
  | .null => "null"
  | .scalar (.bool b) => "boolean `" ++ (if b then "true" else "false") ++ "`"
  | .scalar (.int v) => "integer `" ++ v.toInt.repr ++ "`"
  | .scalar (.uint v) => "integer `" ++ v.toNat.repr ++ "`"
  | .scalar (.float x) => "floating point `" ++ (float64Style.text? x).getD "null" ++ "`"
  | .text s => "string " ++ Text.quoted s
  | .array => "sequence"
  | .object => "map"

end Found

/-- How a value differs from what it should be. -/
inductive Mismatch
  /-- A member has none of the known names. -/
  | unknownField (name : String) (known : List String)
  /-- A tag has none of the known values. -/
  | unknownVariant (name : String) (known : List String)
  /-- A member is missing. -/
  | missingField (name : String)
  /-- A member occurs twice. -/
  | duplicateField (name : String)
  /-- A value is none of the alternatives of a union. -/
  | noAlternative (union : String)
  /-- A sequence has the wrong length. -/
  | wrongLength (length : Nat) (expected : String)
  /-- A value is of the wrong kind. -/
  | wrongKind (found : Found) (expected : String)
  /-- An integer is out of range. -/
  | outOfRange (value : Int) (expected : String)
  /-- A text names no data type. -/
  | unknownType (e : DType.ParseError)
  deriving Repr, DecidableEq

namespace Mismatch

/-- A list of names in a message. -/
def oneOf : List String → String
  | [] => "there are no fields"
  | [a] => "expected `" ++ a ++ "`"
  | [a, b] => "expected `" ++ a ++ "` or `" ++ b ++ "`"
  | names => "expected one of " ++ ", ".intercalate (names.map fun n => "`" ++ n ++ "`")

/-- The message of a mismatch. -/
def message : Mismatch → String
  | .unknownField name known => "unknown field `" ++ name ++ "`, " ++ oneOf known
  | .unknownVariant name known => "unknown variant `" ++ name ++ "`, " ++ oneOf known
  | .missingField name => "missing field `" ++ name ++ "`"
  | .duplicateField name => "duplicate field `" ++ name ++ "`"
  | .noAlternative union => "data did not match any variant of untagged enum " ++ union
  | .wrongLength length expected =>
      "invalid length " ++ length.repr ++ ", expected " ++ expected
  | .wrongKind found expected => "invalid type: " ++ found.describe ++ ", expected " ++ expected
  | .outOfRange value expected =>
      "invalid value: integer `" ++ value.repr ++ "`, expected " ++ expected
  | .unknownType e => e.message

end Mismatch

/-- Why a text cannot be decoded. -/
inductive Failure
  | fault (f : Fault)
  | mismatch (m : Mismatch)
  deriving Repr, DecidableEq

/-- What a reader of a text says beside the message of a mismatch: why the text is malformed
or where it ends, and at which place a value is that is not what it should be. -/
structure Remarks where
  /-- What is said of a fault of a text. -/
  fault : List UInt8 → Fault → String
  /-- What is added to the message of a mismatch. -/
  place : List UInt8 → Mismatch → String

/-- The reason why a text cannot be decoded, in words. -/
def Failure.message (remarks : Remarks) (bytes : List UInt8) : Failure → String
  | .fault f => remarks.fault bytes f
  | .mismatch m => m.message ++ remarks.place bytes m

/-- The result of a decoder. -/
abbrev Decoded (α : Type) : Type := Except Failure α

/-- Fails with a mismatch. -/
def refuse {α : Type} (m : Mismatch) : Decoded α := .error (.mismatch m)

/-- A fault of the text as a failure. -/
def orFault {α : Type} (r : Except Fault α) : Decoded α := r.mapError .fault

/-! ## Reading at once -/

/-- What a node is found to be. Containers are not looked into. -/
def Node.found : Node → Except Fault Found
  | .null => .ok .null
  | .bool b => .ok (.scalar (.bool b))
  | .number n =>
      match n.scalar? with
      | none => .error .malformed
      | some s => .ok (.scalar s)
  | .text s => s.map .text
  | .array _ => .ok .array
  | .object _ => .ok .object
  | .broken b => .error b.strict

/-- What contents are found to be. -/
def Content.found : Content → Found
  | .null => .null
  | .scalar s => .scalar s
  | .text s => .text s
  | .array _ => .array
  | .object _ => .object

/-- A signed word. -/
def Found.word : Found → Decoded Int64
  | .scalar (.int v) => .ok v
  | .scalar (.uint v) => refuse (.outOfRange v.toNat "isize")
  | f => refuse (.wrongKind f "isize")

/-- A signed word that may be null. -/
def Found.optionalWord : Found → Decoded (Option Int64)
  | .null => .ok none
  | f => f.word.map some

/-- A text. -/
def Found.string (expected : String) : Found → Decoded String
  | .text s => .ok s
  | f => refuse (.wrongKind f expected)

/-- A text that may be null. -/
def Found.optionalString (expected : String) : Found → Decoded (Option String)
  | .null => .ok none
  | f => (f.string expected).map some

/-- Reads what a node is found to be. -/
def Node.interpret {α : Type} (read : Found → Decoded α) (v : Node) : Decoded α :=
  (orFault v.found).bind read

/-- A signed word that may be null. -/
def Node.optionalWord (v : Node) : Decoded (Option Int64) := v.interpret Found.optionalWord

/-- A text. -/
def Node.string (v : Node) (expected : String) : Decoded String :=
  v.interpret (Found.string expected)

/-- A text that may be null. -/
def Node.optionalString (v : Node) (expected : String) : Decoded (Option String) :=
  v.interpret (Found.optionalString expected)

/-- A data type, by its name. -/
def Node.dtype (v : Node) : Decoded DType :=
  (v.string "a string").bind fun name =>
    (DType.parse name).mapError fun e => .mismatch (.unknownType e)

/-- The contents of a node, for readers that need the whole value. -/
def Node.whole (v : Node) (depth : Nat) : Decoded Content := orFault (v.content depth)

/-- A scalar, read as a whole. -/
def Node.scalar (v : Node) (depth : Nat) : Decoded Scalar :=
  (v.whole depth).bind fun c =>
    match c.scalar? with
    | some s => .ok s
    | none => refuse (.noAlternative "Scalar")

/-! ## Sequences -/

/-- Reads every item, and puts the results behind those in `acc`. -/
def Items.each {α : Type} (read : Node → Decoded α) : Items → Array α → Decoded (Array α)
  | .closed, acc => .ok acc
  | .broken b, _ => .error (.fault b.strict)
  | .cons item rest, acc =>
      match read item with
      | .error e => .error e
      | .ok v => rest.each read (acc.push v)

/-- Reads the next item, if there is one. -/
def Items.next {α : Type} (read : Node → Decoded α) : Items → Decoded (Option α × Items)
  | .closed => .ok (none, .closed)
  | .broken b => .error (.fault b.strict)
  | .cons item rest => (read item).map fun v => (some v, rest)

/-- Checks that no item is left. -/
def Items.finish : Items → Decoded Unit
  | .closed => .ok ()
  | .broken b => .error (.fault b.strict)
  | .cons _ _ => .error (.fault .malformed)

/-- Reads an array, in which each item may hold `depth` levels of containers. -/
def Node.elements {α : Type} (read : Node → Decoded α) (v : Node) : Decoded (Array α) :=
  match v with
  | .array items => items.each read #[]
  | v => v.interpret fun f => refuse (.wrongKind f "a sequence")

/-! ## Documents -/

/-- Decodes a text whose first value `read` understands, and after which only blanks
follow. -/
def decode {α : Type} (read : Node → Decoded α) (bytes : List UInt8) : Decoded α :=
  let d := Document.ofBytes bytes
  (read d.root).bind fun v => if d.trailing then .error (.fault .malformed) else .ok v

/-- Decodes a scalar. -/
def decodeScalar (bytes : List UInt8) : Decoded Scalar := decode (·.scalar maxDepth) bytes

/-- Decodes an array of scalars. -/
def decodeScalars (bytes : List UInt8) : Decoded (Array Scalar) :=
  decode (Node.elements (·.scalar (maxDepth - 1))) bytes

/-- Decodes the name of a data type. -/
def decodeDType (bytes : List UInt8) : Decoded DType := decode Node.dtype bytes

/-- Decodes any value. -/
def decodeContent (bytes : List UInt8) : Decoded Content := decode (·.whole maxDepth) bytes

end StridedSlice.Json
