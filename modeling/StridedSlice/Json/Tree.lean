import StridedSlice.Json.Decode
/-!
# StridedSlice.Json.Tree

JSON values that are read without any expectation: **trees**, with their numbers as the words
they fit. There are two ways to find a scalar in a text.

* The tree is looked at as a value (`Tree.value`), and a number is asked for the one kind that it
  has (`Tree.scalar?`);
* the kinds of a scalar are tried in turn, each of which takes whatever it can be converted from
  (`Tree.firstAlternative?`).

The second is what a decoder of a union does, which knows its alternatives but not which of them
is meant (`decodeUnion`).

How a numeral is rounded that is not a word is left to `float?`, which all readers here take.
The decoders of the other modules use `Numeral.toBinary64?`.
-/

namespace StridedSlice.Json

/-! ## Numbers -/

/-- A number as it is read. -/
inductive Number
  /-- An integer that is not negative, and fits an unsigned word. -/
  | natural (n : UInt64)
  /-- An integer that is negative, and fits a signed word. -/
  | negative (n : Int64)
  /-- Any other number. -/
  | float (x : Binary binary64)
  deriving Repr, DecidableEq

/-- What a numeral is read as; nothing if it is out of range. The digits of an integer are
collected in an unsigned word, and the sign is put before that word. If this does not give a
negative word, then the integer is zero or too large, and it is read like a numeral with a
point. -/
def Numeral.number? (float? : Numeral → Option (Binary binary64)) (n : Numeral) :
    Option Number :=
  if n.integral ∧ n.digits < UInt64.size then
    let word := UInt64.ofNat n.digits
    if n.negative then
      if -word.toInt64 < 0 then some (.negative (-word.toInt64)) else (float? n).map .float
    else some (.natural word)
  else (float? n).map .float

namespace Number

/-- The number as a signed word, if it is one. -/
def signed? : Number → Option Int64
  | .natural n => if n.toNat < Nat.pow 2 63 then some n.toInt64 else none
  | .negative n => some n
  | .float _ => none

/-- The number as an unsigned word, if it is one. -/
def unsigned? : Number → Option UInt64
  | .natural n => some n
  | .negative _ => none
  | .float _ => none

/-- The nearest number of 64 bits. -/
def toBinary64 : Number → Binary binary64
  | .natural n => Binary.ofInt binary64 n.toNat
  | .negative n => Binary.ofInt binary64 n.toInt
  | .float x => x

/-- The scalar of the first kind that the number has: a signed word, an unsigned word, or any
number. -/
def scalar (n : Number) : Scalar :=
  match n.signed? with
  | some w => .int w
  | none =>
      match n.unsigned? with
      | some w => .uint w
      | none => .float n.toBinary64

end Number

/-! ## Trees -/

/-- A JSON value that was read. -/
inductive Tree
  | null
  | bool (b : Bool)
  | number (n : Number)
  | text (s : String)
  | array (items : List Tree)
  | object (members : List (String × Tree))
  deriving Inhabited

section

variable (float? : Numeral → Option (Binary binary64))

mutual

/-- The tree of a node that may hold `depth` levels of containers. -/
def Node.tree (depth : Nat) : Node → Except Fault Tree
  | .null => .ok .null
  | .bool b => .ok (.bool b)
  | .number n =>
      match n.number? float? with
      | none => .error .malformed
      | some m => .ok (.number m)
  | .text s => s.map .text
  | .array items =>
      match depth with
      | 0 => .error .malformed
      | depth + 1 => (items.trees depth []).map .array
  | .object members =>
      match depth with
      | 0 => .error .malformed
      | depth + 1 => (members.trees depth []).map .object
  | .broken b => .error b.strict

/-- The trees of items, put behind those in `acc`, which has the last one first. -/
def Items.trees (depth : Nat) : Items → List Tree → Except Fault (List Tree)
  | .closed, acc => .ok acc.reverse
  | .broken b, _ => .error b.strict
  | .cons item rest, acc =>
      match item.tree depth with
      | .error e => .error e
      | .ok t => rest.trees depth (t :: acc)

/-- The trees of members, put behind those in `acc`, which has the last one first. -/
def Members.trees (depth : Nat) :
    Members → List (String × Tree) → Except Fault (List (String × Tree))
  | .closed, acc => .ok acc.reverse
  | .broken b, _ => .error b.strict
  | .cons key value rest, acc =>
      match key with
      | .error e => .error e
      | .ok name =>
          match value.tree depth with
          | .error e => .error e
          | .ok t => rest.trees depth ((name, t) :: acc)

end

end

namespace Tree

mutual

/-- A tree as a value. Values have no infinite numbers, and `null` in their place. -/
def value : Tree → Tree
  | .number (.float x) => if x.IsFinite then .number (.float x) else .null
  | .array items => .array (values items)
  | .object members => .object (memberValues members)
  | t => t

/-- Trees as values. -/
def values : List Tree → List Tree
  | [] => []
  | item :: rest => item.value :: values rest

/-- The trees of members as values. -/
def memberValues : List (String × Tree) → List (String × Tree)
  | [] => []
  | (name, t) :: rest => (name, t.value) :: memberValues rest

end

/-- The scalar that a tree is. -/
def scalar? : Tree → Option Scalar
  | .bool b => some (.bool b)
  | .number n => some n.scalar
  | _ => none

/-! ## Alternatives -/

/-- A truth value. -/
def bool? : Tree → Option Scalar
  | .bool b => some (.bool b)
  | _ => none

/-- An integer that a signed word can hold. -/
def int? : Tree → Option Scalar
  | .number (.natural n) => if n.toNat < Nat.pow 2 63 then some (.int n.toInt64) else none
  | .number (.negative n) => some (.int n)
  | _ => none

/-- An integer that an unsigned word can hold. -/
def uint? : Tree → Option Scalar
  | .number (.natural n) => some (.uint n)
  | .number (.negative n) => if 0 ≤ n then some (.uint n.toUInt64) else none
  | _ => none

/-- Any number, as one of 64 bits. -/
def float? : Tree → Option Scalar
  | .number n => some (.float n.toBinary64)
  | _ => none

/-- The alternatives of a scalar, in the order in which they are tried. -/
def alternatives : List (Tree → Option Scalar) := [bool?, int?, uint?, float?]

/-- The scalar that the first alternative makes of a tree which makes one. -/
def firstAlternative? (t : Tree) : Option Scalar := alternatives.findSome? (· t)

end Tree

/-! ## Decoders -/

/-- Decodes any value. -/
def decodeTree (float? : Numeral → Option (Binary binary64)) (bytes : List UInt8) :
    Decoded Tree :=
  decode (fun v => (orFault (v.tree float? maxDepth)).map Tree.value) bytes

/-- Decodes a scalar as the union of its kinds. -/
def decodeUnion (float? : Numeral → Option (Binary binary64)) (bytes : List UInt8) :
    Decoded Scalar :=
  decode (fun v => (orFault (v.tree float? maxDepth)).bind fun t =>
    match t.firstAlternative? with
    | some s => .ok s
    | none => refuse (.noAlternative "Scalar")) bytes

end StridedSlice.Json
