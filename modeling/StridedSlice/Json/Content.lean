import StridedSlice.Json.Document
/-!
# StridedSlice.Json.Content

The **contents** of a node that is complete: a JSON value with its numbers evaluated.
Reading the contents of a node is what a strict reader does when it needs the whole value
before it can tell what it is. It meets the places where the text breaks off, strings
that stand for no text, numbers out of range, and containers that are nested too deeply.

A lenient reader only passes over a node, to any depth.
-/

namespace StridedSlice.Json

/-- A JSON value that was read. Truth values and numbers are scalars. -/
inductive Content
  | null
  | scalar (s : Scalar)
  | text (s : String)
  | array (items : List Content)
  | object (members : List (String × Content))
  deriving Inhabited

/-- The number of containers that may stand one inside the other. -/
def maxDepth : Nat := 127

mutual

/-- The contents of a node that may hold `depth` levels of containers. -/
def Node.content (depth : Nat) : Node → Except Fault Content
  | .null => .ok .null
  | .bool b => .ok (.scalar (.bool b))
  | .number n =>
      match n.scalar? with
      | none => .error .malformed
      | some s => .ok (.scalar s)
  | .text s => s.map .text
  | .array items =>
      match depth with
      | 0 => .error .malformed
      | depth + 1 => (items.contents depth []).map .array
  | .object members =>
      match depth with
      | 0 => .error .malformed
      | depth + 1 => (members.contents depth []).map .object
  | .broken b => .error b.strict

/-- The contents of items, put behind those in `acc`, which has the last one first. -/
def Items.contents (depth : Nat) : Items → List Content → Except Fault (List Content)
  | .closed, acc => .ok acc.reverse
  | .broken b, _ => .error b.strict
  | .cons item rest, acc =>
      match item.content depth with
      | .error e => .error e
      | .ok c => rest.contents depth (c :: acc)

/-- The contents of members, put behind those in `acc`, which has the last one first. -/
def Members.contents (depth : Nat) :
    Members → List (String × Content) → Except Fault (List (String × Content))
  | .closed, acc => .ok acc.reverse
  | .broken b, _ => .error b.strict
  | .cons key value rest, acc =>
      match key with
      | .error e => .error e
      | .ok name =>
          match value.content depth with
          | .error e => .error e
          | .ok c => rest.contents depth ((name, c) :: acc)

end

mutual

/-- Passes over a node. -/
def Node.skip : Node → Except Fault Unit
  | .null | .bool _ | .number _ | .text _ => .ok ()
  | .array items => items.skip
  | .object members => members.skip
  | .broken b => .error b.lenient

/-- Passes over items. -/
def Items.skip : Items → Except Fault Unit
  | .closed => .ok ()
  | .broken b => .error b.lenient
  | .cons item rest =>
      match item.skip with
      | .error e => .error e
      | .ok () => rest.skip

/-- Passes over members. -/
def Members.skip : Members → Except Fault Unit
  | .closed => .ok ()
  | .broken b => .error b.lenient
  | .cons _ value rest =>
      match value.skip with
      | .error e => .error e
      | .ok () => rest.skip

end

/-- The scalar that contents are. -/
def Content.scalar? : Content → Option Scalar
  | .scalar s => some s
  | _ => none

end StridedSlice.Json
