import StridedSlice.Json.Decode
import StridedSlice.Script.Basic
/-!
# StridedSlice.Script.Decode

Scripts, operations and slices as JSON.

Each of them is written as an object with named members, or as an array with the same
values by position. Members of scripts and operations must be known; slices may have
others, which are passed over. No member may occur twice.

The parts of a script and of a slice are looked at when they are met. An operation is read
as a whole before its members are looked at, because its tag may come last; only the tag
itself is looked at when it is met.
-/

namespace StridedSlice.Json

/-! ## Members -/

/-- Reads every member into a state. -/
def Members.foldDecoded {σ : Type} (read : σ → String → Node → Decoded σ) :
    Members → σ → Decoded σ
  | .closed, s => .ok s
  | .broken b, _ => .error (.fault b.strict)
  | .cons key value rest, s =>
      match key with
      | .error e => .error (.fault e)
      | .ok name =>
          match read s name value with
          | .error e => .error e
          | .ok s => rest.foldDecoded read s

/-- Reads a member that may occur once. -/
def once {α : Type} (name : String) (before : Option α) (read : Decoded α) :
    Decoded (Option α) :=
  match before with
  | some _ => refuse (.duplicateField name)
  | none => read.map some

/-- A member that has to be there. -/
def required {α : Type} (name : String) : Option α → Decoded α
  | some v => .ok v
  | none => refuse (.missingField name)

/-- A value by position that has to be there. -/
def requiredAt {α : Type} (position : Nat) (expected : String) : Option α → Decoded α
  | some v => .ok v
  | none => refuse (.wrongLength position expected)

/-! ## Slices -/

/-- The members of a slice that have been read. -/
structure SliceParts where
  start : Option (Option Int64)
  stop : Option (Option Int64)
  step : Option (Option Int64)

namespace SliceParts

/-- Before any member. -/
def none : SliceParts := ⟨.none, .none, .none⟩

/-- The slice with these parts; a missing one counts as absent. -/
def slice (p : SliceParts) : Slice := ⟨p.start.getD .none, p.stop.getD .none, p.step.getD .none⟩

/-- Reads a member, if its name is that of a part. -/
def read? (p : SliceParts) (name : String) (value : Decoded (Option Int64)) :
    Option (Decoded SliceParts) :=
  match name with
  | "start" => some ((once name p.start value).map fun v => { p with start := v })
  | "stop" => some ((once name p.stop value).map fun v => { p with stop := v })
  | "step" => some ((once name p.step value).map fun v => { p with step := v })
  | _ => .none

end SliceParts

/-- Reads a member of a slice. Members that are not parts are passed over. -/
def readSliceMember (p : SliceParts) (name : String) (value : Node) : Decoded SliceParts :=
  match p.read? name value.optionalWord with
  | some r => r
  | none => (orFault value.skip).map fun _ => p

/-- A slice, by name or by position. -/
def Node.slice : Node → Decoded Slice
  | .object members => (members.foldDecoded readSliceMember .none).map SliceParts.slice
  | .array items => do
      let (start, items) ← items.next Node.optionalWord
      let (stop, items) ← items.next Node.optionalWord
      let (step, items) ← items.next Node.optionalWord
      items.finish
      return SliceParts.slice ⟨start, stop, step⟩
  | v => v.interpret fun f => refuse (.wrongKind f "struct SliceSpec")

/-! ## Operations -/

/-- The kinds of operations, by their tags. -/
inductive OperationKind
  | setitem
  | store
  | getitem
  deriving Repr, DecidableEq

namespace OperationKind

/-- All tags, in the order messages list them. -/
def names : List String := ["setitem", "store", "getitem"]

/-- The kind with a given tag. -/
def ofName? : String → Option OperationKind
  | "setitem" => some .setitem
  | "store" => some .store
  | "getitem" => some .getitem
  | _ => none

/-- The members of an operation beside its tag. -/
def fields : OperationKind → List String
  | .setitem => ["start", "stop", "step", "value"]
  | .store => ["index", "value"]
  | .getitem => ["start", "stop", "step"]

end OperationKind

/-- The tag of an operation. -/
def Node.operationKind (v : Node) : Decoded OperationKind :=
  (v.string "variant identifier").bind fun name =>
    match OperationKind.ofName? name with
    | some k => .ok k
    | none => refuse (.unknownVariant name OperationKind.names)

/-- What a slice is given: a scalar, or a sequence of scalars. -/
def Content.source (c : Content) : Decoded (Source Scalar) :=
  match c with
  | .scalar s => .ok (.scalar s)
  | .array items =>
      match items.mapM Content.scalar? with
      | some vs => .ok (.sequence vs.toArray)
      | none => refuse (.noAlternative "OpValue")
  | _ => refuse (.noAlternative "OpValue")

/-- What a position is given. -/
def Content.element (c : Content) : Decoded Scalar :=
  match c.scalar? with
  | some s => .ok s
  | none => refuse (.noAlternative "Scalar")

/-- What a slice is given, read as a whole. -/
def Node.source (v : Node) (depth : Nat) : Decoded (Source Scalar) :=
  (v.whole depth).bind Content.source

/-- Reads a part of a slice that is a member of an operation. -/
def readPart (kind : OperationKind) (p : SliceParts) (name : String) (c : Content) :
    Decoded SliceParts :=
  match p.read? name c.found.optionalWord with
  | some r => r
  | none => refuse (.unknownField name kind.fields)

/-- Reads a member of a store through a slice. -/
def readAssignMember (s : SliceParts × Option (Source Scalar)) (m : String × Content) :
    Decoded (SliceParts × Option (Source Scalar)) :=
  if m.1 = "value" then (once m.1 s.2 m.2.source).map fun v => (s.1, v)
  else (readPart .setitem s.1 m.1 m.2).map fun p => (p, s.2)

/-- Reads a member of a store at one position. -/
def readAssignAtMember (s : Option Int64 × Option Scalar) (m : String × Content) :
    Decoded (Option Int64 × Option Scalar) :=
  match m.1 with
  | "index" => (once m.1 s.1 m.2.found.word).map fun i => (i, s.2)
  | "value" => (once m.1 s.2 m.2.element).map fun v => (s.1, v)
  | name => refuse (.unknownField name OperationKind.store.fields)

/-- Reads a member of a load. -/
def readLoadMember (p : SliceParts) (m : String × Content) : Decoded SliceParts :=
  readPart .getitem p m.1 m.2

/-- An operation by the names of its members. -/
def operationByName (kind : OperationKind) (members : List (String × Content)) :
    Decoded Operation :=
  match kind with
  | .setitem => do
      let (parts, value) ← members.foldlM readAssignMember (.none, none)
      return .assign parts.slice (← required "value" value)
  | .store => do
      let (index, value) ← members.foldlM readAssignAtMember (none, none)
      return .assignAt (← required "index" index) (← required "value" value)
  | .getitem => do
      let parts ← members.foldlM readLoadMember .none
      return .load parts.slice

/-- The part of a slice at a position, if the sequence is long enough. -/
def partAt (items : List Content) (i : Nat) : Decoded (Option Int64) :=
  match items[i]? with
  | none => .ok none
  | some c => c.found.optionalWord

/-- The value at a position, if the sequence is long enough. -/
def valueAt {α : Type} (items : List Content) (i : Nat) (read : Content → Decoded α) :
    Decoded (Option α) :=
  match items[i]? with
  | none => .ok none
  | some c => (read c).map some

/-- Refuses a sequence with more than `n` items. -/
def atMost (n : Nat) (items : List Content) : Decoded Unit :=
  if n < items.length then
    refuse (.wrongLength items.length (n.repr ++ " elements in sequence"))
  else .ok ()

/-- An operation by the positions of its values behind the tag. -/
def operationByPosition (kind : OperationKind) (items : List Content) : Decoded Operation :=
  match kind with
  | .setitem => do
      let start ← partAt items 0
      let stop ← partAt items 1
      let step ← partAt items 2
      let value ← valueAt items 3 Content.source
      let value ← requiredAt 3 "struct variant Op::Setitem with 4 elements" value
      atMost 4 items
      return .assign ⟨start, stop, step⟩ value
  | .store => do
      let index ← valueAt items 0 (·.found.word)
      let index ← requiredAt 0 "struct variant Op::Store with 2 elements" index
      let value ← valueAt items 1 Content.element
      let value ← requiredAt 1 "struct variant Op::Store with 2 elements" value
      atMost 2 items
      return .assignAt index value
  | .getitem => do
      let start ← partAt items 0
      let stop ← partAt items 1
      let step ← partAt items 2
      atMost 3 items
      return .load ⟨start, stop, step⟩

/-- The members of an operation that have been read: the tag, and the others, the last one
first. -/
structure OperationParts where
  kind : Option OperationKind
  others : List (String × Content)

/-- Reads a member of an operation. Its value may hold `depth` levels of containers. -/
def readOperationMember (depth : Nat) (p : OperationParts) (name : String) (value : Node) :
    Decoded OperationParts :=
  if name = "op" then
    (once name p.kind value.operationKind).map fun kind => { p with kind := kind }
  else
    (value.whole depth).map fun c => { p with others := (name, c) :: p.others }

/-- An operation, which may hold `depth` levels of containers. -/
def Node.operation (depth : Nat) : Node → Decoded Operation
  | .object members => do
      let parts ← members.foldDecoded (readOperationMember (depth - 1)) ⟨none, []⟩
      let kind ← required "op" parts.kind
      operationByName kind parts.others.reverse
  | .array items => do
      let (kind, items) ← items.next Node.operationKind
      let kind ← required "op" kind
      let values ← orFault (items.contents (depth - 1) [])
      operationByPosition kind values
  | v => v.interpret fun f => refuse (.wrongKind f "internally tagged enum Op")

/-! ## Scripts -/

/-- The members of a script that have been read. -/
structure ScriptParts where
  schemaVersion : Option (Option String)
  dtype : Option DType
  data : Option (Array Scalar)
  operations : Option (Array Operation)

/-- The names of the members of a script. -/
def scriptFields : List String := ["schema_version", "dtype", "data", "ops"]

/-- The schema that a script claims to follow. -/
def Node.schemaVersion (v : Node) : Decoded (Option String) := v.optionalString "a string"

/-- The elements of a script, which stand two levels deep. -/
def Node.scriptData (v : Node) : Decoded (Array Scalar) :=
  v.elements (·.scalar (maxDepth - 2))

/-- The operations of a script, which stand two levels deep. -/
def Node.scriptOperations (v : Node) : Decoded (Array Operation) :=
  v.elements (Node.operation (maxDepth - 2))

/-- Reads a member of a script. -/
def readScriptMember (p : ScriptParts) (name : String) (value : Node) : Decoded ScriptParts :=
  match name with
  | "schema_version" =>
      (once name p.schemaVersion value.schemaVersion).map fun v => { p with schemaVersion := v }
  | "dtype" => (once name p.dtype value.dtype).map fun v => { p with dtype := v }
  | "data" => (once name p.data value.scriptData).map fun v => { p with data := v }
  | "ops" => (once name p.operations value.scriptOperations).map fun v => { p with operations := v }
  | _ => refuse (.unknownField name scriptFields)

/-- A script, by name or by position. -/
def Node.script : Node → Decoded Script
  | .object members => do
      let p ← members.foldDecoded readScriptMember ⟨none, none, none, none⟩
      let dtype ← required "dtype" p.dtype
      let data ← required "data" p.data
      return ⟨p.schemaVersion.getD none, dtype, data, (p.operations.getD #[]).toList⟩
  | .array items => do
      let expected := "struct Script with 4 elements"
      let (schemaVersion, items) ← items.next Node.schemaVersion
      let (dtype, items) ← items.next Node.dtype
      let dtype ← requiredAt 1 expected dtype
      let (data, items) ← items.next Node.scriptData
      let data ← requiredAt 2 expected data
      let (operations, items) ← items.next Node.scriptOperations
      items.finish
      return ⟨schemaVersion.getD none, dtype, data, (operations.getD #[]).toList⟩
  | v => v.interpret fun f => refuse (.wrongKind f "struct Script")

/-! ## Documents -/

/-- Decodes a slice. -/
def decodeSlice (bytes : List UInt8) : Decoded Slice := decode Node.slice bytes

/-- Decodes what a slice is given. -/
def decodeSource (bytes : List UInt8) : Decoded (Source Scalar) := decode (·.source maxDepth) bytes

/-- Decodes an operation. -/
def decodeOperation (bytes : List UInt8) : Decoded Operation :=
  decode (Node.operation maxDepth) bytes

/-- Decodes a script. -/
def decodeScript (bytes : List UInt8) : Decoded Script := decode Node.script bytes

end StridedSlice.Json
