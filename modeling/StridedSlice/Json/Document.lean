import StridedSlice.Json.Token
/-!
# StridedSlice.Json.Document

A JSON text as far as it can be read. A **node** is a value, complete or not: a container
holds what was read of it, and ends either with its closing bracket or with the place
where the text breaks off. Readers walk through a node in the order of the text, so they
meet what is wrong with the text and what is wrong with the values in that order.

Nodes are built from tokens by a machine that keeps the containers that are still open,
innermost first. A **document** is the first node of a text, and whether anything but
blanks follows it.
-/

namespace StridedSlice.Json

/-- A key: a text, or the reason why its string stands for none. -/
abbrev Key : Type := Except Fault String

mutual

/-- A value as far as it can be read. -/
inductive Node
  | null
  | bool (b : Bool)
  | number (n : Numeral)
  | text (s : Except Fault String)
  | array (items : Items)
  | object (members : Members)
  /-- There is no value here. -/
  | broken (b : Break)

/-- The items of an array. -/
inductive Items
  /-- The closing bracket. -/
  | closed
  /-- The array breaks off. -/
  | broken (b : Break)
  | cons (item : Node) (rest : Items)

/-- The members of an object. -/
inductive Members
  /-- The closing brace. -/
  | closed
  /-- The object breaks off. -/
  | broken (b : Break)
  | cons (key : Key) (value : Node) (rest : Members)

end

instance : Inhabited Node := ⟨.null⟩

/-- Puts items, the last one first, in front of an ending. -/
def Items.ofReversed (reversed : List Node) (ending : Items) : Items :=
  reversed.foldl (fun rest item => .cons item rest) ending

/-- Puts members, the last one first, in front of an ending. -/
def Members.ofReversed (reversed : List (Key × Node)) (ending : Members) : Members :=
  reversed.foldl (fun rest m => .cons m.1 m.2 rest) ending

/-- An open container that waits for the value it has begun. -/
inductive Frame
  /-- An array, with the items before that value, the last one first. -/
  | array (before : List Node)
  /-- An object, with the members before that value and its key. -/
  | object (before : List (Key × Node)) (key : Key)

/-- What the builder expects. The frames are the open containers, innermost first. -/
inductive Builder
  /-- A value. -/
  | value (frames : List Frame)
  /-- The first item of an array, or its end. -/
  | firstItem (frames : List Frame)
  /-- A comma or the end of an array. -/
  | afterItem (items : List Node) (frames : List Frame)
  /-- The first key of an object, or its end. -/
  | firstKey (frames : List Frame)
  /-- A key, after a comma. -/
  | key (members : List (Key × Node)) (frames : List Frame)
  /-- The colon after a key. -/
  | colon (members : List (Key × Node)) (key : Key) (frames : List Frame)
  /-- A comma or the end of an object. -/
  | afterMember (members : List (Key × Node)) (frames : List Frame)
  /-- Nothing more. -/
  | done (root : Node) (trailing : Bool)

/-- The first value of a text, and whether anything follows it. -/
structure Document where
  root : Node
  trailing : Bool

namespace Builder

/-- Puts a complete value where one is expected. -/
def place (v : Node) : List Frame → Builder
  | [] => .done v false
  | .array before :: frames => .afterItem (v :: before) frames
  | .object before name :: frames => .afterMember ((name, v) :: before) frames

/-- Ends all open containers around a value that breaks off. -/
def wrap (b : Break) (v : Node) : List Frame → Node
  | [] => v
  | .array before :: frames =>
      wrap b (.array (.ofReversed (v :: before) (.broken b))) frames
  | .object before name :: frames =>
      wrap b (.object (.ofReversed ((name, v) :: before) (.broken b))) frames

/-- The whole value, when the text breaks off here. -/
def breakOff (b : Break) : Builder → Node
  | .value frames => wrap b (.broken b) frames
  | .firstItem frames => wrap b (.array (.broken b)) frames
  | .afterItem items frames => wrap b (.array (.ofReversed items (.broken b))) frames
  | .firstKey frames => wrap b (.object (.broken b)) frames
  | .key members frames => wrap b (.object (.ofReversed members (.broken b))) frames
  | .colon members name frames =>
      wrap b (.object (.ofReversed ((name, .broken b) :: members) (.broken b))) frames
  | .afterMember members frames => wrap b (.object (.ofReversed members (.broken b))) frames
  | .done root _ => root

/-- Stops at a token that does not belong here. -/
def refuse (builder : Builder) (b : Break) : Builder := .done (builder.breakOff b) false

/-- Reads a token where a value is expected. -/
def stepValue (frames : List Frame) : Token → Builder
  | .null => place .null frames
  | .bool b => place (.bool b) frames
  | .number n => place (.number n) frames
  | .text s => place (.text s) frames
  | .openArray => .firstItem frames
  | .openObject => .firstKey frames
  | .broken b => refuse (.value frames) b
  | .brokenText b => refuse (.value frames) b
  | .closeArray | .closeObject | .comma | .colon => refuse (.value frames) .malformed

/-- Reads a token where a key is expected. -/
def stepKey (members : List (Key × Node)) (frames : List Frame) : Token → Builder
  | .text s => .colon members s frames
  | .brokenText b => refuse (.key members frames) b
  | _ => refuse (.key members frames) .malformed

/-- Reads a token. -/
def step (builder : Builder) (t : Token) : Builder :=
  match builder with
  | .value frames => stepValue frames t
  | .firstItem frames =>
      match t with
      | .closeArray => place (.array .closed) frames
      | t => stepValue (.array [] :: frames) t
  | .afterItem items frames =>
      match t with
      | .comma => .value (.array items :: frames)
      | .closeArray => place (.array (.ofReversed items .closed)) frames
      | _ => refuse builder .malformed
  | .firstKey frames =>
      match t with
      | .closeObject => place (.object .closed) frames
      | t => stepKey [] frames t
  | .key members frames => stepKey members frames t
  | .colon members name frames =>
      match t with
      | .colon => .value (.object members name :: frames)
      | _ => refuse builder .malformed
  | .afterMember members frames =>
      match t with
      | .comma => .key members frames
      | .closeObject => place (.object (.ofReversed members .closed)) frames
      | _ => refuse builder .malformed
  | .done root _ => .done root true

/-- The document at the end of the text. -/
def finish : Builder → Document
  | .done root trailing => ⟨root, trailing⟩
  | builder => ⟨builder.breakOff .truncated, false⟩

/-- Reads tokens, from any state. -/
def feed (builder : Builder) (ts : List Token) : Builder := ts.foldl step builder

theorem feed_append (builder : Builder) (a b : List Token) :
    builder.feed (a ++ b) = (builder.feed a).feed b := by
  simp [feed, List.foldl_append]

end Builder

/-- Reads a text. -/
def Document.ofBytes (bytes : List UInt8) : Document :=
  ((Builder.value []).feed (tokens bytes)).finish

end StridedSlice.Json
