import StridedSlice.Command.Arguments
import StridedSlice.Script.Read
import StridedSlice.Script.Run
/-!
# StridedSlice.Command.Execute

**Carrying out** a command. The response is a value: at most one line of JSON, at most one
error text, the exit code, and the events on the way. Only when it is printed does the
verbosity decide which events are shown, so the log cannot change anything else.

The exit code is zero when all went well, one when the engine refused an operation, and
two when the input could not be used. A list of positions that is too long to be set up ends
the program at once, with an exit code of its own.

Some texts are not chosen here, but by the reader of the command line, by the reader of JSON
texts, and by the runtime when it gives up. They come with `Wording`.
-/

namespace StridedSlice

/-- The texts that others choose. -/
structure Wording where
  /-- What is said of arguments that are no command. -/
  usage : List String → String
  /-- What is said of data that cannot be decoded. -/
  data : Json.Remarks
  /-- What is said of a value that cannot be decoded. -/
  value : Json.Remarks
  /-- What is said of a script that cannot be decoded. -/
  script : Json.Remarks
  /-- What is said when a list is too long to be set up. -/
  overflow : String

/-- Nothing but what is chosen here. -/
def Wording.plain : Wording :=
  let remarks : Json.Remarks := ⟨fun _ _ => "", fun _ _ => ""⟩
  ⟨fun _ => "", remarks, remarks, remarks, ""⟩

/-- What a command answers. -/
structure Response where
  /-- The exit code. -/
  exitCode : UInt32
  /-- The line on standard output. -/
  output : Option Json
  /-- The text at the end of standard error. -/
  error : Option String
  /-- What was logged. -/
  events : List Event

namespace Response

/-- The text of an optional line. -/
def lineText (line : Option String) : String :=
  match line with
  | none => ""
  | some text => text ++ "\n"

/-- Everything on standard output. -/
def stdout (r : Response) : String := lineText (r.output.map Json.print)

/-- Everything on standard error: the log, then the error text. -/
def stderr (r : Response) (verbosity : Verbosity) : String :=
  logText verbosity r.events ++ lineText r.error

/-- The response to input that cannot be used. -/
def unusable (message : String) : Response := ⟨2, none, some message, []⟩

/-- The response when the program is given up on. -/
def aborted (message : String) (events : List Event) : Response :=
  ⟨101, none, some message, events⟩

/-- The response with the outcome of a run. -/
def ofOutcome (outcome : Outcome) (events : List Event) : Response :=
  ⟨if outcome.report.ok then 0 else 1, some outcome.toJson, none, events⟩

end Response

namespace Command

/-- The members of a selection. -/
def selectionJson (s : Selection) : Json :=
  .object
    [("start", .int s.start.toInt), ("stop", .int s.stop.toInt), ("step", .int s.step.toInt),
      ("count", .nat s.count)]

/-- The output for a resolved slice. The last position is left out when nothing is
selected. -/
def normalizedJson (s : Selection) (listPositions : Bool) : Json :=
  .object
    ([("schema_version", .text reportSchema), ("ok", .bool true), ("slice", selectionJson s)] ++
      (match s.last? with
        | none => []
        | some p => [("last", .nat p)]) ++
      (if listPositions then [("indices", .array (s.positions.toList.map .nat))] else []))

/-- The report on a slice that cannot be resolved. -/
def refusedReport (e : SliceError) (slice : Slice) (len : Nat) : Report :=
  let d := (Diagnostic.error e.diagnosticCode .normalize e.message).withData "slice"
    (.text slice.text)
  Report.empty.withDiagnostics [d.withData "len" (.nat len)]

/-- The number of positions from which on a list of them cannot be set up: each takes eight
bytes, and together they would take `2 ^ 63`. For a shorter list there is memory enough. -/
def listCapacity : Nat := 1152921504606846976

/-- Resolves a slice. The list of the positions is set up before anything is printed. -/
def executeNormalize (wording : Wording) (limits : Limits) (len : Nat) (slice : Slice)
    (listPositions : Bool) : Response :=
  if limits.elements < len then
    .unusable ("--len " ++ len.repr ++ " exceeds the element limit " ++ limits.elements.repr ++
      " (set " ++ Limits.elementsVariable ++ " to raise it)")
  else
    let traced := slice.resolveTraced len
    match traced.result with
    | .ok s =>
        if listPositions && listCapacity ≤ s.count then
          .aborted wording.overflow traced.events
        else ⟨0, some (normalizedJson s listPositions), none, traced.events⟩
    | .error e => ⟨1, some (refusedReport e slice len).toJson, none, traced.events⟩

/-- What is tried first with the data of one operation. -/
def dataContext : String := "parse --data as a JSON array of numbers"

/-- What is tried first with the value of one operation. -/
def valueContext (value : String) : String :=
  "parse --value as a JSON number, bool, or array: " ++ value

/-- Runs a script of one operation. -/
def executeOperation (wording : Wording) (limits : Limits) (dtype : DType) (data : String)
    (op : Operation) : Response :=
  match Json.decodeScalars (Text.toBytes data) with
  | .error e =>
      .unusable (dataContext ++ ": " ++ e.message wording.data (Text.toBytes data))
  | .ok values =>
      let script : Script := ⟨none, dtype, values, [op]⟩
      match script.validate limits with
      | .error e => .unusable e.message
      | .ok () => .ofOutcome script.run script.events

/-- Runs the script in a file. -/
def executeRun (wording : Wording) (limits : Limits)
    (contents : Except FileError (List UInt8)) (input : String) (reportJson : Bool) : Response :=
  match Script.ofFile contents input limits with
  | .error e =>
      let message := e.message wording.script
      if reportJson then ⟨2, some (ScriptError.report message).toJson, none, []⟩
      else .unusable message
  | .ok script =>
      .ofOutcome script.run (.running input script.operations.length :: script.events)

/-- Carries out a command. `contents` gives the bytes of a file. -/
def execute (wording : Wording) (limits : Limits)
    (contents : String → Except FileError (List UInt8)) : Command → Response
  | .normalize len slice listPositions =>
      executeNormalize wording limits len slice listPositions
  | .getitem dtype data slice => executeOperation wording limits dtype data (.load slice)
  | .setitem dtype data slice value =>
      match Json.decodeSource (Text.toBytes value) with
      | .error e =>
          .unusable (valueContext value ++ ": " ++ e.message wording.value (Text.toBytes value))
      | .ok source => executeOperation wording limits dtype data (.assign slice source)
  | .run input reportJson => executeRun wording limits (contents input) input reportJson

end Command

end StridedSlice
