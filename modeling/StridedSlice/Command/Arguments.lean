import StridedSlice.DType
import StridedSlice.Slice
import StridedSlice.Text.Integer
/-!
# StridedSlice.Command.Arguments

The **command line**: a command, followed by its options in any order. An option is
written `--name value` or `--name=value`, with its exact name, and at most once; a flag
has no value. A lone `--` may end the line.

A separate value must not look like an option. It may start with a hyphen only if it is
the hyphen alone, if the option takes signed numbers and it is one, or if the option takes
any value at all.
-/

namespace StridedSlice

/-- What the program is asked to do. -/
inductive Command
  /-- Resolve a slice against a length, and perhaps list the selected positions. -/
  | normalize (len : Nat) (slice : Slice) (listPositions : Bool)
  /-- Read the selected elements of a buffer. -/
  | getitem (dtype : DType) (data : String) (slice : Slice)
  /-- Store a value in the selected positions of a buffer. -/
  | setitem (dtype : DType) (data : String) (slice : Slice) (value : String)
  /-- Run the script in a file. -/
  | run (input : String) (reportJson : Bool)
  deriving Repr, DecidableEq

namespace Command

/-- The options of all commands. -/
inductive Parameter
  | len
  | start
  | stop
  | step
  | indices
  | dtype
  | data
  | value
  | input
  | reportJson
  deriving Repr, DecidableEq

namespace Parameter

/-- The name of an option, without its hyphens. -/
def name : Parameter → String
  | .len => "len"
  | .start => "start"
  | .stop => "stop"
  | .step => "step"
  | .indices => "indices"
  | .dtype => "dtype"
  | .data => "data"
  | .value => "value"
  | .input => "input"
  | .reportJson => "report-json"

/-- Whether an option is a flag. -/
def isFlag : Parameter → Bool
  | .indices => true
  | .reportJson => true
  | _ => false

/-- Whether the next argument may be the value of an option. -/
def admits (p : Parameter) (argument : String) : Bool :=
  match p with
  | .value => true
  | .start | .stop | .step =>
      !argument.startsWith "-" || argument == "-" || (Text.signed? argument).isSome
  | _ => !argument.startsWith "-" || argument == "-"

end Parameter

/-- The options that were given, with their values; a flag has an empty one. -/
abbrev Given : Type := List (Parameter × String)

namespace Given

/-- The value of an option. -/
def get? (given : Given) (p : Parameter) : Option String :=
  (given.find? (·.1 == p)).map (·.2)

/-- Whether an option was given. -/
def has (given : Given) (p : Parameter) : Bool := (given.get? p).isSome

/-- A signed option, if it is there: absent, readable, or wrong. -/
def signed? (given : Given) (p : Parameter) : Option (Option Int64) :=
  match given.get? p with
  | none => some none
  | some text => (Text.signed? text).map some

/-- The slice that the options describe. -/
def slice? (given : Given) : Option Slice := do
  let start ← given.signed? .start
  let stop ← given.signed? .stop
  let step ← given.signed? .step
  return ⟨start, stop, step⟩

end Given

/-- The name and the attached value of an option. -/
def splitOption (argument : String) : Option (String × Option String) :=
  match argument.toList with
  | '-' :: '-' :: cs =>
      let name := String.ofList (cs.takeWhile (· != '='))
      match cs.dropWhile (· != '=') with
      | [] => some (name, none)
      | _ :: value => some (name, some (String.ofList value))
  | _ => none

/-- The option that an argument names, if it is known and has not been given yet, and its
attached value. -/
def newOption? (known : List Parameter) (given : Given) (argument : String) :
    Option (Parameter × Option String) := do
  let (name, attached) ← splitOption argument
  let p ← known.find? (·.name == name)
  if given.has p then none else some (p, attached)

/-- Reads options. -/
def readOptions (known : List Parameter) (given : Given) : List String → Option Given
  | [] => some given
  | ["--"] => some given
  | argument :: rest =>
      match newOption? known given argument with
      | none => none
      | some (p, attached) =>
          if p.isFlag then
            match attached with
            | none => readOptions known ((p, "") :: given) rest
            | some _ => none
          else
            match attached, rest with
            | some value, rest => readOptions known ((p, value) :: given) rest
            | none, [] => none
            | none, value :: rest =>
                if p.admits value then readOptions known ((p, value) :: given) rest else none

/-- The options that describe a slice. -/
def sliceParameters : List Parameter := [.start, .stop, .step]

/-- Reads a command line. There is no command if it is used wrongly. -/
def parse? (arguments : List String) : Option Command :=
  match arguments with
  | "normalize" :: rest => do
      let given ← readOptions ([.len, .indices] ++ sliceParameters) [] rest
      let len ← Text.unsigned? (← given.get? .len)
      return .normalize len (← given.slice?) (given.has .indices)
  | "getitem" :: rest => do
      let given ← readOptions ([.dtype, .data] ++ sliceParameters) [] rest
      let dtype ← DType.ofName? (← given.get? .dtype)
      return .getitem dtype (← given.get? .data) (← given.slice?)
  | "setitem" :: rest => do
      let given ← readOptions ([.dtype, .data, .value] ++ sliceParameters) [] rest
      let dtype ← DType.ofName? (← given.get? .dtype)
      return .setitem dtype (← given.get? .data) (← given.slice?) (← given.get? .value)
  | "run" :: rest => do
      let given ← readOptions [.input, .reportJson] [] rest
      let input ← given.get? .input
      if input.isEmpty then none else return .run input (given.has .reportJson)
  | _ => none

/-- The file that a command reads. -/
def file? : Command → Option String
  | .run input _ => some input
  | _ => none

end Command

end StridedSlice
