import StridedSlice.Report
import StridedSlice.Script.Decode
/-!
# StridedSlice.Script.Read

Reading a script from a text or a file: decoding, then validation. The errors name the
file, and a report can be made of any of them.
-/

namespace StridedSlice

/-- Why the bytes of a file could not be had. -/
inductive FileError
  | notFound
  | isDirectory
  /-- Any other reason, with its number in the operating system. -/
  | other (reason : String) (number : Nat)
  deriving Repr, DecidableEq

namespace FileError

/-- The reason in words. -/
def message : FileError → String
  | .notFound => "No such file or directory (os error 2)"
  | .isDirectory => "Is a directory (os error 21)"
  | .other reason number => reason ++ " (os error " ++ number.repr ++ ")"

end FileError

/-- Why there is no script to run. -/
inductive ScriptError
  /-- The file cannot be read. -/
  | unreadable (path : String) (cause : FileError)
  /-- The text is not that of a script. -/
  | undecodable (path : String) (bytes : List UInt8) (cause : Json.Failure)
  /-- The script is not acceptable. -/
  | invalid (cause : InvalidScript)
  deriving Repr, DecidableEq

namespace ScriptError

/-- What was tried with the file at `path` when its text could not be decoded. -/
def decodingContext (path : String) : String :=
  "[NSLICE_SCRIPT_PARSE] parse script JSON: " ++ path

/-- What happened, in words: what was tried, and the reason why it did not work. -/
def message (remarks : Json.Remarks) : ScriptError → String
  | .unreadable path cause =>
      "[NSLICE_SCRIPT_READ] read script: " ++ path ++ ": " ++ cause.message
  | .undecodable path bytes cause =>
      decodingContext path ++ ": " ++ cause.message remarks bytes
  | .invalid cause => cause.message

/-- The code under which reports list a script that is not run. -/
def diagnosticCode : String := "NSLICE-SCRIPT-0001"

/-- The report in place of a run. -/
def report (message : String) : Report :=
  Report.empty.withDiagnostics [.error diagnosticCode .parse message]

end ScriptError

namespace Script

/-- Reads a script from a text that came from `path`. -/
def ofBytes (bytes : List UInt8) (path : String) (limits : Limits) : Except ScriptError Script :=
  match Json.decodeScript bytes with
  | .error e => .error (.undecodable path bytes e)
  | .ok s =>
      match s.validate limits with
      | .error e => .error (.invalid e)
      | .ok () => .ok s

/-- Reads a script from what could be had of the file at `path`. -/
def ofFile (contents : Except FileError (List UInt8)) (path : String) (limits : Limits) :
    Except ScriptError Script :=
  match contents with
  | .error e => .error (.unreadable path e)
  | .ok bytes => ofBytes bytes path limits

end Script

end StridedSlice
