import StridedSlice.Selection
/-!
# StridedSlice.Event

What the engine **logs**. An event is a value that records what happened; its
severity, its target and its text are functions of it, so a log is a list of
events and never a side effect.

A log line reads `LEVEL target: message field=value …`, with the level aligned to
the right in five columns.
-/

namespace StridedSlice

/-- Severity of an event, from the most to the least severe. -/
inductive Level
  | error
  | warn
  | info
  | debug
  | trace
  deriving Repr, DecidableEq

namespace Level

/-- Rank of a level: the more detailed, the higher. -/
def detail : Level → Nat
  | .error => 1
  | .warn => 2
  | .info => 3
  | .debug => 4
  | .trace => 5

/-- The name of a level, aligned to the right in five columns. -/
def label : Level → String
  | .error => "ERROR"
  | .warn => " WARN"
  | .info => " INFO"
  | .debug => "DEBUG"
  | .trace => "TRACE"

end Level

/-- How much is logged: nothing, or everything up to a level of detail. -/
inductive Verbosity
  | silent
  | upTo (level : Level)
  deriving Repr, DecidableEq

namespace Verbosity

/-- The variable that sets the verbosity. -/
def settingVariable : String := "NSLICE_LOG"

/-- Reads the name of a verbosity. -/
def ofName? : String → Option Verbosity
  | "off" => some .silent
  | "error" => some (.upTo .error)
  | "warn" => some (.upTo .warn)
  | "info" => some (.upTo .info)
  | "debug" => some (.upTo .debug)
  | "trace" => some (.upTo .trace)
  | _ => none

/-- The verbosity that a setting asks for. Without a setting, or with one that names
no verbosity, warnings and errors are logged. -/
def ofSetting (setting : Option String) : Verbosity :=
  (setting.bind ofName?).getD (.upTo .warn)

/-- Whether events of a level are logged. -/
def enables : Verbosity → Level → Bool
  | .silent, _ => false
  | .upTo bound, level => level.detail ≤ bound.detail

end Verbosity

/-- Something worth logging. -/
inductive Event
  /-- A slice was refused for its zero step. -/
  | zeroStep (slice : Slice) (len : Nat)
  /-- A slice was resolved against a length. -/
  | resolved (slice : Slice) (len : Nat) (selection : Selection)
  /-- A sequence of `len` elements does not fit `count` selected positions. -/
  | lengthMismatch (slice : Slice) (count len : Nat)
  /-- A selection is about to be written. -/
  | storing (selection : Selection)
  /-- A single index falls outside a sequence of `len` elements. -/
  | outOfBounds (index : Int64) (len : Nat)
  /-- The script operation at position `op` failed. -/
  | operationFailed (op : Nat) (kind : String) (error : SliceError)
  /-- A script of `ops` operations, read from `path`, starts. -/
  | running (path : String) (ops : Nat)
  deriving Repr, DecidableEq

namespace Event

/-- Severity of an event. -/
def level : Event → Level
  | .zeroStep _ _ => .debug
  | .resolved _ _ _ => .trace
  | .lengthMismatch _ _ _ => .debug
  | .storing _ => .trace
  | .outOfBounds _ _ => .debug
  | .operationFailed _ _ _ => .debug
  | .running _ _ => .info

/-- The part of the program that an event comes from. -/
def target : Event → String
  | .zeroStep _ _ => "nslice::normalize"
  | .resolved _ _ _ => "nslice::normalize"
  | .lengthMismatch _ _ _ => "nslice::store"
  | .storing _ => "nslice::store"
  | .outOfBounds _ _ => "nslice::store"
  | .operationFailed _ _ _ => "nslice::script"
  | .running _ _ => "nslice"

/-- What an event says. -/
def message : Event → String
  | .zeroStep _ _ => "rejecting zero slice step"
  | .resolved _ _ _ => "normalized slice"
  | .lengthMismatch _ _ _ => "sequence length mismatch"
  | .storing _ => "slice store"
  | .outOfBounds _ _ => "index out of bounds"
  | .operationFailed _ _ _ => "script op failed"
  | .running _ _ => "running script"

/-- The fields of an event, each a name and the text of its value. -/
def fields : Event → List (String × String)
  | .zeroStep s len => [("spec", s.text), ("len", len.repr)]
  | .resolved s len sel =>
      [("spec", s.text), ("len", len.repr), ("start", sel.start.toInt.repr),
        ("stop", sel.stop.toInt.repr), ("step", sel.step.toInt.repr), ("count", sel.count.repr)]
  | .lengthMismatch s count len =>
      [("spec", s.text), ("count", count.repr), ("len", len.repr)]
  | .storing sel =>
      [("start", sel.start.toInt.repr), ("step", sel.step.toInt.repr), ("count", sel.count.repr)]
  | .outOfBounds index len => [("index", index.toInt.repr), ("len", len.repr)]
  | .operationFailed op kind e =>
      [("op", op.repr), ("kind", "\"" ++ kind ++ "\""), ("err", e.message)]
  | .running path ops => [("path", path), ("ops", ops.repr)]

/-- The log line of an event, without its end of line. -/
def line (e : Event) : String :=
  e.fields.foldl (fun text field => text ++ " " ++ field.1 ++ "=" ++ field.2)
    (e.level.label ++ " " ++ e.target ++ ": " ++ e.message)

end Event

/-- The log text that a verbosity keeps of a list of events: a line for each. -/
def logText (verbosity : Verbosity) (events : List Event) : String :=
  (events.filter (verbosity.enables ·.level)).foldl (fun text e => text ++ e.line ++ "\n") ""

end StridedSlice
