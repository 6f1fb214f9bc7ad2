import StridedSlice.Error
import StridedSlice.Json.Printer
/-!
# StridedSlice.Report

A **report** says how a run went: the diagnostics, sorted, and whether any of them is
an error, together with attributes of the run.

Diagnostics are sorted by the operation they belong to (none before all numbers), then
by code, then by message; equal ones keep their order. `Report.withDiagnostics` sets
diagnostics and outcome together, so the two always agree.
-/

namespace StridedSlice

/-- The schema that reports follow. -/
def reportSchema : String := "nslice.report@0.1.0"

/-- How bad a diagnostic is. -/
inductive Severity
  | error
  deriving Repr, DecidableEq

/-- Where in a run a diagnostic comes from. -/
inductive Stage
  | parse
  | normalize
  | store
  | load
  deriving Repr, DecidableEq

namespace Severity

/-- The name of a severity. -/
def name : Severity → String
  | .error => "error"

end Severity

namespace Stage

/-- The name of a stage. -/
def name : Stage → String
  | .parse => "parse"
  | .normalize => "normalize"
  | .store => "store"
  | .load => "load"

end Stage

/-- One finding of a run. -/
structure Diagnostic where
  /-- The kind of finding. -/
  code : String
  /-- How bad it is. -/
  severity : Severity
  /-- Where it was found. -/
  stage : Stage
  /-- What to tell the user. -/
  message : String
  /-- Position of the operation it belongs to. -/
  op : Option Nat
  /-- Further values. -/
  data : Attributes

namespace Diagnostic

/-- An error that belongs to no operation. -/
def error (code : String) (stage : Stage) (message : String) : Diagnostic :=
  ⟨code, .error, stage, message, none, []⟩

/-- Sets one of the further values. -/
def withData (d : Diagnostic) (name : String) (value : Json) : Diagnostic :=
  { d with data := d.data.set name value }

/-- The stage that an error of the engine is found in while `stage` is carried out. A
zero step is found before any store or load is attempted. -/
def stageOf (stage : Stage) : SliceError → Stage
  | .zeroStep => .normalize
  | .lengthMismatch _ _ => stage
  | .indexOutOfBounds _ _ => stage

/-- The values that an error of the engine carries. -/
def dataOf : SliceError → Attributes
  | .zeroStep => []
  | .lengthMismatch count len => [("count", .nat count), ("len", .nat len)]
  | .indexOutOfBounds index len => [("index", .int index.toInt), ("len", .nat len)]

/-- The diagnostic for an error of the engine in the operation at position `op`. -/
def ofSliceError (e : SliceError) (stage : Stage) (op : Nat) : Diagnostic :=
  ⟨e.diagnosticCode, .error, stageOf stage e, e.message, some op, dataOf e⟩

/-- The order of operations: none comes before all positions. -/
def compareOp : Option Nat → Option Nat → Ordering
  | none, none => .eq
  | none, some _ => .lt
  | some _, none => .gt
  | some a, some b => compare a b

/-- The order of diagnostics. -/
def compareKey (a b : Diagnostic) : Ordering :=
  (compareOp a.op b.op).then ((compare a.code b.code).then (compare a.message b.message))

/-- Whether one diagnostic may stand before another. -/
def le (a b : Diagnostic) : Bool := (compareKey a b).isLE

/-- The members that a diagnostic is written with. -/
def toJson (d : Diagnostic) : Json :=
  .object
    ([("code", .text d.code), ("severity", .text d.severity.name),
        ("stage", .text d.stage.name), ("message", .text d.message)] ++
      (match d.op with
        | none => []
        | some op => [("op", .nat op)]) ++
      (if d.data.isEmpty then [] else [("data", .object d.data)]))

end Diagnostic

/-- The outcome of a run. -/
structure Report where
  /-- The schema of the report. -/
  schemaVersion : String
  /-- Whether no diagnostic is an error. -/
  ok : Bool
  /-- The findings, sorted. -/
  diagnostics : List Diagnostic
  /-- Attributes of the run. -/
  info : Attributes

namespace Report

/-- A report without findings. -/
def empty : Report := ⟨reportSchema, true, [], []⟩

/-- Replaces the findings of a report, and the outcome with them. -/
def withDiagnostics (r : Report) (diagnostics : List Diagnostic) : Report :=
  let sorted := diagnostics.mergeSort Diagnostic.le
  { r with
    diagnostics := sorted
    ok := sorted.all (·.severity != .error) }

/-- Sorting loses no finding and makes up none. -/
theorem mem_withDiagnostics {r : Report} {ds : List Diagnostic} {d : Diagnostic} :
    d ∈ (r.withDiagnostics ds).diagnostics ↔ d ∈ ds := by
  simp [withDiagnostics, List.mem_mergeSort]

/-- The outcome is the one that the findings have. -/
theorem ok_withDiagnostics (r : Report) (ds : List Diagnostic) :
    (r.withDiagnostics ds).ok = true ↔
      ∀ d ∈ (r.withDiagnostics ds).diagnostics, d.severity ≠ .error := by
  simp [withDiagnostics]

/-- Sets one attribute. -/
def withInfo (r : Report) (name : String) (value : Json) : Report :=
  { r with info := r.info.set name value }

/-- The members that a report is written with. Attributes are left out when there are
none. -/
def toJson (r : Report) : Json :=
  .object
    ([("schema_version", .text r.schemaVersion), ("ok", .bool r.ok),
        ("diagnostics", .array (r.diagnostics.map Diagnostic.toJson))] ++
      (if r.info.isEmpty then [] else [("meta", .object r.info)]))

end Report

end StridedSlice
