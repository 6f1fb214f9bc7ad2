import StridedSlice.Buffer
import StridedSlice.Report
/-!
# StridedSlice.Script.Run

**Running** a script: its operations are carried out in order, and the first one that
fails ends the run. Operations before it stay in effect, and it has none.

A run is a fold of `Run.step` over the operations, so a run of `a ++ b` is a run of `a`
that goes on with `b`.
-/

namespace StridedSlice

/-- What a load returned. -/
structure ReadRecord where
  /-- Position of the load among the operations. -/
  op : Nat
  /-- The selected elements. -/
  values : Array Scalar
  deriving Repr, DecidableEq

/-- A run so far. -/
structure Run where
  /-- The buffer. -/
  buffer : Buffer
  /-- Position of the next operation. -/
  position : Nat
  /-- Number of operations that succeeded. -/
  applied : Nat
  /-- What the loads returned. -/
  reads : Array ReadRecord
  /-- The operation that failed. -/
  failure : Option Diagnostic
  /-- What was logged. -/
  events : Array Event

namespace Operation

/-- The stage of a run in which an operation is carried out. -/
def stage : Operation → Stage
  | .assign _ _ => .store
  | .assignAt _ _ => .store
  | .load _ => .load

/-- The diagnostic for an operation that failed at a position. It names the kind of
operation, and the slice if there is one. -/
def diagnostic (o : Operation) (op : Nat) (e : SliceError) : Diagnostic :=
  let d := (Diagnostic.ofSliceError e o.stage op).withData "kind" (.text o.name)
  match o.slice? with
  | none => d
  | some s => d.withData "slice" (.text s.text)

end Operation

namespace Run

/-- Before the first operation. -/
def start (buffer : Buffer) : Run := ⟨buffer, 0, 0, #[], none, #[]⟩

/-- Carries out an operation, unless one has failed. -/
def step (r : Run) (o : Operation) : Run :=
  match r.failure with
  | some _ => r
  | none =>
      let attempt := r.buffer.applyTraced o
      let events := r.events ++ attempt.events
      match attempt.result with
      | .ok (buffer, values) =>
          let reads :=
            match values with
            | none => r.reads
            | some values => r.reads.push ⟨r.position, values⟩
          ⟨buffer, r.position + 1, r.applied + 1, reads, none, events⟩
      | .error e =>
          { r with
            failure := some (o.diagnostic r.position e)
            events := events.push (.operationFailed r.position o.name e) }

/-- Carries out operations in order. -/
def steps (r : Run) (operations : List Operation) : Run := operations.foldl step r

theorem steps_append (r : Run) (a b : List Operation) :
    r.steps (a ++ b) = (r.steps a).steps b := by
  simp [steps, List.foldl_append]

/-- The report on a run. -/
def report (r : Run) : Report :=
  Report.empty.withDiagnostics r.failure.toList
    |>.withInfo "dtype" (.text r.buffer.dtype.name)
    |>.withInfo "len" (.nat r.buffer.size)
    |>.withInfo "nbytes" (.nat (r.buffer.size * r.buffer.dtype.byteWidth))
    |>.withInfo "ops_applied" (.nat r.applied)

end Run

/-- What a run leaves behind. -/
structure Outcome where
  report : Report
  buffer : Buffer
  reads : Array ReadRecord

namespace ReadRecord

/-- The members that a record is written with. -/
def toJson (r : ReadRecord) : Json :=
  .object [("op", .nat r.op), ("values", .array (r.values.toList.map Scalar.toJson))]

end ReadRecord

namespace Outcome

/-- The members that an outcome is written with. Reads are left out when there are none. -/
def toJson (o : Outcome) : Json :=
  .object
    ([("report", o.report.toJson), ("data", o.buffer.toJson)] ++
      (if o.reads.isEmpty then []
        else [("reads", .array (o.reads.toList.map ReadRecord.toJson))]))

end Outcome

namespace Script

/-- Carries out all operations of a script. -/
def execute (s : Script) : Run := (Run.start (.ofScalars s.dtype s.data)).steps s.operations

/-- What a script does. -/
def run (s : Script) : Outcome :=
  let r := s.execute
  ⟨r.report, r.buffer, r.reads⟩

/-- What a script logs. -/
def events (s : Script) : List Event := s.execute.events.toList

end Script

end StridedSlice
