import StridedSlice.Command.Program
import StridedSlice.Proofs.Diagnosis
import StridedSlice.Proofs.Grammar
import StridedSlice.Proofs.Run
/-!
# StridedSlice.Proofs.Logging

**The log of a script** tells what its operations did, line by line, and changes nothing.

* `Traced.Reports`: a computation of the engine logs one event of level debug if it is
  refused and none otherwise; sequencing keeps this, so it holds of all operations;
* `Operation.Logs`: the lines of one operation, from the operation and the length of the
  buffer alone;
* `Buffer.Traces`: the lines of operations carried out in order up to the first that fails,
  with `Run.traces_steps` for a run;
* `program_log_exact`: what the program shows at each verbosity.
-/

namespace StridedSlice

/-! ### Refusals are reported once -/

namespace Traced

variable {α β : Type}

/-- A computation logs one event of level debug if it is refused, and none if not. -/
def Reports (x : Traced α) : Prop :=
  x.events.countP (·.level = .debug) =
    match x.result with
    | .ok _ => 0
    | .error _ => 1

theorem reports_pure (a : α) : (pure a : Traced α).Reports := rfl

theorem reports_emit {e : Event} (h : e.level ≠ .debug) : (emit e).Reports := by
  simp [Reports, h]

theorem reports_refuse {e : Event} (h : e.level = .debug) (cause : SliceError) :
    (refuse e cause : Traced α).Reports := by
  simp [Reports, h]

/-- What is refused ends a computation, so there is no second report. -/
theorem Reports.bind {x : Traced α} {f : α → Traced β} (hx : x.Reports)
    (hf : ∀ a, (f a).Reports) : (x >>= f).Reports := by
  unfold Reports at hx ⊢
  rw [events_bind, result_bind, List.countP_append, hx]
  cases x.result with
  | error e => rfl
  | ok a => exact (Nat.zero_add _).trans (hf a)

end Traced

theorem Slice.reports_resolveTraced (s : Slice) (len : Nat) : (s.resolveTraced len).Reports := by
  unfold resolveTraced
  cases s.resolve len with
  | error cause => exact Traced.reports_refuse rfl cause
  | ok n =>
      exact (Traced.reports_emit (e := .resolved s _ n) nofun).bind fun _ =>
        Traced.reports_pure n

namespace Store

variable {σ α : Type} (convert : σ → α) (a : Array α)

theorem reports_checkLength (s : Slice) (n : Selection) (source : Source σ) :
    (checkLength s n source).Reports := by
  unfold checkLength
  cases source.length? with
  | none => exact Traced.reports_pure ()
  | some len =>
      dsimp only
      split_ifs
      · exact Traced.reports_pure ()
      · exact Traced.reports_refuse rfl _

theorem reports_assignTraced (s : Slice) (source : Source σ) :
    (assignTraced convert a s source).Reports :=
  (s.reports_resolveTraced a.size).bind fun n =>
    (reports_checkLength s n source).bind fun _ =>
      (Traced.reports_emit (e := .storing n) nofun).bind fun _ => Traced.reports_pure _

theorem reports_assignAtTraced (index : Int64) (value : σ) :
    (assignAtTraced convert a index value).Reports := by
  unfold assignAtTraced
  cases indexPosition? index a.size with
  | none => exact Traced.reports_refuse rfl _
  | some p => exact Traced.reports_pure _

end Store

theorem View.reports_ofSliceTraced {α : Type} (a : Array α) (s : Slice) :
    (View.ofSliceTraced a s).Reports :=
  (s.reports_resolveTraced a.size).bind fun _ => Traced.reports_pure _

theorem Buffer.reports_applyTraced (b : Buffer) (o : Operation) : (b.applyTraced o).Reports := by
  cases o with
  | assign slice value =>
      exact (Store.reports_assignTraced _ _ _ _).bind fun _ => Traced.reports_pure _
  | assignAt index value =>
      exact (Store.reports_assignAtTraced _ _ _ _).bind fun _ => Traced.reports_pure _
  | load slice => exact (View.reports_ofSliceTraced _ _).bind fun _ => Traced.reports_pure _

/-! ### Lines -/

/-- A line of the log, without its end of line. -/
structure LogLine where
  level : Level
  text : String
  deriving DecidableEq

namespace LogLine

/-- A script of `ops` operations, read from `path`, starts. -/
def running (path : String) (ops : Nat) : LogLine :=
  ⟨.info, " INFO nslice: running script path=" ++ path ++ " ops=" ++ ops.repr⟩

/-- A slice is refused for its zero step. -/
def rejected (slice : Slice) (len : Nat) : LogLine :=
  ⟨.debug, "DEBUG nslice::normalize: rejecting zero slice step spec=" ++ slice.text ++
    " len=" ++ len.repr⟩

/-- A slice is resolved against a length. -/
def normalized (slice : Slice) (len : Nat) (n : Selection) : LogLine :=
  ⟨.trace, "TRACE nslice::normalize: normalized slice spec=" ++ slice.text ++ " len=" ++
    len.repr ++ " start=" ++ n.start.toInt.repr ++ " stop=" ++ n.stop.toInt.repr ++ " step=" ++
    n.step.toInt.repr ++ " count=" ++ n.count.repr⟩

/-- A sequence of `len` elements does not fit `count` selected positions. -/
def mismatch (slice : Slice) (count len : Nat) : LogLine :=
  ⟨.debug, "DEBUG nslice::store: sequence length mismatch spec=" ++ slice.text ++ " count=" ++
    count.repr ++ " len=" ++ len.repr⟩

/-- A selection is written. -/
def stored (n : Selection) : LogLine :=
  ⟨.trace, "TRACE nslice::store: slice store start=" ++ n.start.toInt.repr ++ " step=" ++
    n.step.toInt.repr ++ " count=" ++ n.count.repr⟩

/-- A single index falls outside `len` elements. -/
def outOfBounds (index : Int64) (len : Nat) : LogLine :=
  ⟨.debug, "DEBUG nslice::store: index out of bounds index=" ++ index.toInt.repr ++ " len=" ++
    len.repr⟩

/-- The operation at a position has failed. -/
def failed (op : Nat) (kind : String) (e : SliceError) : LogLine :=
  ⟨.debug, "DEBUG nslice::script: script op failed op=" ++ op.repr ++ " kind=" ++
    ("\"" ++ kind ++ "\"") ++ " err=" ++ e.message⟩

/-- The text of a log. -/
def render (lines : List LogLine) : String := String.join (lines.map fun l => l.text ++ "\n")

end LogLine

/-- The line of an event, with its severity. -/
def Event.logLine (e : Event) : LogLine := ⟨e.level, e.line⟩

theorem Event.append_field (text name value : String) :
    text ++ " " ++ name ++ "=" ++ value = text ++ (" " ++ name ++ "=") ++ value := by
  simp only [String.append_assoc]

/-- The line of every event, spelled out. -/
theorem Event.logLine_eq (e : Event) :
    e.logLine =
      match e with
      | .zeroStep s len => .rejected s len
      | .resolved s len n => .normalized s len n
      | .lengthMismatch s count len => .mismatch s count len
      | .storing n => .stored n
      | .outOfBounds index len => .outOfBounds index len
      | .operationFailed op kind e => .failed op kind e
      | .running path ops => .running path ops := by
  -- The text before the first field and each name with its equals sign are one literal.
  cases e <;> refine congrArg (LogLine.mk _) ?_ <;>
    simp only [line, fields, level, target, message, Level.label, List.foldl_cons,
      List.foldl_nil, append_field, String.reduceAppend]

/-- What is reported once is one line of level debug. -/
theorem Traced.Reports.countP_logLine {α : Type} {x : Traced α} (h : x.Reports) :
    (x.events.map Event.logLine).countP (·.level = .debug) =
      match x.result with
      | .ok _ => 0
      | .error _ => 1 := by
  rw [List.countP_map]
  exact h

/-! ### The events of an operation -/

@[simp] theorem Traced.events_bind_pure {α β : Type} (x : Traced α) (f : α → β) :
    (x >>= fun a => pure (f a)).events = x.events := by
  rw [events_bind]
  cases x.result <;> simp

theorem Slice.events_resolveTraced (s : Slice) (len : Nat) :
    (s.resolveTraced len).events =
      match s.resolve len with
      | .error _ => [.zeroStep s len]
      | .ok n => [.resolved s (effectiveLength len) n] := by
  unfold resolveTraced
  cases s.resolve len <;> rfl

namespace Store

variable {σ α : Type} (convert : σ → α) {a : Array α} {s : Slice} {source : Source σ}

theorem events_assignTraced_of_error {e : SliceError} (h : s.resolve a.size = .error e) :
    (assignTraced convert a s source).events = [.zeroStep s a.size] := by
  rw [assignTraced, Traced.events_bind, Slice.events_resolveTraced, Slice.result_resolveTraced, h]
  rfl

theorem checkLength_of_fits (s : Slice) {n : Selection} (hfit : source.Fits n.count) :
    checkLength s n source = pure () := by
  unfold checkLength
  cases hlen : source.length? with
  | none => rfl
  | some len => exact if_pos (hfit len hlen)

theorem checkLength_of_length_ne (s : Slice) {n : Selection} {len : Nat}
    (hlen : source.length? = some len) (hne : len ≠ n.count) :
    checkLength s n source =
      .refuse (.lengthMismatch s n.count len) (.lengthMismatch n.count len) := by
  unfold checkLength
  rw [hlen]
  exact if_neg hne

variable {n : Selection} (h : s.resolve a.size = .ok n)
include h

/-- A slice that is resolved is logged before its source is looked at. -/
theorem events_assignTraced :
    (assignTraced convert a s source).events =
      .resolved s (Slice.effectiveLength a.size) n ::
        (do
          checkLength s n source
          Traced.emit (.storing n)
          pure (write convert a n source)).events := by
  rw [assignTraced, Traced.events_bind, Slice.events_resolveTraced, Slice.result_resolveTraced, h]
  rfl

theorem events_assignTraced_of_fits (hfit : source.Fits n.count) :
    (assignTraced convert a s source).events =
      [.resolved s (Slice.effectiveLength a.size) n, .storing n] := by
  rw [events_assignTraced convert h, checkLength_of_fits s hfit]
  rfl

theorem events_assignTraced_of_length_ne {len : Nat} (hlen : source.length? = some len)
    (hne : len ≠ n.count) :
    (assignTraced convert a s source).events =
      [.resolved s (Slice.effectiveLength a.size) n, .lengthMismatch s n.count len] := by
  rw [events_assignTraced convert h, checkLength_of_length_ne s hlen hne]
  rfl

end Store

/-- The lines that an operation logs on a buffer of `len` elements. -/
inductive Operation.Logs (len : Nat) : Operation → List LogLine → Prop
  /-- A load or a store through a slice whose step is zero. -/
  | rejected {o : Operation} {slice : Slice} :
      o.slice? = some slice → slice.step = some 0 → Logs len o [.rejected slice len]
  /-- A load through any other slice. -/
  | loaded {slice : Slice} {n : Selection} :
      slice.resolve len = .ok n →
        Logs len (.load slice) [.normalized slice (Slice.effectiveLength len) n]
  /-- A store of what fits the selected positions. -/
  | stored {slice : Slice} {value : Source Scalar} {n : Selection} :
      slice.resolve len = .ok n → value.Fits n.count →
        Logs len (.assign slice value)
          [.normalized slice (Slice.effectiveLength len) n, .stored n]
  /-- A store of a sequence of another length. -/
  | mismatch {slice : Slice} {value : Source Scalar} {n : Selection} {given : Nat} :
      slice.resolve len = .ok n → value.length? = some given → given ≠ n.count →
        Logs len (.assign slice value)
          [.normalized slice (Slice.effectiveLength len) n, .mismatch slice n.count given]
  /-- A store of one scalar at an index that stands for a position. -/
  | storedAt {index : Int64} {value : Scalar} :
      -(len : Int) ≤ index.toInt ∧ index.toInt < len → Logs len (.assignAt index value) []
  /-- A store of one scalar at any other index. -/
  | outOfBounds {index : Int64} {value : Scalar} :
      ¬ (-(len : Int) ≤ index.toInt ∧ index.toInt < len) →
        Logs len (.assignAt index value) [.outOfBounds index len]

/-- **One operation** logs the lines that are foreseen for it. -/
theorem Buffer.logs_applyTraced (b : Buffer) (o : Operation) :
    o.Logs b.size ((b.applyTraced o).events.map Event.logLine) := by
  cases o with
  | assign slice value =>
      rw [applyTraced, Traced.events_bind_pure]
      cases hresolve : slice.resolve b.data.size with
      | error e =>
          rw [Store.events_assignTraced_of_error _ hresolve]
          simp only [List.map_cons, List.map_nil, Event.logLine_eq]
          exact .rejected rfl (Slice.resolve_eq_error_iff.mp hresolve).1
      | ok n =>
          by_cases hfit : value.Fits n.count
          · rw [Store.events_assignTraced_of_fits _ hresolve hfit]
            simp only [List.map_cons, List.map_nil, Event.logLine_eq]
            exact .stored hresolve hfit
          · obtain ⟨len, hlen, hne⟩ := Source.not_fits_iff.mp hfit
            rw [Store.events_assignTraced_of_length_ne _ hresolve hlen hne]
            simp only [List.map_cons, List.map_nil, Event.logLine_eq]
            exact .mismatch hresolve hlen hne
  | assignAt index value =>
      rw [applyTraced, Traced.events_bind_pure, Store.assignAtTraced]
      cases hindex : Store.indexPosition? index b.data.size with
      | none =>
          simp only [Traced.events_refuse, List.map_cons, List.map_nil, Event.logLine_eq]
          exact .outOfBounds (Store.indexPosition?_eq_none_iff.mp hindex)
      | some p =>
          refine .storedAt ?_
          by_contra hout
          exact absurd (Store.indexPosition?_eq_none_iff.mpr hout) (by simp [hindex, size])
  | load slice =>
      rw [applyTraced, Traced.events_bind_pure, View.ofSliceTraced, Traced.events_bind_pure,
        Slice.events_resolveTraced]
      cases hresolve : slice.resolve b.data.size with
      | error e =>
          simp only [List.map_cons, List.map_nil, Event.logLine_eq]
          exact .rejected rfl (Slice.resolve_eq_error_iff.mp hresolve).1
      | ok n =>
          simp only [List.map_cons, List.map_nil, Event.logLine_eq]
          exact .loaded hresolve

/-! ### The lines of a run -/

/-- The lines of operations that are carried out in order on a buffer, the first of them at
position `op` of its script: the lines of each, up to the first that fails, and then a line
about the failure. Of the lines of an operation one is of level debug if it fails, and none
if not. -/
inductive Buffer.Traces : Buffer → Nat → List Operation → List LogLine → Prop
  | done {b : Buffer} {op : Nat} : Traces b op [] []
  | succeeds {b after : Buffer} {op : Nat} {o : Operation} {rest : List Operation}
      {values : Option (Array Scalar)} {lines more : List LogLine} :
      b.apply o = .ok (after, values) → o.Logs b.size lines →
        lines.countP (·.level = .debug) = 0 → Traces after (op + 1) rest more →
          Traces b op (o :: rest) (lines ++ more)
  | fails {b : Buffer} {op : Nat} {o : Operation} {rest : List Operation} {e : SliceError}
      {lines : List LogLine} :
      b.apply o = .error e → o.Logs b.size lines → lines.countP (·.level = .debug) = 1 →
        Traces b op (o :: rest) (lines ++ [.failed op o.name e])

namespace Run

/-- A run that has failed logs nothing more. -/
theorem steps_of_failed {r : Run} (h : r.failure ≠ none) (operations : List Operation) :
    r.steps operations = r := by
  induction operations with
  | nil => rfl
  | cons o rest ih => rw [steps, List.foldl_cons, step_of_failed h, ← steps, ih]

/-- A step logs what its operation logs, and its failure. -/
theorem events_step {r : Run} (h : r.failure = none) (o : Operation) :
    (r.step o).events.toList =
      r.events.toList ++ (r.buffer.applyTraced o).events ++
        match r.buffer.apply o with
        | .ok _ => []
        | .error e => [.operationFailed r.position o.name e] := by
  unfold Buffer.apply
  cases hresult : (r.buffer.applyTraced o).result <;> simp [step, h, hresult]

/-- **A run** logs the lines of its operations after those there are. -/
theorem traces_steps {r : Run} (h : r.failure = none) (operations : List Operation) :
    ∃ lines, r.buffer.Traces r.position operations lines ∧
      (r.steps operations).events.toList.map Event.logLine =
        r.events.toList.map Event.logLine ++ lines := by
  induction operations generalizing r with
  | nil => exact ⟨[], .done, (List.append_nil _).symm⟩
  | cons o rest ih =>
      have hlogs := r.buffer.logs_applyTraced o
      have hcount := (r.buffer.reports_applyTraced o).countP_logLine
      have hevents := events_step h o
      have hsteps : r.steps (o :: rest) = (r.step o).steps rest := rfl
      rw [hsteps]
      cases happly : r.buffer.apply o with
      | error e =>
          have hresult : (r.buffer.applyTraced o).result = .error e := happly
          obtain ⟨events, hstep⟩ := step_of_error h happly
          refine ⟨_, .fails happly hlogs (by rw [hcount, hresult]), ?_⟩
          rw [steps_of_failed (by simp [hstep]), hevents, happly]
          simp [Event.logLine_eq (.operationFailed _ _ _)]
      | ok result =>
          obtain ⟨after, values⟩ := result
          have hresult : (r.buffer.applyTraced o).result = .ok (after, values) := happly
          obtain ⟨events, hstep⟩ := step_of_ok h happly
          obtain ⟨more, htraces, hmore⟩ := ih (r := r.step o) (by rw [hstep])
          rw [hevents, happly] at hmore
          rw [hstep] at htraces
          refine ⟨_, .succeeds happly hlogs (by rw [hcount, hresult]) htraces, ?_⟩
          rw [hmore]
          simp

end Run

/-- A script logs the lines of its operations. -/
theorem Script.traces_events (s : Script) :
    (Buffer.ofScalars s.dtype s.data).Traces 0 s.operations (s.events.map Event.logLine) := by
  obtain ⟨lines, htraces, hlines⟩ :=
    Run.traces_steps (r := .start (.ofScalars s.dtype s.data)) rfl s.operations
  have hevents : s.events.map Event.logLine = lines := hlines
  exact hevents ▸ htraces

/-! ### What the program shows -/

/-- A log has the lines of the enabled levels, each with an end of line. -/
theorem logText_eq (verbosity : Verbosity) (events : List Event) :
    logText verbosity events =
      LogLine.render ((events.map Event.logLine).filter (verbosity.enables ·.level)) := by
  rw [LogLine.render, List.filter_map, List.map_map, String.join, List.foldl_map, logText]
  simp only [Function.comp_def, Event.logLine, String.append_assoc]

/-- The name of a verbosity. -/
def Verbosity.name : Verbosity → String
  | .silent => "off"
  | .upTo .error => "error"
  | .upTo .warn => "warn"
  | .upTo .info => "info"
  | .upTo .debug => "debug"
  | .upTo .trace => "trace"

theorem Verbosity.ofSetting_name (v : Verbosity) : ofSetting (some v.name) = v := by
  cases v with
  | silent => rfl
  | upTo level => cases level <;> rfl

section Program

variable (wording : Wording) (env : Environment)
  (contents : String → Except FileError (List UInt8))
  {arguments : List String} {input : String} {reportJson : Bool} {s : Script}
  (hcommand : Command.parse? arguments = some (.run input reportJson))
  (hscript : Script.ofFile (contents input) input env.limits = .ok s)
include hcommand hscript

/-- What the program shows for a script that is accepted. -/
theorem program_run :
    program wording env contents arguments =
      (Response.ofOutcome s.run (.running input s.operations.length :: s.events)).shown
        env.verbosity := by
  have hexecute : Command.execute wording env.limits contents (.run input reportJson) =
      .ofOutcome s.run (.running input s.operations.length :: s.events) := by
    rw [Command.execute, Command.executeRun, hscript]
  rw [program, hcommand]
  dsimp only
  rw [hexecute]

theorem stderr_program :
    (program wording env contents arguments).stderr =
      LogLine.render
        ((LogLine.running input s.operations.length :: s.events.map Event.logLine).filter
          (env.verbosity.enables ·.level)) := by
  rw [program_run wording env contents hcommand hscript]
  show logText _ _ ++ "" = _
  rw [String.append_empty, logText_eq, Response.ofOutcome, List.map_cons, Event.logLine_eq]

/-- **The log is exact, and only a log.** Whatever the setting of the log is, an accepted
script gives the same exit code and the same standard output. Standard error has the line
about the script and those of its operations in order, up to the first that fails
(`Buffer.Traces`): at the verbosity `trace` all of them, and at each verbosity those of the
levels it enables. -/
theorem program_log_exact :
    ∃ lines, (Buffer.ofScalars s.dtype s.data).Traces 0 s.operations lines ∧
      (∀ log,
        (program wording { env with log := log } contents arguments).exitCode =
            (program wording env contents arguments).exitCode ∧
          (program wording { env with log := log } contents arguments).stdout =
            (program wording env contents arguments).stdout) ∧
      (program wording { env with log := some "trace" } contents arguments).stderr =
        LogLine.render (.running input s.operations.length :: lines) ∧
      ∀ verbosity : Verbosity,
        (program wording { env with log := some verbosity.name } contents arguments).stderr =
          LogLine.render
            ((LogLine.running input s.operations.length :: lines).filter
              (verbosity.enables ·.level)) := by
  have hstderr (verbosity : Verbosity) :
      (program wording { env with log := some verbosity.name } contents arguments).stderr =
        LogLine.render
          ((LogLine.running input s.operations.length :: s.events.map Event.logLine).filter
            (verbosity.enables ·.level)) := by
    rw [stderr_program wording { env with log := some verbosity.name } contents hcommand hscript,
      Environment.verbosity, Verbosity.ofSetting_name]
  refine ⟨_, s.traces_events, fun log => ?_, ?_, hstderr⟩
  · rw [program_run wording { env with log := log } contents hcommand hscript,
      program_run wording env contents hcommand hscript]
    exact ⟨rfl, rfl⟩
  · have htrace := hstderr (.upTo .trace)
    rwa [List.filter_eq_self.mpr fun l _ => by cases l.level <;> rfl] at htrace

end Program

set_option maxRecDepth 4096 in
/-- A script whose only operation stores two values at one position logs the failure. -/
theorem program_log_exact_namedText :
    ∃ lines,
      (Buffer.ofScalars .int8 #[.int 0, .int 1]).Traces 0
        [.assign ⟨some (-1), none, none⟩ (.sequence #[.int 2, .bool true])] lines ∧
      (program .plain ⟨none, none, some "debug"⟩ (fun _ => .ok Script.namedText)
        ["run", "--input", "script.json"]).stderr =
          LogLine.render ((LogLine.running "script.json" 1 :: lines).filter
            ((Verbosity.upTo .debug).enables ·.level)) := by
  have hcommand : Command.parse? ["run", "--input", "script.json"] =
      some (.run "script.json" false) := by decide +kernel
  have hscript : Script.ofFile (.ok Script.namedText) "script.json"
      (Environment.limits ⟨none, none, none⟩) =
        .ok ⟨none, .int8, #[.int 0, .int 1],
          [.assign ⟨some (-1), none, none⟩ (.sequence #[.int 2, .bool true])]⟩ :=
    Script.ofBytes_eq_ok_iff.mpr ⟨Script.decodeScript_namedText, rfl⟩
  obtain ⟨lines, htraces, -, -, hstderr⟩ :=
    program_log_exact .plain ⟨none, none, none⟩ (fun _ => .ok Script.namedText) hcommand hscript
  exact ⟨lines, htraces, hstderr (.upTo .debug)⟩

end StridedSlice
