import StridedSlice.Command.Program
import StridedSlice.Proofs.Limits
import StridedSlice.Proofs.Printing
/-!
# StridedSlice.Proofs.ExitStatus

**The exit code says what the output shows.** A command exits with zero if it says that its
task succeeded, with one if it says that its task failed, and with two if it cannot use its
input (`Command.Unusable`). What a command says is what a reader finds in its output: the flag
in the one line that is there. Only a list of positions that is too long to be set up ends a
command in another way (`Command.Overflows`); no limit but a very large one lets it be asked for.

`Command.execute_cases` goes through the commands once: either the task is answered
(`Command.Answers`), or there is a reason why it cannot be, or the list is too long. All that is
said about exit codes follows from it and from what the response is for each such reason
(`Command.execute_eq_of_unusable`, `Command.execute_eq_of_overflows`).
-/

namespace StridedSlice

namespace Json

/-! ### Lines -/

/-- The value of a member, the first one of that name. -/
def Members.get? (name : String) : Members → Option Node
  | .closed | .broken _ => none
  | .cons key value rest => if key.toOption = some name then some value else rest.get? name

/-- The value of a member of an object. -/
def Node.member? (name : String) : Node → Option Node
  | .object members => members.get? name
  | _ => none

/-- The truth value that a node is. -/
def Node.bool? : Node → Option Bool
  | .bool b => some b
  | _ => none

/-- A text is one line, and that line is a complete JSON text with the value `root`. -/
structure IsLine (text : String) (root : Node) : Prop where
  line : ∃ line, text = line ++ "\n" ∧ OneLine line ∧
    Document.ofBytes (Text.toBytes line) = ⟨root, false⟩
  complete : root.skip = .ok ()

theorem isLine_print (v : Json) : IsLine (Response.lineText (some (print v))) v.node :=
  ⟨⟨print v, rfl, oneLine_print v, document_print v⟩, skip_node v⟩

/-- A line has one value only. -/
theorem IsLine.unique {text : String} {a b : Node} (ha : IsLine text a) (hb : IsLine text b) :
    a = b := by
  obtain ⟨line, hline, -, ha⟩ := ha.line
  obtain ⟨line', hline', -, hb⟩ := hb.line
  have heq : line = line' := String.append_left_inj "\n" |>.mp (hline.symm.trans hline')
  rw [heq, hb] at ha
  exact (congrArg Document.root ha).symm

end Json

open Json

/-! ### What a command can say -/

namespace Task

/-- A task fails if its slice cannot be resolved, or if an operation of its script fails. -/
def Fails : Task → Prop
  | .resolve len slice _ => ∃ e, slice.resolve len = .error e
  | .replay s => ∃ k b o e, s.StopsAt k b ∧ s.operations[k]? = some o ∧ b.apply o = .error e

end Task

namespace Command

/-- The flag in the line of a command. A run has a report of its own inside its outcome. -/
def flag? : Command → Node → Option Bool
  | .normalize _ _ _, root => (root.member? "ok").bind Node.bool?
  | .getitem _ _ _, root | .setitem _ _ _ _, root | .run _ _, root =>
      ((root.member? "report").bind (Node.member? "ok")).bind Node.bool?

/-- The output of a command is one line with this flag. -/
def Shows (c : Command) (stdout : String) (ok : Bool) : Prop :=
  ∃ root, IsLine stdout root ∧ c.flag? root = some ok

/-- A command asks for one operation on data. -/
inductive AsksFor : Command → DType → String → Operation → Prop
  | load {dtype : DType} {data : String} {slice : Slice} :
      AsksFor (.getitem dtype data slice) dtype data (.load slice)
  | assign {dtype : DType} {data value : String} {slice : Slice} {source : Source Scalar} :
      decodeSource (Text.toBytes value) = .ok source →
        AsksFor (.setitem dtype data slice value) dtype data (.assign slice source)

/-- Why a command cannot use its input, with the text that says so: what was tried, and the reason
why it did not work. -/
inductive Unusable (wording : Wording) (limits : Limits)
    (contents : String → Except FileError (List UInt8)) : Command → String → Prop
  /-- The length is over the limit. -/
  | length {len : Nat} {slice : Slice} {listPositions : Bool} :
      limits.elements < len →
        Unusable wording limits contents (.normalize len slice listPositions)
          ("--len " ++ len.repr ++ " exceeds the element limit " ++ limits.elements.repr ++
            " (set " ++ Limits.elementsVariable ++ " to raise it)")
  /-- The value to be stored is none. -/
  | value {dtype : DType} {data value : String} {slice : Slice} {failure : Failure} :
      decodeSource (Text.toBytes value) = .error failure →
        Unusable wording limits contents (.setitem dtype data slice value)
          ("parse --value as a JSON number, bool, or array: " ++ value ++ ": " ++
            failure.message wording.value (Text.toBytes value))
  /-- The data are none. -/
  | data {c : Command} {dtype : DType} {data : String} {o : Operation} {failure : Failure} :
      c.AsksFor dtype data o → decodeScalars (Text.toBytes data) = .error failure →
        Unusable wording limits contents c
          ("parse --data as a JSON array of numbers" ++ ": " ++
            failure.message wording.data (Text.toBytes data))
  /-- The script of the one operation is over a limit. -/
  | operation {c : Command} {dtype : DType} {data : String} {o : Operation}
      {values : Array Scalar} {cause : InvalidScript} :
      c.AsksFor dtype data o → decodeScalars (Text.toBytes data) = .ok values →
        (⟨none, dtype, values, [o]⟩ : Script).validate limits = .error cause →
          Unusable wording limits contents c cause.message
  /-- The file cannot be read. -/
  | unreadable {input : String} {reportJson : Bool} {cause : FileError} :
      contents input = .error cause →
        Unusable wording limits contents (.run input reportJson)
          ("[NSLICE_SCRIPT_READ] read script: " ++ input ++ ": " ++ cause.message)
  /-- The file does not hold a script. -/
  | undecodable {input : String} {reportJson : Bool} {bytes : List UInt8} {failure : Failure} :
      contents input = .ok bytes → decodeScript bytes = .error failure →
        Unusable wording limits contents (.run input reportJson)
          ("[NSLICE_SCRIPT_PARSE] parse script JSON: " ++ input ++ ": " ++
            failure.message wording.script bytes)
  /-- The script in the file is of another schema, or over a limit. -/
  | invalid {input : String} {reportJson : Bool} {bytes : List UInt8} {s : Script}
      {cause : InvalidScript} :
      contents input = .ok bytes → decodeScript bytes = .ok s →
        s.validate limits = .error cause →
          Unusable wording limits contents (.run input reportJson) cause.message

/-- A command asks for a list of positions that is too long to be set up, and the limit lets it. -/
inductive Overflows (limits : Limits) : Command → Prop
  | list {len : Nat} {slice : Slice} {n : Selection} :
      len ≤ limits.elements → slice.resolve len = .ok n → listCapacity ≤ n.count →
        Overflows limits (.normalize len slice true)

/-- The response if the input cannot be used. -/
def refusal (text : String) : Command → Response
  | .run _ true => ⟨2, some (ScriptError.report text).toJson, none, []⟩
  | _ => .unusable text

/-- A response says whether a task succeeded. -/
structure Answers (c : Command) (task : Task) (r : Response) : Prop where
  exitCode : r.exitCode = 0 ∧ ¬ task.Fails ∨ r.exitCode = 1 ∧ task.Fails
  output : ∃ json, r.output = some json ∧ c.flag? json.node = some (r.exitCode == 0)
  error : r.error = none

variable {wording : Wording} {limits : Limits}
  {contents : String → Except FileError (List UInt8)} {c : Command}

/-! ### All commands -/

theorem execute_of_asksFor {dtype : DType} {data : String} {o : Operation}
    (h : c.AsksFor dtype data o) :
    c.execute wording limits contents = executeOperation wording limits dtype data o ∧
      ∀ text, c.refusal text = .unusable text := by
  cases h with
  | load => exact ⟨rfl, fun _ => rfl⟩
  | assign hvalue =>
      rw [execute, hvalue]
      exact ⟨rfl, fun _ => rfl⟩

theorem executeRun_of_error {file : Except FileError (List UInt8)} {input : String}
    {e : ScriptError} (h : Script.ofFile file input limits = .error e) (reportJson : Bool) :
    executeRun wording limits file input reportJson =
      (Command.run input reportJson).refusal (e.message wording.script) := by
  rw [executeRun, h]
  cases reportJson <;> rfl

/-- **Input that cannot be used** is refused with the text that says why. -/
theorem execute_eq_of_unusable {text : String} (h : c.Unusable wording limits contents text) :
    c.execute wording limits contents = c.refusal text := by
  cases h with
  | length hover =>
      rw [execute, executeNormalize, if_pos hover]
      rfl
  | value hvalue =>
      rw [execute, hvalue]
      rfl
  | data hasks hdata =>
      obtain ⟨hexecute, hrefusal⟩ := execute_of_asksFor hasks
      rw [hexecute, hrefusal, executeOperation, hdata]
      rfl
  | operation hasks hdata hvalidate =>
      obtain ⟨hexecute, hrefusal⟩ := execute_of_asksFor hasks
      rw [hexecute, hrefusal, executeOperation, hdata]
      dsimp only
      rw [hvalidate]
  | unreadable hfile =>
      exact executeRun_of_error (e := .unreadable _ _) (by rw [hfile, Script.ofFile]) _
  | @undecodable _ _ bytes failure hfile hdecode =>
      refine executeRun_of_error (e := .undecodable _ bytes failure) ?_ _
      rw [hfile, Script.ofFile, Script.ofBytes, hdecode]
  | invalid hfile hdecode hvalidate =>
      refine executeRun_of_error (e := .invalid _) ?_ _
      rw [hfile, Script.ofFile, Script.ofBytes, hdecode]
      dsimp only
      rw [hvalidate]

variable (wording contents) in
/-- **A list that is too long** ends the command, with nothing but the log before it. -/
theorem execute_eq_of_overflows (h : c.Overflows limits) :
    ∃ events, c.execute wording limits contents = .aborted wording.overflow events := by
  obtain ⟨hlen, hresolve, hcount⟩ := h
  have hlist : (true && decide (listCapacity ≤ _)) = true := decide_eq_true hcount
  rw [execute, executeNormalize, if_neg (Nat.not_lt_of_le hlen)]
  dsimp only
  rw [Slice.result_resolveTraced, hresolve]
  dsimp only
  rw [if_pos hlist]
  exact ⟨_, rfl⟩

/-! ### Exit codes -/

namespace Answers

variable {task : Task} {r : Response}

/-- An answer shows one flag, and nothing else. -/
theorem shows_iff (h : c.Answers task r) (ok : Bool) :
    c.Shows r.stdout ok ↔ ok = (r.exitCode == 0) := by
  obtain ⟨json, houtput, hflag⟩ := h.output
  have hline : IsLine r.stdout json.node := by
    rw [Response.stdout, houtput]
    exact isLine_print json
  constructor
  · rintro ⟨root, hroot, hshown⟩
    rw [hroot.unique hline, hflag] at hshown
    exact (Option.some.inj hshown).symm
  · rintro rfl
    exact ⟨_, hline, hflag⟩

theorem stderr_eq (h : c.Answers task r) (verbosity : Verbosity) :
    r.stderr verbosity = logText verbosity r.events := by
  rw [Response.stderr, h.error, Response.lineText, String.append_empty]

end Answers

/-- The line of a report with one error under the code for scripts, and with this message. -/
structure ShowsError (root : Node) (text : String) : Prop where
  ok : (root.member? "ok").bind Node.bool? = some false
  diagnostics : ∃ d, root.member? "diagnostics" = some (.array (.cons d .closed)) ∧
    d.member? "code" = some (.text (.ok "NSLICE-SCRIPT-0001")) ∧
    d.member? "message" = some (.text (.ok text))

/-- How a response refuses: with the text on standard error, or with a report that has it. -/
def RefusedBy (r : Response) (verbosity : Verbosity) (text : String) : Command → Prop
  | .run _ true => (∃ root, IsLine r.stdout root ∧ ShowsError root text) ∧ r.stderr verbosity = ""
  | _ => r.stdout = "" ∧ r.stderr verbosity = text ++ "\n"

theorem exitCode_refusal (text : String) (c : Command) : (c.refusal text).exitCode = 2 := by
  cases c with
  | run input reportJson => cases reportJson <;> rfl
  | _ => rfl

/-- How a command ends, as its exit code and what it shows tell it. -/
structure Ends (c : Command) (wording : Wording) (limits : Limits)
    (contents : String → Except FileError (List UInt8)) (verbosity : Verbosity)
    (r : Response) : Prop where
  /-- There are four exit codes. -/
  exitCode : r.exitCode = 0 ∨ r.exitCode = 1 ∨ r.exitCode = 2 ∨ r.exitCode = 101
  /-- Zero: the flag in the output is true. -/
  succeeded : r.exitCode = 0 ↔ c.Shows r.stdout true
  /-- One: the flag is false because the task failed, and there is only the log beside it. -/
  failed : r.exitCode = 1 ↔ c.Shows r.stdout false ∧
    (∃ task, c.task? contents = some task ∧ task.Fails) ∧
    r.stderr verbosity = logText verbosity r.events
  /-- Two: the input cannot be used. -/
  unusable : r.exitCode = 2 ↔ ∃ text, c.Unusable wording limits contents text
  /-- Then the response refuses, with the text that says why. -/
  refused : ∀ text, c.Unusable wording limits contents text → RefusedBy r verbosity text c
  /-- A task that fails is answered with one wherever the input can be used. -/
  fails : (∃ task, c.task? contents = some task ∧ task.Fails) →
    (¬ ∃ text, c.Unusable wording limits contents text) → r.exitCode = 1
  /-- The exit code that is left: the list of positions is too long. -/
  aborted : r.exitCode = 101 ↔ c.Overflows limits
  /-- Then there is no output, and the log is followed by what the runtime says. -/
  overflow : c.Overflows limits → r.stdout = "" ∧
    r.stderr verbosity = logText verbosity r.events ++ (wording.overflow ++ "\n")

variable {verbosity : Verbosity}

theorem exitCode_of_unusable (h : ∃ text, c.Unusable wording limits contents text) :
    (c.execute wording limits contents).exitCode = 2 := by
  obtain ⟨text, h⟩ := h
  rw [execute_eq_of_unusable h, exitCode_refusal]

variable (wording contents) in
theorem exitCode_of_overflows (h : c.Overflows limits) :
    (c.execute wording limits contents).exitCode = 101 := by
  obtain ⟨events, hexecute⟩ := execute_eq_of_overflows wording contents h
  rw [hexecute]
  rfl

theorem Answers.ends {task : Task} (htask : c.task? contents = some task)
    (h : c.Answers task (c.execute wording limits contents)) :
    c.Ends wording limits contents verbosity (c.execute wording limits contents) := by
  have hlow : (c.execute wording limits contents).exitCode = 0 ∨
      (c.execute wording limits contents).exitCode = 1 := h.exitCode.imp And.left And.left
  have husable : ¬ ∃ text, c.Unusable wording limits contents text := by
    intro hunusable
    rw [exitCode_of_unusable hunusable] at hlow
    exact absurd hlow (by decide)
  have hfits : ¬ c.Overflows limits := by
    intro hoverflows
    rw [exitCode_of_overflows wording contents hoverflows] at hlow
    exact absurd hlow (by decide)
  have hfails : (∃ task', c.task? contents = some task' ∧ task'.Fails) ↔
      (c.execute wording limits contents).exitCode = 1 := by
    simp only [htask, Option.some.injEq, exists_eq_left']
    rcases h.exitCode with ⟨hexit, hsucceeds⟩ | ⟨hexit, hfailed⟩
    · rw [hexit]
      exact iff_of_false hsucceeds (by decide)
    · exact iff_of_true hfailed hexit
  exact {
    exitCode := hlow.imp_right .inl
    succeeded := by rw [h.shows_iff, eq_comm (a := true), beq_iff_eq]
    failed := by
      rw [hfails]
      refine ⟨fun hexit => ⟨?_, hexit, h.stderr_eq verbosity⟩, fun h => h.2.1⟩
      rw [h.shows_iff, hexit]
      rfl
    unusable := by
      refine ⟨fun hexit => ?_, fun h => absurd h husable⟩
      rw [hexit] at hlow
      exact absurd hlow (by decide)
    refused := fun text h => absurd ⟨text, h⟩ husable
    fails := fun h _ => hfails.mp h
    aborted := by
      refine ⟨fun hexit => ?_, fun h => absurd h hfits⟩
      rw [hexit] at hlow
      exact absurd hlow (by decide)
    overflow := fun h => absurd h hfits }

end Command

end StridedSlice
