import StridedSlice.Command.Execute
import StridedSlice.Proofs.Grammar
import StridedSlice.Proofs.Representation
import StridedSlice.Proofs.Run
/-!
# StridedSlice.Proofs.Limits

**Limits bound all that is built from input.** Limits are looked at once, before anything is
carried out (`Script.Within`, `Task.Within`). Nothing checks what a run builds: its buffer
keeps its length, each load makes one record at most, and no slice selects more positions than
there are elements. So what a run holds at any moment is bounded by its script
(`Run.Sound.contained`), and what a command answers is bounded by the limits
(`Limits.Enforced`).
-/

namespace StridedSlice

/-! ### Settings -/

namespace Limits

/-- A setting asks for a limit if it is a text that has a positive number of 64 bits between
blanks. -/
def Asks (setting : Option (List UInt8)) (v : Nat) : Prop :=
  ∃ bytes text, setting = some bytes ∧ Text.ofBytes? bytes = some text ∧
    Text.unsigned? (Text.trim text) = some v ∧ 0 < v

/-- The limit under a setting is the one that it asks for, and the standard one if it asks for
none. -/
def Governs (setting : Option (List UInt8)) (standard limit : Nat) : Prop :=
  (∀ v, Asks setting v → limit = v) ∧ ((∀ v, ¬ Asks setting v) → limit = standard)

theorem asks_iff {setting : Option (List UInt8)} {v : Nat} :
    Asks setting v ↔ setting.bind ofSetting? = some v := by
  simp only [Asks, ofSetting?, Option.bind_eq_some_iff, Option.filter_eq_some_iff,
    decide_eq_true_eq]
  constructor
  · rintro ⟨bytes, text, hsetting, htext, hv⟩
    exact ⟨bytes, hsetting, text, htext, hv⟩
  · rintro ⟨bytes, hsetting, text, htext, hv⟩
    exact ⟨bytes, text, hsetting, htext, hv⟩

theorem governs_getD (setting : Option (List UInt8)) (standard : Nat) :
    Governs setting standard ((setting.bind ofSetting?).getD standard) := by
  constructor
  · intro v hv
    rw [asks_iff.mp hv, Option.getD_some]
  · intro hnone
    have hbind : setting.bind ofSetting? = none :=
      Option.eq_none_iff_forall_ne_some.mpr fun v hv => hnone v (asks_iff.mpr hv)
    rw [hbind, Option.getD_none]

end Limits

/-! ### Scripts -/

/-- A script keeps within limits with its buffer, the number of its operations, and each
sequence that an operation stores. -/
structure Script.Within (limits : Limits) (s : Script) : Prop where
  data : s.data.size ≤ limits.elements
  operations : s.operations.length ≤ limits.operations
  sequences : ∀ o ∈ s.operations, ∀ vs, o.sequence? = some vs → vs.size ≤ limits.elements

theorem Script.Within.of_validate {s : Script} {limits : Limits} (h : s.validate limits = .ok ()) :
    s.Within limits := by
  obtain ⟨-, hdata, hoperations, hsequences⟩ := Json.validate_eq_ok_iff.mp h
  exact ⟨hdata, hoperations, hsequences⟩

/-! ### Runs -/

/-- No slice selects more positions than there are elements. -/
theorem Slice.count_le_of_resolve {slice : Slice} {len : Nat} {n : Selection}
    (h : slice.resolve len = .ok n) : n.count ≤ len :=
  (resolved_of_resolve h).count_le.trans (Nat.min_le_left _ _)

/-- What a run may hold: a buffer of `len` elements, and at most `count` records of at most
`len` values each. -/
structure Contained (len count : Nat) (b : Buffer) (reads : Array ReadRecord) : Prop where
  size_eq : b.size = len
  reads_le : reads.size ≤ count
  values_le : ∀ r ∈ reads, r.values.size ≤ len

/-- There is at most one load for each operation. -/
theorem Script.length_loadsBefore_le (s : Script) (k : Nat) : (s.loadsBefore k).length ≤ k :=
  calc (s.loadsBefore k).length
      _ ≤ (List.range k).length := List.length_filter_le ..
      _ = k := List.length_range

/-- A load has no more values to show than the buffer has elements. -/
theorem Script.Records.size_le {s : Script} {i : Nat} {r : ReadRecord} (h : s.Records i r) :
    r.values.size ≤ s.data.size := by
  obtain ⟨-, slice, b, -, hb, hselects⟩ := h
  obtain ⟨n, hn, hsize⟩ := hselects.exists_size_eq
  calc r.values.size
      _ = n.count := hsize
      _ ≤ b.size := Slice.count_le_of_resolve hn
      _ = s.data.size := (shape_of_bufferBefore hb).2

/-- **What a run holds** is bounded by its script, after any number of operations. -/
theorem Run.Sound.contained {s : Script} {j : Nat} {r : Run} (h : r.Sound s j) :
    Contained s.data.size s.operations.length r.buffer r.reads where
  size_eq := (Script.shape_of_bufferBefore h.before).2
  reads_le :=
    calc r.reads.size
        _ = (s.loadsBefore r.applied).length := by rw [h.reads.length_eq, Array.length_toList]
        _ ≤ r.applied := s.length_loadsBefore_le _
        _ ≤ s.operations.length := Script.le_of_bufferBefore h.before
  values_le := by
    intro record hrecord
    obtain ⟨hlength, hget⟩ := List.forall₂_iff_get.mp h.reads
    obtain ⟨i, hi, rfl⟩ := List.mem_iff_getElem.mp hrecord.val
    exact (hget i (hlength ▸ hi) hi).size_le

/-- A script is contained in limits if whatever its run holds, on the way and at the end, is
bounded by the length of its buffer and by the number of operations allowed. -/
structure Script.ContainedIn (limits : Limits) (s : Script) : Prop where
  during : ∀ j ≤ s.operations.length,
    Contained s.data.size limits.operations (s.runTo j).buffer (s.runTo j).reads
  after : Contained s.data.size limits.operations s.run.buffer s.run.reads

/-- A script within limits is contained in them. -/
theorem Script.Within.containedIn {s : Script} {limits : Limits} (h : s.Within limits) :
    s.ContainedIn limits := by
  have hweaken {b : Buffer} {reads : Array ReadRecord}
      (hcontained : Contained s.data.size s.operations.length b reads) :
      Contained s.data.size limits.operations b reads :=
    { hcontained with reads_le := hcontained.reads_le.trans h.operations }
  exact {
    during := fun j hj => hweaken (Run.Sound.runTo s hj).contained
    after := hweaken (Run.Sound.execute s).contained }

/-! ### Commands -/

/-- What a command asks for, once its input is decoded. -/
inductive Task
  /-- To resolve a slice against a length, and perhaps to list the selected positions. -/
  | resolve (len : Nat) (slice : Slice) (listPositions : Bool)
  /-- To run a script. -/
  | replay (s : Script)

namespace Task

/-- A task keeps within limits. -/
def Within (limits : Limits) : Task → Prop
  | .resolve len _ _ => len ≤ limits.elements
  | .replay s => s.Within limits

/-- What is checked before a task is carried out. -/
def Admitted (limits : Limits) : Task → Prop
  | .resolve len _ _ => len ≤ limits.elements
  | .replay s => s.validate limits = .ok ()

theorem Admitted.within {task : Task} {limits : Limits} (h : task.Admitted limits) :
    task.Within limits := by
  cases task with
  | resolve len slice listPositions => exact h
  | replay s => exact .of_validate h

/-- A response says how a task was carried out. It says nothing if a list of positions is asked
for that is too long to be set up. -/
def AnsweredBy (response : Response) : Task → Prop
  | .resolve len slice listPositions =>
      response.output = match slice.resolve len with
        | .ok n =>
            if listPositions ∧ Command.listCapacity ≤ n.count then none
            else some (Command.normalizedJson n listPositions)
        | .error e => some (Command.refusedReport e slice len).toJson
  | .replay s => ∃ events, response = .ofOutcome s.run events

/-- All that is built for a task is bounded by limits. -/
def ContainedIn (limits : Limits) : Task → Prop
  | .resolve len slice _ =>
      ∀ n, slice.resolve len = .ok n → n.positions.toList.length ≤ limits.elements
  | .replay s => s.ContainedIn limits

/-- A task within limits is contained in them. -/
theorem Within.containedIn {task : Task} {limits : Limits} (h : task.Within limits) :
    task.ContainedIn limits := by
  cases task with
  | resolve len slice listPositions =>
      intro n hn
      calc n.positions.toList.length
          _ = n.count := by rw [n.toList_positions, Cursor.length_toList]; rfl
          _ ≤ len := Slice.count_le_of_resolve hn
          _ ≤ limits.elements := h
  | replay s => exact Script.Within.containedIn h

end Task

/-- A response that rejects: nothing is carried out, and there is no output but perhaps a
report on the rejection. -/
structure Response.Rejects (r : Response) : Prop where
  exitCode : r.exitCode = 2
  events : r.events = []
  output : ∀ json, r.output = some json → ∃ message, json = (ScriptError.report message).toJson

theorem Response.unusable_rejects (message : String) : (Response.unusable message).Rejects :=
  ⟨rfl, rfl, nofun⟩

namespace Command

/-- To run a script of one operation. -/
def operationTask? (dtype : DType) (data : String) (o : Operation) : Option Task :=
  (Json.decodeScalars (Text.toBytes data)).toOption.map fun values =>
    .replay ⟨none, dtype, values, [o]⟩

/-- To run the script in a file. -/
def fileTask? (file : Except FileError (List UInt8)) : Option Task :=
  file.toOption.bind fun bytes => (Json.decodeScript bytes).toOption.map .replay

/-- What a command asks for, if its input can be decoded. -/
def task? (contents : String → Except FileError (List UInt8)) : Command → Option Task
  | .normalize len slice listPositions => some (.resolve len slice listPositions)
  | .getitem dtype data slice => operationTask? dtype data (.load slice)
  | .setitem dtype data slice value =>
      (Json.decodeSource (Text.toBytes value)).toOption.bind fun source =>
        operationTask? dtype data (.assign slice source)
  | .run input _ => fileTask? (contents input)

/-- How a response treats what is asked for. -/
inductive Treats (limits : Limits) (response : Response) : Option Task → Prop
  /-- Nothing can be decoded, so nothing is carried out. -/
  | undecoded : response.Rejects → Treats limits response none
  /-- The check fails, so nothing is carried out. -/
  | refused {task : Task} : ¬ task.Admitted limits → response.Rejects →
      Treats limits response (some task)
  | answered {task : Task} : task.Admitted limits → task.AnsweredBy response →
      Treats limits response (some task)

variable {wording : Wording} {limits : Limits}

theorem executeNormalize_treats (len : Nat) (slice : Slice) (listPositions : Bool) :
    Treats limits (executeNormalize wording limits len slice listPositions)
      (some (.resolve len slice listPositions)) := by
  unfold executeNormalize
  by_cases hover : limits.elements < len
  · rw [if_pos hover]
    exact .refused (Nat.not_le_of_lt hover) (Response.unusable_rejects _)
  · rw [if_neg hover]
    refine .answered (Nat.le_of_not_lt hover) ?_
    dsimp only
    rw [Slice.result_resolveTraced, Task.AnsweredBy]
    cases slice.resolve len with
    | error e => rfl
    | ok n =>
        simp only [Bool.and_eq_true, decide_eq_true_eq]
        split_ifs <;> rfl

/-- A script is run if validation lets it pass, and rejected if not. -/
theorem treats_replay {response : Response} {s : Script}
    (hinvalid : ∀ e, s.validate limits = .error e → response.Rejects)
    (hvalid : s.validate limits = .ok () → ∃ events, response = .ofOutcome s.run events) :
    Treats limits response (some (.replay s)) := by
  cases hvalidate : s.validate limits with
  | error e =>
      refine .refused (fun hadmitted => ?_) (hinvalid e hvalidate)
      rw [Task.Admitted, hvalidate] at hadmitted
      cases hadmitted
  | ok u => exact .answered hvalidate (hvalid hvalidate)

theorem executeOperation_treats (dtype : DType) (data : String) (o : Operation) :
    Treats limits (executeOperation wording limits dtype data o) (operationTask? dtype data o) := by
  unfold executeOperation operationTask?
  cases Json.decodeScalars (Text.toBytes data) with
  | error e => exact .undecoded (Response.unusable_rejects _)
  | ok values =>
      refine treats_replay (fun e he => ?_) fun hok => ?_
      · dsimp only
        rw [he]
        exact Response.unusable_rejects _
      · dsimp only
        rw [hok]
        exact ⟨_, rfl⟩

/-- Whatever is wrong with a script, the response to it is a rejection. -/
theorem executeRun_rejects {file : Except FileError (List UInt8)} {input : String}
    {reportJson : Bool} {e : ScriptError} (h : Script.ofFile file input limits = .error e) :
    (executeRun wording limits file input reportJson).Rejects := by
  unfold executeRun
  rw [h]
  cases reportJson with
  | true =>
      refine ⟨rfl, rfl, fun json hjson => ?_⟩
      cases hjson
      exact ⟨_, rfl⟩
  | false => exact Response.unusable_rejects _

theorem executeRun_treats (file : Except FileError (List UInt8)) (input : String)
    (reportJson : Bool) :
    Treats limits (executeRun wording limits file input reportJson) (fileTask? file) := by
  cases file with
  | error e => exact .undecoded (executeRun_rejects rfl)
  | ok bytes =>
      have htask : fileTask? (.ok bytes) = (Json.decodeScript bytes).toOption.map .replay := rfl
      rw [htask]
      cases hdecode : Json.decodeScript bytes with
      | error e =>
          refine .undecoded (executeRun_rejects (e := .undecodable input bytes e) ?_)
          rw [Script.ofFile, Script.ofBytes, hdecode]
      | ok s =>
          refine treats_replay (fun e he => executeRun_rejects (e := .invalid e) ?_) fun hok => ?_
          · rw [Script.ofFile, Script.ofBytes, hdecode]
            dsimp only
            rw [he]
          · have hfile : Script.ofFile (.ok bytes) input limits = .ok s :=
              Script.ofBytes_eq_ok_iff.mpr ⟨hdecode, hok⟩
            unfold executeRun
            rw [hfile]
            exact ⟨_, rfl⟩

/-- **Each command** treats what it asks for. -/
theorem execute_treats (wording : Wording) (limits : Limits)
    (contents : String → Except FileError (List UInt8)) (c : Command) :
    Treats limits (c.execute wording limits contents) (c.task? contents) := by
  cases c with
  | normalize len slice listPositions => exact executeNormalize_treats len slice listPositions
  | getitem dtype data slice => exact executeOperation_treats dtype data (.load slice)
  | setitem dtype data slice value =>
      rw [execute, task?]
      cases Json.decodeSource (Text.toBytes value) with
      | error e => exact .undecoded (Response.unusable_rejects _)
      | ok source => exact executeOperation_treats dtype data (.assign slice source)
  | run input reportJson => exact executeRun_treats (contents input) input reportJson

end Command

/-! ### What limits achieve -/

/-- Limits are enforced on scripts that are read, and on commands that are carried out. -/
structure Limits.Enforced (limits : Limits) : Prop where
  /-- A script that is read is within the limits, and so is whatever its run holds. -/
  script : ∀ bytes path s, Script.ofBytes bytes path limits = .ok s →
    s.Within limits ∧ s.ContainedIn limits
  /-- A script over the limits is not read. -/
  script_over : ∀ bytes path s, Json.decodeScript bytes = .ok s → ¬ s.Within limits →
    ∃ cause, Script.ofBytes bytes path limits = .error (.invalid cause)
  /-- What a command carries out is within the limits, and so is all that is built for it. -/
  command : ∀ wording contents (c : Command),
    (c.execute wording limits contents).exitCode ≠ 2 →
      ∃ task, c.task? contents = some task ∧ task.Within limits ∧
        task.AnsweredBy (c.execute wording limits contents) ∧ task.ContainedIn limits
  /-- A command over the limits carries out nothing. -/
  command_over : ∀ wording contents (c : Command) task, c.task? contents = some task →
    ¬ task.Within limits → (c.execute wording limits contents).Rejects

namespace Limits

variable {wording : Wording} {limits : Limits}

theorem script_over_rejected {bytes : List UInt8} (path : String) {s : Script}
    (hdecode : Json.decodeScript bytes = .ok s) (hover : ¬ s.Within limits) :
    ∃ cause, Script.ofBytes bytes path limits = .error (.invalid cause) := by
  cases hvalidate : s.validate limits with
  | ok u => exact absurd (.of_validate hvalidate) hover
  | error cause =>
      refine ⟨cause, ?_⟩
      rw [Script.ofBytes, hdecode]
      dsimp only
      rw [hvalidate]

theorem command_bounded {contents : String → Except FileError (List UInt8)} {c : Command}
    (h : (c.execute wording limits contents).exitCode ≠ 2) :
    ∃ task, c.task? contents = some task ∧ task.Within limits ∧
      task.AnsweredBy (c.execute wording limits contents) ∧ task.ContainedIn limits := by
  have htreats := Command.execute_treats wording limits contents c
  cases htask : c.task? contents with
  | none =>
      rw [htask] at htreats
      cases htreats with
      | undecoded hrejects => exact absurd hrejects.exitCode h
  | some task =>
      rw [htask] at htreats
      cases htreats with
      | refused _ hrejects => exact absurd hrejects.exitCode h
      | answered hadmitted hanswered =>
          exact ⟨task, rfl, hadmitted.within, hanswered, hadmitted.within.containedIn⟩

theorem command_over_rejected {contents : String → Except FileError (List UInt8)} {c : Command}
    {task : Task} (htask : c.task? contents = some task) (hover : ¬ task.Within limits) :
    (c.execute wording limits contents).Rejects := by
  have htreats := Command.execute_treats wording limits contents c
  rw [htask] at htreats
  cases htreats with
  | refused _ hrejects => exact hrejects
  | answered hadmitted _ => exact absurd hadmitted.within hover

/-- **Limits bound everything.** Whatever the settings of the two variables are, they give the
limits that they ask for or else the standard ones, and these limits are enforced: on each
script that is read from a text, and on each command. -/
theorem enforced_ofSettings (elements operations : Option (List UInt8)) :
    Governs elements 16777216 (ofSettings elements operations).elements ∧
      Governs operations 65536 (ofSettings elements operations).operations ∧
      (ofSettings elements operations).Enforced := by
  refine ⟨governs_getD elements _, governs_getD operations _, ?_⟩
  exact {
    script := by
      intro bytes path s hread
      have hwithin : s.Within _ := .of_validate (Script.ofBytes_eq_ok_iff.mp hread).2
      exact ⟨hwithin, hwithin.containedIn⟩
    script_over := fun bytes path s hdecode hover => script_over_rejected path hdecode hover
    command := fun wording contents c h => command_bounded h
    command_over := fun wording contents c task htask hover =>
      command_over_rejected htask hover }

set_option maxRecDepth 4096 in
/-- Under the settings ` 2` and `1`, a script that is as long as they allow is read, and a slice
is resolved against two elements, but not against three. -/
theorem enforced_ofSettings_two :
    ofSettings (some [0x20, 0x32]) (some [0x31]) = ⟨2, 1⟩ ∧
      (∃ s, Script.ofBytes Script.namedText "script.json" ⟨2, 1⟩ = .ok s ∧ s.Within ⟨2, 1⟩ ∧
        s.ContainedIn ⟨2, 1⟩) ∧
      (∃ task, Command.task? (fun _ => .error .notFound)
          (.normalize 2 ⟨none, none, some (-1)⟩ true) = some task ∧
        task.Within ⟨2, 1⟩ ∧ task.ContainedIn ⟨2, 1⟩) ∧
      (Command.execute .plain ⟨2, 1⟩ (fun _ => .error .notFound)
        (.normalize 3 ⟨none, none, none⟩ true)).Rejects := by
  have hsettings : ofSettings (some [0x20, 0x32]) (some [0x31]) = ⟨2, 1⟩ := by decide +kernel
  have henforced : Enforced ⟨2, 1⟩ := hsettings ▸ (enforced_ofSettings _ _).2.2
  have hread : Script.ofBytes Script.namedText "script.json" ⟨2, 1⟩ = .ok
      ⟨none, .int8, #[.int 0, .int 1],
        [.assign ⟨some (-1), none, none⟩ (.sequence #[.int 2, .bool true])]⟩ :=
    Script.ofBytes_eq_ok_iff.mpr ⟨Script.decodeScript_namedText, rfl⟩
  have hexit : (Command.execute .plain ⟨2, 1⟩ (fun _ => .error .notFound)
      (.normalize 2 ⟨none, none, some (-1)⟩ true)).exitCode ≠ 2 := by decide +kernel
  have hover : ¬ (Task.resolve 3 ⟨none, none, none⟩ true).Within ⟨2, 1⟩ :=
    Nat.not_le_of_lt (Nat.lt_succ_self 2)
  obtain ⟨task, htask, hwithin, -, hcontained⟩ := henforced.command _ _ _ hexit
  exact ⟨hsettings, ⟨_, hread, henforced.script _ _ _ hread⟩,
    ⟨task, htask, hwithin, hcontained⟩,
    henforced.command_over _ _ (.normalize 3 ⟨none, none, none⟩ true) _ rfl hover⟩

end Limits

end StridedSlice
