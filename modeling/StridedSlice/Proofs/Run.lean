import StridedSlice.Script.Run
import StridedSlice.Proofs.Buffer
import Mathlib.Data.List.Forall2
/-!
# StridedSlice.Proofs.Run

**What running a script gives.** The operations are carried out in order up to the first one
that fails (`Script.StopsAt`), and the outcome is all about the operations before it: the
buffer is the one they made, they are the ones counted as applied, and each load among them
left one record of what it read at its moment.

`Run.Sound` is the invariant of a run after some operations of a script. One step preserves
it (`Run.Sound.step`), so it holds after all of them (`Run.Sound.runTo`).
-/

namespace StridedSlice

/-! ### Attributes -/

theorem Attributes.get?_set (name : String) (value : Json) (attributes : Attributes) :
    (attributes.set name value).get? name = some value := by
  induction attributes with
  | nil => simp [set, get?]
  | cons m rest ih =>
      obtain ⟨k, v⟩ := m
      unfold get? at ih ⊢
      rw [set]
      split_ifs with hlt heq
      · simp
      · simp
      · have hne : (k == name) = false := beq_eq_false_iff_ne.mpr (Ne.symm heq)
        rw [List.find?_cons_of_neg (by simp [hne])]
        exact ih

/-! ### The operations of a script in order -/

namespace Script

/-- The buffer just before the operation at a position, if all earlier ones succeed. -/
def bufferBefore (s : Script) : Nat → Option Buffer
  | 0 => some (.ofScalars s.dtype s.data)
  | i + 1 => do
      let b ← s.bufferBefore i
      let o ← s.operations[i]?
      match b.apply o with
      | .ok (after, _) => some after
      | .error _ => none

/-- All operations before position `k` succeed and make the buffer `b`. The operation at
`k` fails, if there is one. -/
structure StopsAt (s : Script) (k : Nat) (b : Buffer) : Prop where
  before : s.bufferBefore k = some b
  fails : ∀ o, s.operations[k]? = some o → ∃ e, b.apply o = .error e

/-- The positions of the loads before position `k`, in order. -/
def loadsBefore (s : Script) (k : Nat) : List Nat :=
  (List.range k).filter fun i => s.operations[i]?.any Operation.isLoad

/-- What the record of the load at a position has to say. -/
def Records (s : Script) (i : Nat) (r : ReadRecord) : Prop :=
  r.op = i ∧ ∃ slice b, s.operations[i]? = some (.load slice) ∧ s.bufferBefore i = some b ∧
    b.Selects slice r.values

variable {s : Script}

theorem bufferBefore_succ {i : Nat} {b after : Buffer} {o : Operation}
    {values : Option (Array Scalar)} (hb : s.bufferBefore i = some b)
    (ho : s.operations[i]? = some o) (h : b.apply o = .ok (after, values)) :
    s.bufferBefore (i + 1) = some after := by
  simp [bufferBefore, hb, ho, h]

/-- A later operation is only reached through the one before. -/
theorem exists_of_bufferBefore_succ {i : Nat} {after : Buffer}
    (h : s.bufferBefore (i + 1) = some after) :
    ∃ b o values, s.bufferBefore i = some b ∧ s.operations[i]? = some o ∧
      b.apply o = .ok (after, values) := by
  rw [bufferBefore] at h
  obtain ⟨b, hb, h⟩ := Option.bind_eq_some_iff.mp h
  obtain ⟨o, ho, h⟩ := Option.bind_eq_some_iff.mp h
  cases happly : b.apply o with
  | error e => simp [happly] at h
  | ok result =>
      obtain ⟨after', values⟩ := result
      rw [happly] at h
      cases h
      exact ⟨b, o, values, hb, ho, happly⟩

/-- All operations keep the type and the length of the buffer. -/
theorem shape_of_bufferBefore {i : Nat} {b : Buffer} (h : s.bufferBefore i = some b) :
    b.dtype = s.dtype ∧ b.size = s.data.size := by
  induction i generalizing b with
  | zero =>
      cases h
      exact ⟨rfl, Array.size_map⟩
  | succ i ih =>
      obtain ⟨b', o, values, hb', -, happly⟩ := exists_of_bufferBefore_succ h
      obtain ⟨hdtype, hsize⟩ := Buffer.apply_shape happly
      exact ⟨hdtype.trans (ih hb').1, hsize.trans (ih hb').2⟩

/-- Only positions up to the number of operations are reached. -/
theorem le_of_bufferBefore {i : Nat} {b : Buffer} (h : s.bufferBefore i = some b) :
    i ≤ s.operations.length := by
  cases i with
  | zero => exact Nat.zero_le _
  | succ i =>
      obtain ⟨-, o, -, -, ho, -⟩ := exists_of_bufferBefore_succ h
      exact (List.getElem?_eq_some_iff.mp ho).1

/-- Every position before one that is reached is reached. -/
theorem exists_bufferBefore_of_le {i j : Nat} {b : Buffer} (h : s.bufferBefore j = some b)
    (hij : i ≤ j) : ∃ b', s.bufferBefore i = some b' := by
  -- Downwards from `j`, by the way in which each position is reached.
  induction hij generalizing b with
  | refl => exact ⟨b, h⟩
  | step _ ih =>
      obtain ⟨b', -, -, hb', -⟩ := exists_of_bufferBefore_succ h
      exact ih hb'

/-- No position after the one where the script stops is reached. -/
theorem StopsAt.le {k j : Nat} {b b' : Buffer} (h : s.StopsAt k b)
    (hj : s.bufferBefore j = some b') : j ≤ k := by
  by_contra hlt
  obtain ⟨after, hafter⟩ := exists_bufferBefore_of_le hj (Nat.lt_of_not_le hlt)
  obtain ⟨b₀, o, values, hb₀, ho, happly⟩ := exists_of_bufferBefore_succ hafter
  -- The operation at `k` would have to succeed.
  obtain ⟨e, he⟩ := h.fails o ho
  rw [h.before, Option.some.injEq] at hb₀
  rw [← hb₀, he] at happly
  cases happly

/-- A script stops at one position only. -/
theorem StopsAt.unique {k k' : Nat} {b b' : Buffer} (h : s.StopsAt k b) (h' : s.StopsAt k' b') :
    k = k' ∧ b = b' := by
  have hk : k = k' := Nat.le_antisymm (h'.le h.before) (h.le h'.before)
  subst hk
  exact ⟨rfl, Option.some.inj (h.before.symm.trans h'.before)⟩

theorem loadsBefore_succ {k : Nat} {o : Operation} (ho : s.operations[k]? = some o) :
    s.loadsBefore (k + 1) = s.loadsBefore k ++ if o.isLoad then [k] else [] := by
  rw [loadsBefore, List.range_succ, List.filter_append, ← loadsBefore]
  congr 1
  cases hload : o.isLoad <;> simp [ho, hload]

end Script

/-! ### The run after some operations -/

namespace Script

/-- The run after the first `j` operations. -/
def runTo (s : Script) (j : Nat) : Run :=
  (Run.start (.ofScalars s.dtype s.data)).steps (s.operations.take j)

variable {s : Script}

theorem runTo_succ {j : Nat} {o : Operation} (ho : s.operations[j]? = some o) :
    s.runTo (j + 1) = (s.runTo j).step o := by
  unfold runTo
  rw [List.take_add_one, ho, Option.toList_some, Run.steps_append]
  rfl

theorem runTo_length (s : Script) : s.runTo s.operations.length = s.execute := by
  rw [runTo, List.take_length, execute]

/-- What holds at the start and is kept by each step holds after any number of operations. -/
theorem runTo_induction {P : Nat → Run → Prop} (hstart : P 0 (s.runTo 0))
    (hstep : ∀ j o, s.operations[j]? = some o → P j (s.runTo j) → P (j + 1) ((s.runTo j).step o))
    {j : Nat} (hj : j ≤ s.operations.length) : P j (s.runTo j) := by
  induction j with
  | zero => exact hstart
  | succ j ih =>
      have ho : s.operations[j]? = some s.operations[j] := List.getElem?_eq_getElem hj
      rw [runTo_succ ho]
      exact hstep j _ ho (ih (Nat.le_of_succ_le hj))

end Script

/-! ### One step of a run -/

namespace Run

theorem step_of_failed {r : Run} (h : r.failure ≠ none) (o : Operation) : r.step o = r := by
  obtain ⟨d, hd⟩ := Option.ne_none_iff_exists'.mp h
  rw [step, hd]

/-- What a step does with an operation that succeeds. -/
theorem step_of_ok {r : Run} {o : Operation} {after : Buffer} {values : Option (Array Scalar)}
    (h : r.failure = none) (happly : r.buffer.apply o = .ok (after, values)) :
    ∃ events, r.step o =
      ⟨after, r.position + 1, r.applied + 1,
        r.reads ++ (values.map (ReadRecord.mk r.position)).toArray, none, events⟩ := by
  have hresult : (r.buffer.applyTraced o).result = .ok (after, values) := happly
  refine ⟨r.events ++ (r.buffer.applyTraced o).events, ?_⟩
  rw [step, h]
  dsimp only
  rw [hresult]
  cases values <;> simp

/-- What a step does with an operation that fails. -/
theorem step_of_error {r : Run} {o : Operation} {e : SliceError} (h : r.failure = none)
    (happly : r.buffer.apply o = .error e) :
    ∃ events, r.step o =
      { r with failure := some (o.diagnostic r.position e), events := events } := by
  have hresult : (r.buffer.applyTraced o).result = .error e := happly
  refine ⟨(r.events ++ (r.buffer.applyTraced o).events).push
    (.operationFailed r.position o.name e), ?_⟩
  rw [step, h]
  dsimp only
  rw [hresult]

/-! ### The invariant -/

/-- What holds after the first `j` operations of a script. -/
structure Sound (s : Script) (j : Nat) (r : Run) : Prop where
  /-- The two counters agree. -/
  position_eq : r.position = r.applied
  /-- The buffer is the one before the first operation that is not applied. -/
  before : s.bufferBefore r.applied = some r.buffer
  /-- Unless one failed, all operations are applied. -/
  running : r.failure = none → r.applied = j
  /-- The first operation that is not applied after a failure is the one that failed. -/
  failed : r.failure ≠ none →
    ∃ o e, s.operations[r.applied]? = some o ∧ r.buffer.apply o = .error e
  /-- There is one record for each load that is applied. -/
  reads : List.Forall₂ s.Records (s.loadsBefore r.applied) r.reads.toList

namespace Sound

variable {s : Script} {j : Nat} {r : Run}

theorem start (s : Script) : Sound s 0 (.start (.ofScalars s.dtype s.data)) where
  position_eq := rfl
  before := rfl
  running := fun _ => rfl
  failed := fun h => absurd rfl h
  reads := .nil

/-- The record of an operation that succeeds is the one that is asked for. -/
theorem records (h : r.Sound s j) {o : Operation} (ho : s.operations[r.applied]? = some o)
    {after : Buffer} {values : Option (Array Scalar)}
    (happly : r.buffer.apply o = .ok (after, values)) :
    List.Forall₂ s.Records (if o.isLoad then [r.applied] else [])
      (values.map (ReadRecord.mk r.position)).toList := by
  by_cases hload : o.isLoad = true
  · cases o with
    | load slice =>
        obtain ⟨-, vs, rfl, hselects⟩ := Buffer.apply_load_ok happly
        have hrecord : s.Records r.applied ⟨r.position, vs⟩ :=
          ⟨h.position_eq, slice, r.buffer, ho, h.before, hselects⟩
        exact .cons hrecord .nil
    | assign slice value => exact absurd hload (by simp [Operation.isLoad])
    | assignAt index value => exact absurd hload (by simp [Operation.isLoad])
  · rw [Bool.not_eq_true] at hload
    rw [hload, (Buffer.apply_store_ok hload happly).1]
    exact .nil

/-- **One step** keeps the invariant. -/
theorem step (h : r.Sound s j) {o : Operation} (ho : s.operations[j]? = some o) :
    (r.step o).Sound s (j + 1) := by
  by_cases hfailure : r.failure = none
  · have hj : r.applied = j := h.running hfailure
    rw [← hj] at ho
    -- What the operation does depends on nothing but the buffer before it.
    cases happly : r.buffer.apply o with
    | error e =>
        obtain ⟨events, hstep⟩ := step_of_error hfailure happly
        rw [hstep]
        exact {
          position_eq := h.position_eq
          before := h.before
          running := fun hnone => absurd hnone (by simp)
          failed := fun _ => ⟨o, e, ho, happly⟩
          reads := h.reads }
    | ok result =>
        obtain ⟨after, values⟩ := result
        obtain ⟨events, hstep⟩ := step_of_ok hfailure happly
        rw [hstep]
        exact {
          position_eq := congrArg (· + 1) h.position_eq
          before := Script.bufferBefore_succ h.before ho happly
          running := fun _ => congrArg (· + 1) hj
          failed := fun hsome => absurd rfl hsome
          reads := by
            rw [Script.loadsBefore_succ ho, Array.toList_append, Option.toList_toArray]
            exact List.rel_append h.reads (h.records ho happly) }
  · -- A run that has failed does not move, and has no more to show for it.
    rw [step_of_failed hfailure]
    exact {
      position_eq := h.position_eq
      before := h.before
      running := fun hnone => absurd hnone hfailure
      failed := h.failed
      reads := h.reads }

/-- **All steps** keep the invariant. -/
theorem runTo (s : Script) {j : Nat} (hj : j ≤ s.operations.length) : (s.runTo j).Sound s j :=
  Script.runTo_induction (start s) (fun _ _ ho h => h.step ho) hj

theorem execute (s : Script) : s.execute.Sound s s.operations.length := by
  rw [← s.runTo_length]
  exact runTo s le_rfl

/-- A run that is sound says where its script stops. -/
theorem stopsAt (h : r.Sound s s.operations.length) : s.StopsAt r.applied r.buffer where
  before := h.before
  fails := by
    intro o ho
    have hlt : r.applied < s.operations.length := (List.getElem?_eq_some_iff.mp ho).1
    have hfailure : r.failure ≠ none := fun hnone => absurd (h.running hnone) hlt.ne
    obtain ⟨o', e, ho', he⟩ := h.failed hfailure
    rw [ho, Option.some.injEq] at ho'
    exact ⟨e, ho' ▸ he⟩

/-- A run has failed exactly when an operation is left. -/
theorem failure_eq_none_iff (h : r.Sound s s.operations.length) :
    r.failure = none ↔ r.applied = s.operations.length := by
  refine ⟨h.running, fun heq => ?_⟩
  by_contra hfailure
  obtain ⟨o, e, ho, -⟩ := h.failed hfailure
  exact absurd (List.getElem?_eq_some_iff.mp ho).1 heq.not_lt

end Sound

/-! ### The report -/

/-- A report is positive exactly when no operation failed. -/
theorem ok_report (r : Run) : r.report.ok = true ↔ r.failure = none := by
  have hok : r.report.ok = (Report.empty.withDiagnostics r.failure.toList).ok := rfl
  rw [hok, Report.ok_withDiagnostics]
  simp only [Report.mem_withDiagnostics]
  cases r.failure with
  | none => simp
  | some d =>
      obtain ⟨_, severity, _, _, _, _⟩ := d
      cases severity
      simp

theorem ops_applied_report (r : Run) :
    r.report.info.get? "ops_applied" = some (.nat r.applied) :=
  Attributes.get?_set ..

theorem len_report (r : Run) : r.report.info.get? "len" = some (.nat r.buffer.size) := rfl

end Run

/-- **What running a script gives.** A script stops at one position `k`: at its first
operation that fails, or at its end. The outcome has the buffer that the operations before
`k` made, and the report and the reads are about exactly these operations. The operation at
`k` leaves no trace on the buffer, not even when it is carried out in place. -/
theorem Script.run_exact (s : Script) :
    (∃ k b, s.StopsAt k b) ∧
      ∀ k b, s.StopsAt k b →
        k ≤ s.operations.length ∧
        s.run.buffer = b ∧ b.dtype = s.dtype ∧ b.size = s.data.size ∧
        (s.run.report.ok = true ↔ k = s.operations.length) ∧
        s.run.report.info.get? "ops_applied" = some (.nat k) ∧
        List.Forall₂ s.Records (s.loadsBefore k) s.run.reads.toList ∧
        ∀ o, s.operations[k]? = some o → ∃ e, (Buffer.perform o).run b = .error (.refused e) b := by
  have hsound : s.execute.Sound s s.operations.length := Run.Sound.execute s
  refine ⟨⟨_, _, hsound.stopsAt⟩, fun k b hstops => ?_⟩
  obtain ⟨rfl, rfl⟩ := hstops.unique hsound.stopsAt
  obtain ⟨hdtype, hsize⟩ := shape_of_bufferBefore hsound.before
  refine ⟨le_of_bufferBefore hsound.before, rfl, hdtype, hsize, ?_,
    s.execute.ops_applied_report, hsound.reads, fun o ho => ?_⟩
  · exact s.execute.ok_report.trans hsound.failure_eq_none_iff
  · obtain ⟨e, he⟩ := hstops.fails o ho
    refine ⟨e, ?_⟩
    rw [Buffer.run_perform, he]
    rfl

end StridedSlice
