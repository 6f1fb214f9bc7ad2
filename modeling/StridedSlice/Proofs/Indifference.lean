import StridedSlice.Proofs.Diagnosis
/-!
# StridedSlice.Proofs.Indifference

**Runs do not look at the values they move.** Two scripts whose operations differ in the
scalars they store at most (`Operation.SameForm`), on buffers of one length but of any types
and contents, run in lockstep: they stop at the same operation with the same diagnostic, and
their loads read equally many values at the same places.

`Run.Alike` relates the two runs. One step on each side keeps it (`Run.Alike.step`), so all
steps do (`Run.Alike.steps`).
-/

namespace StridedSlice

/-! ### Operations that differ in scalars -/

namespace Operation

/-- Two operations that are equal but for the scalars they store. A scalar stands against a
scalar, and a sequence against one of the same length. -/
inductive SameForm : Operation → Operation → Prop
  | scalar {slice : Slice} {v w : Scalar} :
      SameForm (.assign slice (.scalar v)) (.assign slice (.scalar w))
  | sequence {slice : Slice} {vs ws : Array Scalar} :
      vs.size = ws.size → SameForm (.assign slice (.sequence vs)) (.assign slice (.sequence ws))
  | assignAt {index : Int64} {v w : Scalar} : SameForm (.assignAt index v) (.assignAt index w)
  | load {slice : Slice} : SameForm (.load slice) (.load slice)

namespace SameForm

variable {o o' : Operation}

theorem symm (h : o.SameForm o') : o'.SameForm o := by
  cases h with
  | scalar => exact .scalar
  | sequence hsize => exact .sequence hsize.symm
  | assignAt => exact .assignAt
  | load => exact .load

/-- Both fail in the same way on buffers of the same length. -/
theorem failsWith (h : o.SameForm o') {len : Nat} {e : SliceError} (hfails : o.FailsWith len e) :
    o'.FailsWith len e := by
  cases h with
  | scalar =>
      cases hfails with
      | assignZeroStep hstep => exact .assignZeroStep hstep
  | sequence hsize =>
      cases hfails with
      | assignZeroStep hstep => exact .assignZeroStep hstep
      | lengthMismatch hn hne =>
          rw [hsize] at hne ⊢
          exact .lengthMismatch hn hne
  | assignAt =>
      cases hfails with
      | outOfBounds hout => exact .outOfBounds hout
  | load => exact hfails

/-- A diagnostic tells them apart as little. -/
theorem diagnostic_eq (h : o.SameForm o') (op : Nat) (e : SliceError) :
    o.diagnostic op e = o'.diagnostic op e := by
  cases h <;> rfl

/-- When both succeed, they leave buffers of the same length and return as many values. -/
theorem sizes_eq (h : o.SameForm o') {b b' after after' : Buffer}
    {values values' : Option (Array Scalar)} (hsize : b.size = b'.size)
    (happly : b.apply o = .ok (after, values)) (happly' : b'.apply o' = .ok (after', values')) :
    after.size = after'.size ∧ values.map Array.size = values'.map Array.size := by
  constructor
  · rw [(Buffer.apply_shape happly).2, (Buffer.apply_shape happly').2, hsize]
  · cases h with
    | load =>
        obtain ⟨-, vs, rfl, hselects⟩ := Buffer.apply_load_ok happly
        obtain ⟨-, vs', rfl, hselects'⟩ := Buffer.apply_load_ok happly'
        obtain ⟨n, hn, hvs⟩ := hselects.exists_size_eq
        obtain ⟨n', hn', hvs'⟩ := hselects'.exists_size_eq
        rw [hsize, hn', Except.ok.injEq] at hn
        rw [Option.map_some, Option.map_some, hvs, hvs', hn]
    | _ => rw [(Buffer.apply_store_ok rfl happly).1, (Buffer.apply_store_ok rfl happly').1]

end SameForm

end Operation

/-! ### Runs in lockstep -/

/-- What a record says beside the values themselves. -/
def ReadRecord.form (r : ReadRecord) : Nat × Nat := (r.op, r.values.size)

/-- What the new record of a step says is decided by the number of values. -/
theorem ReadRecord.form_of_sizes {values values' : Option (Array Scalar)} {op : Nat}
    (h : values.map Array.size = values'.map Array.size) :
    (values.map (ReadRecord.mk op)).toArray.map ReadRecord.form =
      (values'.map (ReadRecord.mk op)).toArray.map ReadRecord.form := by
  have hform (vs : Option (Array Scalar)) :
      (vs.map (ReadRecord.mk op)).toArray.map ReadRecord.form =
        ((vs.map Array.size).map (Prod.mk op)).toArray := by
    cases vs <;> simp [form]
  rw [hform, hform, h]

namespace Run

/-- Two runs that differ in the types and the values of elements at most. -/
structure Alike (r t : Run) : Prop where
  size_eq : r.buffer.size = t.buffer.size
  position_eq : r.position = t.position
  applied_eq : r.applied = t.applied
  failure_eq : r.failure = t.failure
  reads_eq : r.reads.map ReadRecord.form = t.reads.map ReadRecord.form

namespace Alike

variable {r t : Run}

/-- **One step on each side** keeps two runs alike. -/
theorem step (h : r.Alike t) {o o' : Operation} (ho : o.SameForm o') :
    (r.step o).Alike (t.step o') := by
  by_cases hfailure : r.failure = none
  · have hfailure' : t.failure = none := h.failure_eq ▸ hfailure
    -- Whether an operation fails, and how, is decided by the length of the buffer.
    have hfails : ∀ e, r.buffer.apply o = .error e ↔ t.buffer.apply o' = .error e := by
      intro e
      rw [Buffer.apply_eq_error_iff, Buffer.apply_eq_error_iff, h.size_eq]
      exact ⟨ho.failsWith, ho.symm.failsWith⟩
    cases happly : r.buffer.apply o with
    | error e =>
        obtain ⟨_, hstep⟩ := step_of_error hfailure happly
        obtain ⟨_, hstep'⟩ := step_of_error hfailure' ((hfails e).mp happly)
        rw [hstep, hstep']
        exact {
          size_eq := h.size_eq
          position_eq := h.position_eq
          applied_eq := h.applied_eq
          failure_eq := by rw [ho.diagnostic_eq, h.position_eq]
          reads_eq := h.reads_eq }
    | ok result =>
        obtain ⟨after, values⟩ := result
        cases happly' : t.buffer.apply o' with
        | error e =>
            rw [(hfails e).mpr happly'] at happly
            cases happly
        | ok result' =>
            obtain ⟨after', values'⟩ := result'
            obtain ⟨_, hstep⟩ := step_of_ok hfailure happly
            obtain ⟨_, hstep'⟩ := step_of_ok hfailure' happly'
            obtain ⟨hsize, hvalues⟩ := ho.sizes_eq h.size_eq happly happly'
            rw [hstep, hstep']
            exact {
              size_eq := hsize
              position_eq := congrArg (· + 1) h.position_eq
              applied_eq := congrArg (· + 1) h.applied_eq
              failure_eq := rfl
              reads_eq := by
                rw [Array.map_append, Array.map_append, h.reads_eq, h.position_eq,
                  ReadRecord.form_of_sizes hvalues] }
  · have hfailure' : t.failure ≠ none := h.failure_eq ▸ hfailure
    rwa [step_of_failed hfailure, step_of_failed hfailure']

/-- **All steps on both sides** keep two runs alike. -/
theorem steps {os os' : List Operation} (hos : List.Forall₂ Operation.SameForm os os') :
    ∀ {r t : Run}, r.Alike t → (r.steps os).Alike (t.steps os') := by
  induction hos with
  | nil => exact id
  | cons ho _ ih => exact fun h => ih (h.step ho)

/-- Runs of two scripts are alike from the start if their buffers have one length. -/
theorem execute {s t : Script} (hdata : s.data.size = t.data.size)
    (hoperations : List.Forall₂ Operation.SameForm s.operations t.operations) :
    s.execute.Alike t.execute := by
  refine steps hoperations ?_
  exact {
    size_eq := by
      show (Buffer.ofScalars s.dtype s.data).size = (Buffer.ofScalars t.dtype t.data).size
      rw [Buffer.size_ofScalars, Buffer.size_ofScalars, hdata]
    position_eq := rfl
    applied_eq := rfl
    failure_eq := rfl
    reads_eq := rfl }

end Alike

end Run

namespace Script

/-- **Runs do not depend on values.** Two scripts with buffers of one length, and with
operations that differ in the scalars they store at most, have the same outcome but for the
elements themselves: they succeed or fail alike, with the same diagnostics after the same
number of operations, and their loads read as many values at the same operations. -/
theorem run_indifferent (s t : Script) (hdata : s.data.size = t.data.size)
    (hoperations : List.Forall₂ Operation.SameForm s.operations t.operations) :
    s.run.report.ok = t.run.report.ok ∧
      s.run.report.diagnostics = t.run.report.diagnostics ∧
      (∃ applied, s.run.report.info.get? "ops_applied" = some (.nat applied) ∧
        t.run.report.info.get? "ops_applied" = some (.nat applied)) ∧
      (∃ len, s.run.report.info.get? "len" = some (.nat len) ∧
        t.run.report.info.get? "len" = some (.nat len)) ∧
      List.Forall₂ (fun r r' => r.op = r'.op ∧ r.values.size = r'.values.size)
        s.run.reads.toList t.run.reads.toList := by
  have h : s.execute.Alike t.execute := Run.Alike.execute hdata hoperations
  have hdiagnostics : s.run.report.diagnostics = t.run.report.diagnostics :=
    calc s.run.report.diagnostics
        _ = s.execute.failure.toList := s.execute.diagnostics_report
        _ = t.execute.failure.toList := by rw [h.failure_eq]
        _ = t.run.report.diagnostics := t.execute.diagnostics_report.symm
  refine ⟨?_, hdiagnostics, ⟨s.execute.applied, ?_, ?_⟩, ⟨s.execute.buffer.size, ?_, ?_⟩, ?_⟩
  · have hok : s.execute.report.ok = true ↔ t.execute.report.ok = true := by
      rw [Run.ok_report, Run.ok_report, h.failure_eq]
    exact Bool.eq_iff_iff.mpr hok
  · exact s.execute.ops_applied_report
  · rw [h.applied_eq]
    exact t.execute.ops_applied_report
  · exact s.execute.len_report
  · rw [h.size_eq]
    exact t.execute.len_report
  · have hforms :
        s.run.reads.toList.map ReadRecord.form = t.run.reads.toList.map ReadRecord.form := by
      rw [← Array.toList_map, ← Array.toList_map]
      exact congrArg Array.toList h.reads_eq
    rw [← List.forall₂_eq_eq_eq, List.forall₂_map_left_iff, List.forall₂_map_right_iff] at hforms
    exact hforms.imp fun _ _ => Prod.mk.inj

/-- A script on three elements of a type that stores and loads `v` and `w`, and fails after
its first load. -/
def probe (dtype : DType) (v w : Scalar) : Script :=
  ⟨none, dtype, #[v, w, v],
    [.assign ⟨some 1, none, none⟩ (.sequence #[v, w]),
      .assign ⟨none, none, some (-2)⟩ (.scalar w),
      .assignAt (-2) v,
      .load ⟨none, none, some (-1)⟩,
      .assignAt 3 w,
      .load ⟨none, none, none⟩]⟩

theorem run_indifferent_probe :
    (probe .int8 (.int 300) (.bool true)).run.report.diagnostics =
        (probe .float64 (.int (-1)) (.int 7)).run.report.diagnostics ∧
      List.Forall₂ (fun r r' => r.op = r'.op ∧ r.values.size = r'.values.size)
        (probe .int8 (.int 300) (.bool true)).run.reads.toList
        (probe .float64 (.int (-1)) (.int 7)).run.reads.toList := by
  have hoperations (dtype dtype' : DType) (v w v' w' : Scalar) :
      List.Forall₂ Operation.SameForm (probe dtype v w).operations
        (probe dtype' v' w').operations :=
    .cons (.sequence rfl) (.cons .scalar (.cons .assignAt (.cons .load (.cons .assignAt
      (.cons .load .nil)))))
  obtain ⟨-, hdiagnostics, -, -, hreads⟩ :=
    run_indifferent (probe .int8 (.int 300) (.bool true)) (probe .float64 (.int (-1)) (.int 7)) rfl
      (hoperations ..)
  exact ⟨hdiagnostics, hreads⟩

end Script

end StridedSlice
