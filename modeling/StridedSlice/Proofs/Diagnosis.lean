import StridedSlice.Proofs.LastWrite
/-!
# StridedSlice.Proofs.Diagnosis

**What a report says about the operation that failed.** An operation can fail in four ways
only (`Operation.FailsWith`), and each of them is decided by the operation and the length of
the buffer. The report on a failed run has one diagnostic, which is that of the operation
where the run stopped and of the way in which it failed (`Operation.DiagnosedAs`).

`Run.Diagnosed` is the invariant: one step keeps it (`Run.Diagnosed.step`), so it holds of
every run.
-/

namespace StridedSlice

/-- What fails in a mapped computation fails in the computation itself. -/
theorem map_eq_error_iff {ε α β : Type} {x : Except ε α} {f : α → β} {e : ε} :
    x.map f = .error e ↔ x = .error e := by
  cases x <;> simp [Except.map]

/-! ### Why operations fail -/

namespace Operation

/-- The ways in which an operation fails on a buffer of `len` elements. A load and a store of
one scalar have no other way than a step of zero. -/
inductive FailsWith (len : Nat) : Operation → SliceError → Prop
  /-- A store through a slice whose step is zero. -/
  | assignZeroStep {slice : Slice} {value : Source Scalar} :
      slice.step = some 0 → FailsWith len (.assign slice value) .zeroStep
  /-- A load through a slice whose step is zero. -/
  | loadZeroStep {slice : Slice} :
      slice.step = some 0 → FailsWith len (.load slice) .zeroStep
  /-- A sequence that has not one value for each selected position. -/
  | lengthMismatch {slice : Slice} {vs : Array Scalar} {n : Selection} :
      slice.resolve len = .ok n → vs.size ≠ n.count →
        FailsWith len (.assign slice (.sequence vs)) (.lengthMismatch n.count vs.size)
  /-- An index that stands for no position, counted from either end. -/
  | outOfBounds {index : Int64} {value : Scalar} :
      ¬ (-(len : Int) ≤ index.toInt ∧ index.toInt < len) →
        FailsWith len (.assignAt index value) (.indexOutOfBounds index len)

end Operation

namespace Store

/-- An assignment fails for its slice, or else for the length of its sequence. -/
theorem assign_eq_error_iff {σ α : Type} {convert : σ → α} {a : Array α} {s : Slice}
    {source : Source σ} {e : SliceError} :
    assign convert a s source = .error e ↔
      s.step = some 0 ∧ e = .zeroStep ∨
        ∃ n len, s.resolve a.size = .ok n ∧ source.length? = some len ∧ len ≠ n.count ∧
          e = .lengthMismatch n.count len := by
  cases hresolve : s.resolve a.size with
  | error e' =>
      obtain ⟨hstep, rfl⟩ := Slice.resolve_eq_error_iff.mp hresolve
      simp [assign_of_error convert hresolve, hstep, eq_comm]
  | ok n =>
      have hstep : s.step ≠ some 0 := Slice.step_ne_zero_of_resolve hresolve
      by_cases hfit : source.Fits n.count
      · rw [assign_of_fits convert hresolve hfit]
        refine iff_of_false nofun ?_
        rintro (⟨h0, -⟩ | ⟨n', len, hn, hlen, hne, -⟩)
        · exact hstep h0
        · cases hn
          exact hne (hfit len hlen)
      · obtain ⟨len, hlen, hne⟩ := Source.not_fits_iff.mp hfit
        simp [assign_of_length_ne convert hresolve hlen hne, hstep, hlen, hne, eq_comm]

end Store

namespace Buffer

variable {b : Buffer}

theorem assign_eq_error_iff {slice : Slice} {value : Source Scalar} {e : SliceError} :
    b.apply (.assign slice value) = .error e ↔
      (Operation.assign slice value).FailsWith b.size e := by
  rw [apply_assign, map_eq_error_iff, Store.assign_eq_error_iff]
  constructor
  · rintro (⟨hstep, rfl⟩ | ⟨n, len, hn, hlen, hne, rfl⟩)
    · exact .assignZeroStep hstep
    · cases value with
      | scalar v => cases hlen
      | sequence vs =>
          cases hlen
          exact .lengthMismatch hn hne
  · intro h
    cases h with
    | assignZeroStep hstep => exact .inl ⟨hstep, rfl⟩
    | lengthMismatch hn hne => exact .inr ⟨_, _, hn, rfl, hne, rfl⟩

theorem assignAt_eq_error_iff {index : Int64} {value : Scalar} {e : SliceError} :
    b.apply (.assignAt index value) = .error e ↔
      (Operation.assignAt index value).FailsWith b.size e := by
  rw [apply_assignAt, map_eq_error_iff, Store.assignAt_eq, size]
  cases hindex : Store.indexPosition? index b.data.size with
  | none =>
      have hout := Store.indexPosition?_eq_none_iff.mp hindex
      rw [Except.error.injEq]
      constructor
      · rintro rfl
        exact .outOfBounds hout
      · intro h
        cases h
        rfl
  | some p =>
      refine iff_of_false (by simp) fun h => ?_
      cases h with
      | outOfBounds hout =>
          rw [Store.indexPosition?_eq_none_iff.mpr hout] at hindex
          cases hindex

theorem load_eq_error_iff {slice : Slice} {e : SliceError} :
    b.apply (.load slice) = .error e ↔ (Operation.load slice).FailsWith b.size e := by
  rw [apply_load, map_eq_error_iff, Slice.resolve_eq_error_iff]
  constructor
  · rintro ⟨hstep, rfl⟩
    exact .loadZeroStep hstep
  · intro h
    cases h with
    | loadZeroStep hstep => exact ⟨hstep, rfl⟩

/-- **Why an operation fails** is decided by the operation and the length of the buffer. -/
theorem apply_eq_error_iff {o : Operation} {e : SliceError} :
    b.apply o = .error e ↔ o.FailsWith b.size e := by
  cases o with
  | assign slice value => exact assign_eq_error_iff
  | assignAt index value => exact assignAt_eq_error_iff
  | load slice => exact load_eq_error_iff

end Buffer

/-! ### Diagnostics -/

namespace Operation

/-- The diagnostic for each way in which the operation at position `op` fails on a buffer of
`len` elements: code, stage, message and all further values. -/
inductive DiagnosedAs (len op : Nat) : Operation → Diagnostic → Prop
  | assignZeroStep {slice : Slice} {value : Source Scalar} :
      slice.step = some 0 →
        DiagnosedAs len op (.assign slice value)
          { code := "NSLICE-SLICE-0001", severity := .error, stage := .normalize,
            message := SliceError.zeroStep.message, op := some op,
            data := [("kind", .text "setitem"), ("slice", .text slice.text)] }
  | loadZeroStep {slice : Slice} :
      slice.step = some 0 →
        DiagnosedAs len op (.load slice)
          { code := "NSLICE-SLICE-0001", severity := .error, stage := .normalize,
            message := SliceError.zeroStep.message, op := some op,
            data := [("kind", .text "getitem"), ("slice", .text slice.text)] }
  | lengthMismatch {slice : Slice} {vs : Array Scalar} {n : Selection} :
      slice.step ≠ some 0 → slice.resolve len = .ok n → vs.size ≠ n.count →
        DiagnosedAs len op (.assign slice (.sequence vs))
          { code := "NSLICE-SLICE-0002", severity := .error, stage := .store,
            message := (SliceError.lengthMismatch n.count vs.size).message, op := some op,
            data := [("count", .nat n.count), ("kind", .text "setitem"), ("len", .nat vs.size),
              ("slice", .text slice.text)] }
  | outOfBounds {index : Int64} {value : Scalar} :
      ¬ (-(len : Int) ≤ index.toInt ∧ index.toInt < len) →
        DiagnosedAs len op (.assignAt index value)
          { code := "NSLICE-SLICE-0003", severity := .error, stage := .store,
            message := (SliceError.indexOutOfBounds index len).message, op := some op,
            data := [("index", .int index.toInt), ("kind", .text "store"), ("len", .nat len)] }

variable {len op : Nat} {o : Operation}

theorem FailsWith.diagnosedAs {e : SliceError} (h : o.FailsWith len e) (op : Nat) :
    o.DiagnosedAs len op (o.diagnostic op e) := by
  cases h with
  | assignZeroStep hstep => exact .assignZeroStep hstep
  | loadZeroStep hstep => exact .loadZeroStep hstep
  | lengthMismatch hn hne => exact .lengthMismatch (Slice.step_ne_zero_of_resolve hn) hn hne
  | outOfBounds hout => exact .outOfBounds hout

theorem DiagnosedAs.op_eq {d : Diagnostic} (h : o.DiagnosedAs len op d) : d.op = some op := by
  cases h <;> rfl

/-- Whatever an operation does, it does not fail while it loads. -/
theorem DiagnosedAs.stage_ne_load {d : Diagnostic} (h : o.DiagnosedAs len op d) :
    d.stage ≠ .load := by
  cases h <;> nofun

end Operation

/-! ### The diagnostic of a run -/

namespace Run

/-- A failed run has the diagnostic of the first operation that is not applied. -/
def Diagnosed (s : Script) (r : Run) : Prop :=
  ∀ d, r.failure = some d → ∃ o, s.operations[r.applied]? = some o ∧
    o.DiagnosedAs r.buffer.size r.applied d

namespace Diagnosed

variable {s : Script} {j : Nat} {r : Run}

/-- **One step** gives the diagnostic of the operation that it fails with. -/
theorem step (h : r.Diagnosed s) (hsound : r.Sound s j) {o : Operation}
    (ho : s.operations[j]? = some o) : (r.step o).Diagnosed s := by
  by_cases hfailure : r.failure = none
  · cases happly : r.buffer.apply o with
    | error e =>
        obtain ⟨events, hstep⟩ := step_of_error hfailure happly
        rw [hstep]
        intro d hd
        cases hd
        rw [← hsound.running hfailure] at ho
        refine ⟨o, ho, ?_⟩
        rw [hsound.position_eq]
        exact (Buffer.apply_eq_error_iff.mp happly).diagnosedAs _
    | ok result =>
        obtain ⟨after, values⟩ := result
        obtain ⟨events, hstep⟩ := step_of_ok hfailure happly
        rw [hstep]
        nofun
  · rwa [step_of_failed hfailure]

/-- **All steps** keep the diagnostic. -/
theorem runTo (s : Script) {j : Nat} (hj : j ≤ s.operations.length) :
    (s.runTo j).Diagnosed s := by
  refine Script.runTo_induction (P := fun _ r => r.Diagnosed s) nofun (fun j o ho h => ?_) hj
  have hlt : j < s.operations.length := (List.getElem?_eq_some_iff.mp ho).1
  exact h.step (Sound.runTo s hlt.le) ho

theorem execute (s : Script) : s.execute.Diagnosed s := by
  rw [← s.runTo_length]
  exact runTo s le_rfl

end Diagnosed

/-- A report lists the failure, if there is one, and nothing else. -/
theorem diagnostics_report (r : Run) : r.report.diagnostics = r.failure.toList := by
  change r.failure.toList.mergeSort Diagnostic.le = _
  cases r.failure with
  | none => exact List.mergeSort_nil
  | some d => exact List.mergeSort_singleton d

end Run

namespace Script

/-- **What a report says about a failure.** A run that fails stops at one operation; its report
has one diagnostic, which carries the position of that operation, also the number of those
applied, and describes the way in which it failed. No report of a run has a diagnostic from
the stage of loading, and no operation fails in another way than those described. -/
theorem failure_diagnosed (s : Script) :
    (s.run.report.ok = false →
      ∃ k b o d, s.StopsAt k b ∧ s.operations[k]? = some o ∧
        s.run.report.info.get? "ops_applied" = some (.nat k) ∧
        s.run.report.diagnostics = [d] ∧ d.op = some k ∧ o.DiagnosedAs s.data.size k d) ∧
    (∀ d ∈ s.run.report.diagnostics, d.stage ≠ .load) ∧
    ∀ (b : Buffer) (o : Operation) (e : SliceError),
      b.apply o = .error e ↔ o.FailsWith b.size e := by
  have hsound : s.execute.Sound s s.operations.length := Run.Sound.execute s
  have hdiagnosed : s.execute.Diagnosed s := Run.Diagnosed.execute s
  have hlist : s.run.report.diagnostics = s.execute.failure.toList := Run.diagnostics_report _
  refine ⟨fun hfailed => ?_, fun d hd => ?_, fun b o e => Buffer.apply_eq_error_iff⟩
  · have hfailure : s.execute.failure ≠ none := by
      intro hnone
      have hok : s.run.report.ok = true := s.execute.ok_report.mpr hnone
      rw [hfailed] at hok
      cases hok
    obtain ⟨d, hd⟩ := Option.ne_none_iff_exists'.mp hfailure
    obtain ⟨o, ho, hdiag⟩ := hdiagnosed d hd
    rw [(shape_of_bufferBefore hsound.before).2] at hdiag
    refine ⟨_, _, o, d, hsound.stopsAt, ho, s.execute.ops_applied_report, ?_, hdiag.op_eq, hdiag⟩
    rw [hlist, hd, Option.toList_some]
  · rw [hlist, Option.mem_toList] at hd
    obtain ⟨o, -, hdiag⟩ := hdiagnosed d hd
    exact hdiag.stage_ne_load

/-- A script whose second operation has a value too many. -/
def tooLong : Script :=
  ⟨none, .uint8, #[.int 0, .int 0, .int 0],
    [.load ⟨none, none, some (-1)⟩,
      .assign ⟨some (-1), none, some (-2)⟩ (.sequence #[.int 7, .int 8, .int 9]),
      .assignAt 0 (.int 1)]⟩

theorem failure_diagnosed_tooLong :
    tooLong.run.report.ok = false ∧
      ∃ k b o d, tooLong.StopsAt k b ∧ tooLong.operations[k]? = some o ∧
        tooLong.run.report.info.get? "ops_applied" = some (.nat k) ∧
        tooLong.run.report.diagnostics = [d] ∧ d.op = some k ∧
        o.DiagnosedAs tooLong.data.size k d := by
  have hfailure : tooLong.execute.failure ≠ none :=
    Option.isSome_iff_ne_none.mp (by decide +kernel)
  have hfailed : tooLong.run.report.ok = false :=
    Bool.eq_false_iff.mpr (mt tooLong.execute.ok_report.mp hfailure)
  exact ⟨hfailed, tooLong.failure_diagnosed.1 hfailed⟩

end Script

end StridedSlice
