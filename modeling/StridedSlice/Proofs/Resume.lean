import StridedSlice.Proofs.Diagnosis
import StridedSlice.Proofs.Rounding
import StridedSlice.Proofs.Word
/-!
# StridedSlice.Proofs.Resume

**Runs can be cut and resumed.** A script may be stopped after some operations, its buffer
written down as scalars, and the other operations be carried out by a second script that
starts from these scalars. This loses nothing: the second script goes on where the first one
stopped, and only counts its operations from zero again.

Two things make it true. Scalars hold every element exactly (`ElementType.ofScalar_toScalar`),
with the exception of numbers of 32 bits that are no numbers. And a run looks at nothing but
its buffer, so a run that is resumed and one that goes on take the same steps
(`Run.Continues`).
-/

namespace StridedSlice

/-! ### Elements as scalars -/

namespace IntType

/-- An integer type with a sign has at most the range of a signed word. -/
theorem fitsWord_toInt {t : IntType} (h : t.isSigned = true) (v : t.Value) :
    FitsWord (t.toInt v) := by
  have hpow : (2 : Int) ^ (t.bits - 1) ≤ 2 ^ 63 :=
    pow_le_pow_right₀ (by decide) (by cases t <;> decide)
  have hlow : -2 ^ (t.bits - 1) ≤ BitVec.toInt v := BitVec.le_toInt v
  have hhigh : BitVec.toInt v < 2 ^ (t.bits - 1) := BitVec.toInt_lt
  rw [toInt, if_pos h]
  exact ⟨by linarith, by linarith⟩

theorem toNat_lt {t : IntType} (v : t.Value) : BitVec.toNat v < 2 ^ 64 :=
  (BitVec.isLt v).trans_le (Nat.pow_le_pow_right Nat.zero_lt_two (by cases t <;> decide))

theorem ofInt_toInt (t : IntType) (v : t.Value) : t.ofInt (t.toInt v) = v := by
  unfold ofInt toInt
  split
  · exact BitVec.ofInt_toInt
  · simp

end IntType

namespace ElementType

/-- A number of 32 bits that is no number. -/
def isNaN32 : (t : ElementType) → t.Value → Bool
  | .float32, x => x.isNaN
  | .bool, _ | .int _, _ | .float64, _ | .scalar, _ => false

/-- **Scalars are exact**: an element that becomes a scalar can be read back from it. -/
theorem ofScalar_toScalar {t : ElementType} {v : t.Value} (h : t.isNaN32 v = false) :
    t.ofScalar (t.toScalar v) = v := by
  cases t with
  | bool => rfl
  | int t =>
      simp only [toScalar]
      cases hsigned : t.isSigned with
      | true =>
          have hword := toInt_ofInt_of_fits (IntType.fitsWord_toInt hsigned v)
          show t.ofInt (Int64.ofInt (t.toInt v)).toInt = v
          rw [hword, t.ofInt_toInt]
      | false =>
          have hnat : (UInt64.ofNat (BitVec.toNat v)).toNat = BitVec.toNat v :=
            UInt64.toNat_ofNat_of_lt' (IntType.toNat_lt v)
          have hint : t.toInt v = (BitVec.toNat v : Int) := by
            rw [IntType.toInt, hsigned]
            rfl
          show t.ofInt ((UInt64.ofNat (BitVec.toNat v)).toNat : Int) = v
          rw [hnat, ← hint, t.ofInt_toInt]
  | float32 =>
      exact Binary.convert_convert (by decide) (by decide) BinaryFormat.extends_binary32 h
  | float64 => rfl
  | scalar => rfl

end ElementType

/-- Whether an element of a buffer is a number of 32 bits that is no number. -/
def Buffer.hasNaN32 (b : Buffer) : Bool := b.data.any b.dtype.elementType.isNaN32

/-- A buffer is made again from its scalars. -/
theorem Buffer.ofScalars_scalars {b : Buffer} (h : b.hasNaN32 = false) :
    ofScalars b.dtype b.scalars = b := by
  obtain ⟨dtype, data⟩ := b
  have hexact : ∀ v ∈ data, dtype.elementType.ofScalar (dtype.elementType.toScalar v) = v := by
    intro v hv
    exact ElementType.ofScalar_toScalar (Bool.eq_false_iff.mpr (Array.any_eq_false'.mp h v hv))
  have hdata : (data.map dtype.elementType.toScalar).map dtype.elementType.ofScalar = data := by
    rw [Array.map_map]
    exact (Array.map_congr_left hexact).trans (Array.map_id data)
  rw [ofScalars, scalars, hdata]

/-! ### A run that goes on and one that starts again -/

/-- The record of an operation that has `n` operations more before it. -/
def ReadRecord.later (n : Nat) (r : ReadRecord) : ReadRecord := { r with op := n + r.op }

theorem ReadRecord.map_mk_add (values : Option (Array Scalar)) (n op : Nat) :
    (values.map (mk (n + op))).toArray = (values.map (mk op)).toArray.map (later n) := by
  cases values <;> simp [later]

/-- The diagnostic of an operation that has `n` operations more before it. -/
def Diagnostic.later (n : Nat) (d : Diagnostic) : Diagnostic := { d with op := d.op.map (n + ·) }

/-- A later operation fails with the same diagnostic but for its position. -/
theorem Operation.diagnostic_add (o : Operation) (n op : Nat) (e : SliceError) :
    o.diagnostic (n + op) e = (o.diagnostic op e).later n := by
  cases o <;> rfl

namespace Run

/-- The run `r` has gone through `n` operations and then through what `t` went through from a
new start. Before that, `r` had made the records `reads`. -/
structure Continues (n : Nat) (reads : Array ReadRecord) (t r : Run) : Prop where
  buffer_eq : r.buffer = t.buffer
  position_eq : r.position = n + t.position
  applied_eq : r.applied = n + t.applied
  reads_eq : r.reads = reads ++ t.reads.map (ReadRecord.later n)
  failure_eq : r.failure = t.failure.map (Diagnostic.later n)

namespace Continues

variable {n : Nat} {reads : Array ReadRecord} {t r : Run}

/-- **One step on each side**: both take it in the same way. -/
theorem step (h : Continues n reads t r) (o : Operation) :
    Continues n reads (t.step o) (r.step o) := by
  by_cases hfailure : t.failure = none
  · have hfailure' : r.failure = none := by rw [h.failure_eq, hfailure, Option.map_none]
    cases happly : t.buffer.apply o with
    | error e =>
        obtain ⟨_, hstep⟩ := step_of_error hfailure happly
        obtain ⟨_, hstep'⟩ := step_of_error hfailure' (h.buffer_eq ▸ happly)
        rw [hstep, hstep']
        exact { h with
          failure_eq := by rw [h.position_eq, o.diagnostic_add, Option.map_some] }
    | ok result =>
        obtain ⟨after, values⟩ := result
        obtain ⟨_, hstep⟩ := step_of_ok hfailure happly
        obtain ⟨_, hstep'⟩ := step_of_ok hfailure' (h.buffer_eq ▸ happly)
        rw [hstep, hstep']
        exact {
          buffer_eq := rfl
          position_eq := by rw [h.position_eq, Nat.add_assoc]
          applied_eq := by rw [h.applied_eq, Nat.add_assoc]
          reads_eq := by
            rw [h.reads_eq, h.position_eq, ReadRecord.map_mk_add, Array.map_append,
              Array.append_assoc]
          failure_eq := rfl }
  · have hfailure' : r.failure ≠ none := by
      rw [h.failure_eq]
      exact mt Option.map_eq_none_iff.mp hfailure
    rwa [step_of_failed hfailure, step_of_failed hfailure']

/-- **All steps on both sides**. -/
theorem steps (operations : List Operation) :
    ∀ {t r : Run}, Continues n reads t r →
      Continues n reads (t.steps operations) (r.steps operations) := by
  induction operations with
  | nil => exact id
  | cons o rest ih => exact fun h => ih (h.step o)

/-- A run that has not failed is continued by a start on its buffer. -/
theorem restart {r : Run} (hposition : r.position = n) (happlied : r.applied = n)
    (hfailure : r.failure = none) : Continues n r.reads (start r.buffer) r where
  buffer_eq := rfl
  position_eq := hposition
  applied_eq := happlied
  reads_eq := by simp [start]
  failure_eq := hfailure

end Continues

end Run

/-! ### Cutting a script -/

namespace Script

/-- The script that does more. -/
def andThen (s : Script) (rest : List Operation) : Script :=
  { s with operations := s.operations ++ rest }

/-- The script that does the rest on what a run of `s` leaves, written down as scalars. -/
def resume (s : Script) (rest : List Operation) : Script :=
  { s with data := s.run.buffer.scalars, operations := rest }

variable {s : Script} {b : Buffer}

/-- **A run that is resumed** goes through what a run that goes on goes through. -/
theorem continues_execute (hb : s.bufferBefore s.operations.length = some b)
    (hnan : b.hasNaN32 = false) (rest : List Operation) :
    Run.Continues s.operations.length s.run.reads (s.resume rest).execute
      (s.andThen rest).execute := by
  have hsound : s.execute.Sound s s.operations.length := Run.Sound.execute s
  have hstops : s.StopsAt s.operations.length b := ⟨hb, fun o ho => by simp at ho⟩
  obtain ⟨happlied, hbuffer⟩ := hsound.stopsAt.unique hstops
  have hdtype : s.execute.buffer.dtype = s.dtype := (shape_of_bufferBefore hsound.before).1
  have hstart : Buffer.ofScalars s.dtype s.run.buffer.scalars = s.execute.buffer := by
    rw [← hdtype]
    exact Buffer.ofScalars_scalars (hbuffer ▸ hnan)
  have hwhole : (s.andThen rest).execute = s.execute.steps rest := Run.steps_append ..
  have hresumed : (s.resume rest).execute = (Run.start s.execute.buffer).steps rest := by
    rw [← hstart]
    rfl
  rw [hwhole, hresumed]
  exact .steps rest (.restart (hsound.position_eq.trans happlied) happlied
    (hsound.failure_eq_none_iff.mpr happlied))

/-- **Runs can be cut and resumed.** If all operations of a script succeed, and no element of
the buffer `b` that they make is a number of 32 bits that is no number, then to do more at once
is the same as to do the rest with a second script, whose data are the scalars of that buffer:
the buffers are equal, and so is what the reports say, but for the positions of operations and
for the number of those applied, which do not count the first script. -/
theorem run_andThen (hb : s.bufferBefore s.operations.length = some b) (hnan : b.hasNaN32 = false)
    (rest : List Operation) :
    (s.andThen rest).run.buffer = (s.resume rest).run.buffer ∧
      (s.andThen rest).run.report.ok = (s.resume rest).run.report.ok ∧
      (∃ applied, (s.resume rest).run.report.info.get? "ops_applied" = some (.nat applied) ∧
        (s.andThen rest).run.report.info.get? "ops_applied" =
          some (.nat (s.operations.length + applied))) ∧
      (s.andThen rest).run.reads =
        s.run.reads ++ (s.resume rest).run.reads.map (.later s.operations.length) ∧
      (s.andThen rest).run.report.diagnostics =
        (s.resume rest).run.report.diagnostics.map (.later s.operations.length) := by
  have h := continues_execute hb hnan rest
  refine ⟨h.buffer_eq, ?_, ⟨(s.resume rest).execute.applied, ?_, ?_⟩, h.reads_eq, ?_⟩
  · have hok : (s.andThen rest).execute.report.ok = true ↔
        (s.resume rest).execute.report.ok = true := by
      rw [Run.ok_report, Run.ok_report, h.failure_eq, Option.map_eq_none_iff]
    exact Bool.eq_iff_iff.mpr hok
  · exact (s.resume rest).execute.ops_applied_report
  · rw [← h.applied_eq]
    exact (s.andThen rest).execute.ops_applied_report
  · calc (s.andThen rest).run.report.diagnostics
        _ = (s.andThen rest).execute.failure.toList := Run.diagnostics_report _
        _ = (s.resume rest).execute.failure.toList.map (.later s.operations.length) := by
          rw [h.failure_eq]
          cases (s.resume rest).execute.failure <;> rfl
        _ = (s.resume rest).run.report.diagnostics.map (.later s.operations.length) := by
          rw [← Run.diagnostics_report]
          rfl

/-- A script that stores a half and minus zero as numbers of 32 bits. -/
def halves : Script :=
  ⟨none, .float32, #[.int 1, .bool true, .int (-3)],
    [.assignAt 1 (.float ⟨0x3fe0000000000000⟩),
      .assign ⟨none, none, some 2⟩ (.sequence #[.float ⟨0x8000000000000000⟩, .uint 7])]⟩

theorem run_andThen_halves :
    ∃ b, halves.bufferBefore halves.operations.length = some b ∧ b.hasNaN32 = false ∧
      (halves.andThen [.load ⟨none, none, some (-1)⟩, .assignAt 3 (.int 0)]).run.buffer =
        (halves.resume [.load ⟨none, none, some (-1)⟩, .assignAt 3 (.int 0)]).run.buffer := by
  have hsound : halves.execute.Sound halves 2 := Run.Sound.execute halves
  have happlied : halves.execute.applied = 2 := by decide +kernel
  have hb : halves.bufferBefore halves.operations.length = some halves.execute.buffer := by
    rw [← hsound.before, happlied]
    rfl
  have hnan : halves.execute.buffer.hasNaN32 = false := by decide +kernel
  exact ⟨_, hb, hnan, (run_andThen hb hnan _).1⟩

end Script

end StridedSlice
