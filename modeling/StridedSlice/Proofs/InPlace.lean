import StridedSlice.Element
import StridedSlice.InPlace
import StridedSlice.Proofs.Checked
import StridedSlice.Proofs.Store
/-!
# StridedSlice.Proofs.InPlace

**Stores in place end well.** What a store on the caller's memory can do is said once, by
what it makes of the array as a whole (`outcome`): it ends with the array that
`Store.assign` or `Store.assignAt` gives, or with a refusal before the first write. No check
of the machine ever fails.

* `run_putEach`: writes inside the array all succeed;
* `run_targets`: a resolved selection passes the check of its range;
* `run_assign`, `run_assignAt`: the two kinds of store.

At the end stands what an assignment to a slice makes of every element.
-/

namespace StridedSlice.InPlace

variable {σ α β γ : Type}

/-- How a computation ends that does what an operation on the whole array does: it leaves
the new array, or the old one with the refusal. -/
def outcome (a : Array α) : Except SliceError (Array α) → EStateM.Result Stop (Array α) Unit
  | .ok written => .ok () written
  | .error e => .error (.refused e) a

/-! ### Running computations -/

/-- A computation that gave a value hands it on. -/
theorem run_bind_ok {x : InPlace α β} {f : β → InPlace α γ} {a b : Array α} {v : β}
    (h : x.run a = .ok v b) : (x >>= f).run a = (f v).run b := by
  show EStateM.bind x f a = f v b
  rw [EStateM.bind, show x a = .ok v b from h]

/-- A computation that ended early ends what comes after it. -/
theorem run_bind_error {x : InPlace α β} {f : β → InPlace α γ} {a b : Array α} {stop : Stop}
    (h : x.run a = .error stop b) : (x >>= f).run a = .error stop b := by
  show EStateM.bind x f a = .error stop b
  rw [EStateM.bind, show x a = .error stop b from h]

theorem run_lift_ok (v : β) (a : Array α) : (lift (.ok v) : InPlace α β).run a = .ok v a := rfl

theorem run_lift_error (stop : Stop) (a : Array α) :
    (lift (.error stop) : InPlace α β).run a = .error stop a := rfl

theorem run_size (a : Array α) : (size : InPlace α Nat).run a = .ok a.size a := rfl

/-- Inside the array, writing one element succeeds. -/
theorem run_put {p : Nat} {a : Array α} (h : p < a.size) (v : α) :
    (put p v).run a = .ok () (a.setIfInBounds p v) := by
  show put p v a = _
  rw [put, dif_pos h, Array.setIfInBounds, dif_pos h]

theorem run_checkRange {first last : Nat} {a : Array α} (h : first ≤ last ∧ last ≤ a.size) :
    (checkRange first last).run a = .ok () a := by
  show checkRange first last a = _
  rw [checkRange, if_pos h]

/-- Writes inside the array all succeed. -/
theorem run_putEach {writes : List (Nat × α)} {a : Array α}
    (h : ∀ p ∈ writes.map Prod.fst, p < a.size) :
    (putEach writes).run a = .ok () (Store.writeAll a writes) := by
  induction writes generalizing a with
  | nil => rfl
  | cons w rest ih =>
      have hhead : w.1 < a.size := h w.1 (by simp)
      have htail : ∀ p ∈ rest.map Prod.fst, p < (a.setIfInBounds w.1 w.2).size := by
        intro p hp
        rw [Array.size_setIfInBounds]
        exact h p (List.mem_cons_of_mem _ hp)
      rw [putEach, run_bind_ok (run_put hhead w.2), ih htail, Store.writeAll_cons]

/-! ### Writing a selection -/

section Resolved

variable {n : Selection} {len : Nat} (h : n.Resolved len) {a : Array α} (hle : len ≤ a.size)
include h

/-- The range of a resolved selection ends inside the sequence, so its end is a size. -/
theorem checked_end (hone : n.isContiguous = true) :
    Checked.size (Selection.positionOf n.start + n.count) =
      .ok (Selection.positionOf n.start + n.count) := by
  have hin := (h.toList_cursor_of_contiguous hone).2
  have hlen := h.len_le
  unfold maxLength at hlen
  refine if_pos ?_
  unfold UInt64.size
  omega

include hle

/-- A resolved selection passes the check of its range. -/
theorem run_targets : (targets n).run a = .ok n.cursor.toList a := by
  unfold targets
  by_cases hone : n.isContiguous = true
  · obtain ⟨hlist, hin⟩ := h.toList_cursor_of_contiguous hone
    rw [if_pos hone]
    dsimp only
    rw [checked_end h hone, run_bind_ok (run_lift_ok _ a),
      run_bind_ok (run_checkRange ⟨Nat.le_add_right _ _, by omega⟩), hlist]
    rfl
  · rw [if_neg hone]
    rfl

variable {source : Source σ} (hfit : source.Fits n.count) (convert : σ → α)
include hfit

/-- The writes of a plan all succeed. -/
theorem run_plan :
    (putEach (Store.plan convert n source)).run a =
      .ok () (Store.write convert a n source) := by
  rw [Store.write_eq_writeAll h hle hfit]
  refine run_putEach fun p hp => ?_
  rw [Store.map_fst_plan convert hfit] at hp
  exact Nat.lt_of_lt_of_le (h.cursor_lt hp) hle

end Resolved

/-- A source that fits is written as planned, whichever kind it is of. -/
theorem run_write {n : Selection} {len : Nat} (h : n.Resolved len) {a : Array α}
    (hle : len ≤ a.size) {source : Source σ} (hfit : source.Fits n.count) (convert : σ → α) :
    (write convert n source).run a = .ok () (Store.write convert a n source) := by
  rw [← run_plan h hle hfit convert]
  cases source with
  | scalar v =>
      rw [write, fill, run_bind_ok (run_targets h hle), Store.plan_scalar]
  | sequence vs =>
      rw [write, copy, run_bind_ok (run_targets h hle), Array.toList_map]
      rfl

theorem run_checkLength_of_fits {n : Selection} {source : Source σ} (h : source.Fits n.count)
    (a : Array α) : (checkLength n source : InPlace α Unit).run a = .ok () a := by
  unfold checkLength
  cases hlen : source.length? with
  | none => rfl
  | some len =>
      dsimp only
      rw [if_pos (h len hlen)]
      rfl

theorem run_checkLength_of_ne {n : Selection} {source : Source σ} {len : Nat}
    (hlen : source.length? = some len) (h : len ≠ n.count) (a : Array α) :
    (checkLength n source : InPlace α Unit).run a =
      .error (.refused (.lengthMismatch n.count len)) a := by
  unfold checkLength
  rw [hlen]
  dsimp only
  rw [if_neg h]
  rfl

/-! ### Whole assignments -/

/-- **An assignment in place** does what the assignment to the whole array does, and leaves
the array as it was when it is refused. -/
theorem run_assign (convert : σ → α) (s : Slice) (source : Source σ) (a : Array α) :
    (assign convert s source).run a = outcome a (Store.assign convert a s source) := by
  unfold assign
  rw [run_bind_ok (run_size a), Checked.resolve_eq]
  cases hresolve : s.resolve a.size with
  | error e =>
      rw [Store.assign_of_error convert hresolve]
      exact run_bind_error (run_lift_error _ a)
  | ok n =>
      have h : n.Resolved (Slice.effectiveLength a.size) := Slice.resolved_of_resolve hresolve
      have hle : Slice.effectiveLength a.size ≤ a.size := Nat.min_le_left _ _
      show ((lift (.ok n) : InPlace α Selection) >>= _).run a = _
      rw [run_bind_ok (run_lift_ok n a)]
      by_cases hfit : source.Fits n.count
      · rw [run_bind_ok (run_checkLength_of_fits hfit a),
          Store.assign_of_fits convert hresolve hfit]
        exact run_write h hle hfit convert
      · obtain ⟨len, hlen, hne⟩ := Source.not_fits_iff.mp hfit
        rw [run_bind_error (run_checkLength_of_ne hlen hne a),
          Store.assign_of_length_ne convert hresolve hlen hne]
        rfl

/-- A slice that resolves can be assigned every source that fits. -/
theorem run_assign_of_fits {a : Array α} {s : Slice} {n : Selection} {source : Source σ}
    (h : s.resolve a.size = .ok n) (hfit : source.Fits n.count) (convert : σ → α) :
    (assign convert s source).run a = .ok () (Store.write convert a n source) := by
  rw [run_assign, Store.assign_of_fits convert h hfit]
  rfl

/-- A single index that stands for a position stands for one inside the array. -/
theorem indexPosition?_lt {index : Int64} {len p : Nat}
    (h : Store.indexPosition? index len = some p) : p < len := by
  unfold Store.indexPosition? at h
  split_ifs at h with hneg hle hlt
  · have hneg' : index.toInt < 0 := Int64.lt_iff_toInt_lt.mp hneg
    rw [Option.some.injEq] at h
    omega
  · rw [Option.some.injEq] at h
    omega

/-- **An assignment at an index** does what the assignment to the whole array does. -/
theorem run_assignAt (convert : σ → α) (index : Int64) (value : σ) (a : Array α) :
    (assignAt convert index value).run a = outcome a (Store.assignAt convert a index value) := by
  unfold assignAt
  rw [run_bind_ok (run_size a), Store.assignAt_eq]
  cases hindex : Store.indexPosition? index a.size with
  | none => rfl
  | some p => exact run_put (indexPosition?_lt hindex) (convert value)

/-- **What an assignment to a slice does**, for all types of elements and of values. A zero
step is refused first and a sequence of the wrong length next, each with the array as it was.
Any other assignment gives the selected positions their values in the order of the walk and
leaves all others alone. On the array as a whole it is `Store.assign`. -/
theorem assign_exact (source target : ElementType) (a : Array target.Value) (s : Slice)
    (given : Source source.Value) :
    (s.step = some 0 →
        (assign (source.convert target) s given).run a = .error (.refused .zeroStep) a) ∧
      (s.step ≠ some 0 →
        ∃ n, s.resolve a.size = .ok n ∧
          (∀ len, given.length? = some len → len ≠ n.count →
            (assign (source.convert target) s given).run a =
              .error (.refused (.lengthMismatch n.count len)) a) ∧
          (given.Fits n.count →
            ∃ b, (assign (source.convert target) s given).run a = .ok () b ∧ b.size = a.size ∧
              (∀ i < n.count, ∃ p v, n.position? i = some p ∧ given.get? i = some v ∧
                b[p]? = some (source.convert target v)) ∧
              ∀ p, (∀ i, n.position? i ≠ some p) → b[p]? = a[p]?)) ∧
      (assign (source.convert target) s given).run a =
        outcome a (Store.assign (source.convert target) a s given) := by
  refine ⟨fun hzero => ?_, fun hstep => ?_, run_assign _ s given a⟩
  · have herror : s.resolve a.size = .error .zeroStep :=
      Slice.resolve_eq_error_iff.mpr ⟨hzero, rfl⟩
    rw [run_assign, Store.assign_of_error _ herror]
    rfl
  · obtain ⟨n, hn, hresolved, -⟩ := Slice.exists_resolve a.size hstep
    have hle : Slice.effectiveLength a.size ≤ a.size := Nat.min_le_left _ _
    refine ⟨n, hn, fun len hlen hne => ?_, fun hfit => ?_⟩
    · rw [run_assign, Store.assign_of_length_ne _ hn hlen hne]
      rfl
    · refine ⟨Store.write (source.convert target) a n given, ?_,
        Store.size_write hresolved hle hfit _, fun i hi => ?_,
        fun p hp => Store.write_unselected hresolved hle hfit _ hp⟩
      · rw [run_assign, Store.assign_of_fits _ hn hfit]
        rfl
      · obtain ⟨p, hp⟩ := Selection.exists_position hi
        obtain ⟨v, hv⟩ := Source.exists_get? hfit hi
        exact ⟨p, v, hp, hv, Store.write_selected hresolved hle hfit _ hp hv⟩

-- A negative step does not turn a sequence around: its first value goes to the first
-- position of the walk, which is the last one of the array.
example : (assign id ⟨none, none, some (-2)⟩ (.sequence #[7, 8])).run #[1, 2, 3, 4] =
    .ok () #[1, 8, 3, 7] := by cbv

end StridedSlice.InPlace
