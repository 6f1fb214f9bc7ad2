import StridedSlice.Proofs.InPlace
import StridedSlice.Proofs.LastWrite
/-!
# StridedSlice.Proofs.Contiguous

**Slices without a step** select a run of neighbouring positions, from where the first bound
ends up to where the second one does (`Slice.exists_resolve_unstepped`). Both bounds are
brought into range by one rule, so a bound that is written on either side of the colon stands
for the same place.

The shortest such run is the one position that a single index stands for. `Slice.single` is
the slice for it, and it selects just that position, or nothing when the index is out of range
(`Slice.exists_resolve_single`). A store at an index and a store to this slice are computed in
different ways, one by a distance from the end and the other by adding and clamping; they do
the same.
-/

namespace StridedSlice

/-! ### Runs of positions -/

namespace Reference

/-- Where a written bound of an ascending slice ends up. -/
theorem first_of_pos {step : Int} (h : 0 < step) (len i : Int) :
    first step len (some i) = if i < 0 then max (i + len) 0 else min i len := by
  simp only [first, adjust, Int.not_lt.mpr h.le, if_false]
  split_ifs <;> omega

theorem first_of_mem {step len i : Int} (h : 0 < step) (hi : 0 ≤ i ∧ i ≤ len) :
    first step len (some i) = i :=
  adjust_of_mem _ hi.1 (by omega)

/-- The rule is the same on both sides of the colon. -/
theorem bound_unstepped (len i : Int) : bound 1 len (some i) = first 1 len (some i) := rfl

end Reference

/-- With a step of one, the span between the bounds is counted. -/
theorem Selection.Resolved.count_of_unstepped {n : Selection} {len : Nat} (h : n.Resolved len)
    (hstep : n.step.toInt = 1) : n.count = (n.stop.toInt - n.start.toInt).toNat := by
  have hspan := h.lt_count_iff (n.stop.toInt - n.start.toInt).toNat
  have hcount := h.lt_count_iff n.count
  rw [before_of_pos (by omega), term, hstep] at hspan hcount
  omega

namespace Slice

variable {len : Nat} (hlen : len ≤ maxLength)
include hlen

/-- A slice without a step selects all positions between its bounds, in order. -/
theorem exists_resolve_unstepped (start stop : Option Int64) :
    ∃ n, Slice.resolve ⟨start, stop, none⟩ len = .ok n ∧ n.Resolved len ∧
      n.cursor.toList =
        List.range' (Reference.first 1 len (start.map Int64.toInt)).toNat
          (Reference.bound 1 len (stop.map Int64.toInt) -
            Reference.first 1 len (start.map Int64.toInt)).toNat := by
  obtain ⟨n, hn, hresolved, hstep, hstart, hstop⟩ :=
    exists_resolve (s := ⟨start, stop, none⟩) len (by simp)
  have heff : effectiveLength len = len := Nat.min_eq_left hlen
  rw [heff] at hresolved hstart hstop
  have hone : n.step.toInt = 1 := hstep
  have hcontiguous : n.isContiguous = true := beq_iff_eq.mpr (Int64.toInt_inj.mp hone)
  have hfirst := hresolved.positionOf_start_of_contiguous hcontiguous
  have hposition : Selection.positionOf n.start = n.start.toInt.toNat := by omega
  refine ⟨n, hn, hresolved, ?_⟩
  rw [(hresolved.toList_cursor_of_contiguous hcontiguous).1,
    hresolved.count_of_unstepped hone, hposition, hstart, hstop]
  rfl

end Slice

/-! ### Single positions -/

namespace Reference

variable {len i p : Int}

/-- The stop behind an index: there is none behind the last one. -/
def stopAfter (i : Int) : Option Int := if i = -1 then none else some (i + 1)

/-- The bounds around an index in range have its position between them. -/
theorem bounds_stopAfter (hp : 0 ≤ p ∧ p < len) (hi : i = p ∨ i = p - len) :
    first 1 len (some i) = p ∧ bound 1 len (stopAfter i) = p + 1 := by
  refine ⟨by rw [first_of_pos one_pos]; split_ifs <;> omega, ?_⟩
  by_cases hlast : i = -1
  · -- Without a stop the run goes on to the end, which is right behind the last position.
    rw [stopAfter, if_pos hlast]
    show len = p + 1
    omega
  · rw [stopAfter, if_neg hlast, bound_unstepped, first_of_pos one_pos]
    split_ifs <;> omega

/-- The bounds around an index out of range have nothing between them. -/
theorem bounds_stopAfter_of_not_mem (hlen : 0 ≤ len) (hi : ¬(-len ≤ i ∧ i < len)) :
    bound 1 len (stopAfter i) ≤ first 1 len (some i) := by
  by_cases hlast : i = -1
  · rw [stopAfter, if_pos hlast, first_of_pos one_pos]
    show len ≤ _
    split_ifs <;> omega
  · rw [stopAfter, if_neg hlast, bound_unstepped, first_of_pos one_pos, first_of_pos one_pos]
    split_ifs <;> omega

end Reference

namespace Slice

/-- The slice for the position of a single index. Counted from the end, the last position has
no stop, because the one after `-1` would be the first position. -/
def single (index : Int64) : Slice :=
  ⟨some index, if index = -1 then none else some (index + 1), none⟩

/-- The stop is the next index, if that is a word. -/
theorem map_toInt_stop_single {index : Int64} (h : index < Int64.maxValue) :
    (single index).stop.map Int64.toInt = Reference.stopAfter index.toInt := by
  have hfits : FitsWord (index.toInt + (1 : Int64).toInt) := by
    have hlow := (fitsWord_toInt index).1
    have hhigh : index.toInt < 2 ^ 63 - 1 := Int64.lt_iff_toInt_lt.mp h
    rw [Int64.toInt_one]
    exact ⟨by omega, by omega⟩
  have hlast : index = -1 ↔ index.toInt = -1 := Int64.toInt_inj.symm
  unfold single Reference.stopAfter
  by_cases hindex : index = -1
  · rw [if_pos hindex, if_pos (hlast.mp hindex)]
    rfl
  · rw [if_neg hindex, if_neg (hlast.not.mp hindex), Option.map_some, toInt_add_of_fits hfits,
      Int64.toInt_one]

/-- The slice for a single index selects the position that the index stands for, if there is
one. -/
theorem exists_resolve_single {len : Nat} (hlen : len ≤ maxLength) {index : Int64}
    (h : index < Int64.maxValue) :
    ∃ n, (single index).resolve len = .ok n ∧ n.Resolved len ∧
      n.cursor.toList = (Store.indexPosition? index len).toList := by
  obtain ⟨n, hn, hresolved, hpositions⟩ :=
    exists_resolve_unstepped hlen (some index) (single index).stop
  refine ⟨n, hn, hresolved, hpositions.trans ?_⟩
  rw [map_toInt_stop_single h, Option.map_some]
  cases hindex : Store.indexPosition? index len with
  | none =>
      -- Both bounds are brought to the end of the sequence that the index is beyond.
      have hspan := Reference.bounds_stopAfter_of_not_mem (Int.natCast_nonneg len)
        (Store.indexPosition?_eq_none_iff.mp hindex)
      rw [Int.toNat_of_nonpos (Int.sub_nonpos_of_le hspan)]
      rfl
  | some p =>
      obtain ⟨hlt, hposition⟩ := Store.indexPosition?_eq_some_iff.mp hindex
      have hbounds : Reference.first 1 len (some index.toInt) = p ∧
          Reference.bound 1 len (Reference.stopAfter index.toInt) = p + 1 :=
        Reference.bounds_stopAfter (by omega) hposition
      rw [hbounds.1, hbounds.2, add_sub_cancel_left]
      rfl

end Slice

namespace InPlace

variable {σ α : Type}

/-- In range, a store at an index is a store of one value to the slice for it. -/
theorem run_assign_single (convert : σ → α) {a : Array α} (hlen : a.size ≤ maxLength)
    {index : Int64} {p : Nat} (hp : Store.indexPosition? index a.size = some p) (v : σ) :
    (assign convert (Slice.single index) (.scalar v)).run a =
      (assignAt convert index v).run a := by
  obtain ⟨hlt, hposition⟩ := Store.indexPosition?_eq_some_iff.mp hp
  -- An index in range is below a length that is a word, so the next index is one too.
  have hword : index < Int64.maxValue := by
    rw [Int64.lt_iff_toInt_lt]
    show index.toInt < 2 ^ 63 - 1
    unfold maxLength at hlen
    omega
  obtain ⟨n, hn, hresolved, hpositions⟩ := Slice.exists_resolve_single hlen hword
  have hfit : (Source.scalar v).Fits n.count := Source.fits_scalar v n.count
  rw [run_assign_of_fits hn hfit, Store.write_eq_writeAll hresolved le_rfl hfit,
    Store.plan_scalar, hpositions, run_assignAt, Store.assignAt_eq, hp]
  rfl

/-- **A single index and the slice for it agree**, on every array whose length selections
distinguish. A store at an index succeeds exactly when the index is in range at both ends. It
then leaves the array that a store of the value to the slice for the index leaves: one
position, the index itself or as far from the end, has the value, and all others are as they
were. Any other index is refused with the array as it was, and the slice for it selects
nothing. -/
theorem assignAt_eq_assign_single (source target : ElementType) {a : Array target.Value}
    (hlen : a.size ≤ maxLength) (index : Int64) (value : source.Value) :
    ((∃ b, (assignAt (source.convert target) index value).run a = .ok () b) ↔
        -(a.size : Int) ≤ index.toInt ∧ index.toInt < a.size) ∧
      (-(a.size : Int) ≤ index.toInt ∧ index.toInt < a.size →
        ∃ b p, (assignAt (source.convert target) index value).run a = .ok () b ∧
          (assign (source.convert target) (Slice.single index) (.scalar value)).run a =
            .ok () b ∧
          p < a.size ∧
          (p : Int) = (if index.toInt < 0 then a.size + index.toInt else index.toInt) ∧
          b.size = a.size ∧ b[p]? = some (source.convert target value) ∧
          ∀ q, q ≠ p → b[q]? = a[q]?) ∧
      (¬(-(a.size : Int) ≤ index.toInt ∧ index.toInt < a.size) →
        (assignAt (source.convert target) index value).run a =
            .error (.refused (.indexOutOfBounds index a.size)) a ∧
          (index < Int64.maxValue →
            ∃ n, (Slice.single index).resolve a.size = .ok n ∧ n.positions = #[])) := by
  have hrun := run_assignAt (source.convert target) index value a
  rw [Store.assignAt_eq] at hrun
  cases hindex : Store.indexPosition? index a.size with
  | none =>
      have hout := Store.indexPosition?_eq_none_iff.mp hindex
      rw [hindex] at hrun
      refine ⟨⟨?_, fun hin => absurd hin hout⟩, fun hin => absurd hin hout,
        fun _ => ⟨hrun, fun hword => ?_⟩⟩
      · rintro ⟨b, hb⟩
        rw [hrun] at hb
        cases hb
      · obtain ⟨n, hn, -, hpositions⟩ := Slice.exists_resolve_single hlen hword
        rw [hindex, ← n.toList_positions] at hpositions
        exact ⟨n, hn, Array.toList_eq_nil_iff.mp hpositions⟩
  | some p =>
      obtain ⟨hlt, hposition⟩ := Store.indexPosition?_eq_some_iff.mp hindex
      have hin : -(a.size : Int) ≤ index.toInt ∧ index.toInt < a.size := by omega
      have hsingle := run_assign_single (source.convert target) hlen hindex value
      rw [hindex] at hrun
      refine ⟨⟨fun _ => hin, fun _ => ⟨_, hrun⟩⟩, fun _ => ?_, fun hout => absurd hin hout⟩
      refine ⟨_, p, hrun, hsingle.trans hrun, hlt, ?_, Array.size_setIfInBounds,
        Array.getElem?_setIfInBounds_self_of_lt hlt,
        fun q hq => Array.getElem?_setIfInBounds_ne hq.symm⟩
      split_ifs <;> omega

/-- A word of 16 bits goes to the last byte, counted from the end, and to no byte further
out. -/
theorem assignAt_eq_assign_single_last :
    (∃ b, (assignAt (ElementType.convert (.int .int16) (.int .uint8)) (-1) 300#16).run
          #[10#8, 20#8] = .ok () b ∧
        (assign (ElementType.convert (.int .int16) (.int .uint8)) (Slice.single (-1))
          (.scalar 300#16)).run #[10#8, 20#8] = .ok () b ∧
        b = #[10#8, 44#8]) ∧
      (assignAt (ElementType.convert (.int .int16) (.int .uint8)) (-3) 300#16).run
        #[10#8, 20#8] = .error (.refused (.indexOutOfBounds (-3) 2)) #[10#8, 20#8] := by
  have hlast := assignAt_eq_assign_single (.int .int16) (.int .uint8) (a := #[10#8, 20#8])
    (by decide) (-1) 300#16
  have hout := assignAt_eq_assign_single (.int .int16) (.int .uint8) (a := #[10#8, 20#8])
    (by decide) (-3) 300#16
  obtain ⟨b, p, hat, hslice, -⟩ := hlast.2.1 (by decide)
  refine ⟨⟨b, hat, hslice, ?_⟩, (hout.2.2 (by decide)).1⟩
  have hrun : (assignAt (ElementType.convert (.int .int16) (.int .uint8)) (-1) 300#16).run
      #[10#8, 20#8] = .ok () #[10#8, 44#8] := by cbv
  rw [hrun] at hat
  cases hat
  rfl

end InPlace

end StridedSlice
