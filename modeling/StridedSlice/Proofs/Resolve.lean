import StridedSlice.Proofs.Reference
import StridedSlice.Proofs.Word
/-!
# StridedSlice.Proofs.Resolve

**What resolving a slice gives**, in exact integers.

`Selection.Resolved` is the invariant of every selection that `Slice.resolve` returns: the
bounds lie in the range that the direction of the step allows, and the count tells exactly
which terms `start + i * step` are still before `stop`. That the terms are positions of the
sequence, that they differ from each other and that the word arithmetic of
`Selection.position?` is exact all follow from it, and no later proof looks at how a slice
is resolved.

`Slice.exists_resolve` is the specification of `Slice.resolve` itself: without a zero step
it succeeds, its bounds are those of the reference model, and its result is `Resolved`.
-/

namespace StridedSlice

namespace Selection

/-- The `i`-th term of the progression that a selection stands for, as an exact integer. -/
def term (n : Selection) (i : Nat) : Int := n.start.toInt + i * n.step.toInt

/-- What holds of a selection of positions in a sequence of `len` elements. -/
structure Resolved (n : Selection) (len : Nat) : Prop where
  /-- The length is one that selections distinguish. -/
  len_le : len ≤ maxLength
  /-- Going up, bounds are in `0 … len`; going down, in `-1 … len - 1`. -/
  bounds :
    (0 < n.step.toInt ∧ (0 ≤ n.start.toInt ∧ n.start.toInt ≤ len) ∧
        0 ≤ n.stop.toInt ∧ n.stop.toInt ≤ len) ∨
      (n.step.toInt < 0 ∧ (-1 ≤ n.start.toInt ∧ n.start.toInt ≤ len - 1) ∧
        -1 ≤ n.stop.toInt ∧ n.stop.toInt ≤ len - 1)
  /-- The terms that are counted are those before the bound. -/
  lt_count_iff : ∀ i : Nat, i < n.count ↔ Before n.step.toInt n.stop.toInt (n.term i)

/-- Going up, the distance between the bounds is a word. -/
theorem Resolved.fits_span_up {n : Selection} {len : Nat} (h : n.Resolved len)
    (hstep : 0 < n.step.toInt) : FitsWord (n.stop.toInt - n.start.toInt) := by
  have hlen := h.len_le
  have hbounds := h.bounds
  unfold maxLength at hlen
  unfold FitsWord
  omega

/-- Going down, the distance between the bounds is a word. -/
theorem Resolved.fits_span_down {n : Selection} {len : Nat} (h : n.Resolved len)
    (hstep : n.step.toInt < 0) : FitsWord (n.start.toInt - n.stop.toInt) := by
  have hlen := h.len_le
  have hbounds := h.bounds
  unfold maxLength at hlen
  unfold FitsWord
  omega

/-! ### Bounds and counts on words -/

theorem toInt_clampBound {bound len lower upper : Int64} (hlen : 0 ≤ len.toInt) :
    (clampBound bound len lower upper).toInt =
      if bound.toInt < 0 then max (bound.toInt + len.toInt) lower.toInt
      else min bound.toInt upper.toInt := by
  have hlt : bound < 0 ↔ bound.toInt < 0 := Int64.lt_iff_toInt_lt
  unfold clampBound
  by_cases h : bound.toInt < 0
  · have hfits : FitsWord (bound.toInt + len.toInt) := by
      have hb := fitsWord_toInt bound
      have hl := fitsWord_toInt len
      unfold FitsWord at *
      omega
    rw [if_pos (hlt.mpr h), if_pos h, toInt_max, toInt_add_of_fits hfits]
  · rw [if_neg fun h' => h (hlt.mp h'), if_neg h, toInt_min]

/-- Going up, a bound is resolved as in the reference model. -/
theorem toInt_boundOr_up {step : Int} (hstep : 0 < step) {len : Int64} (hlen : 0 ≤ len.toInt)
    (default : Int64) (bound : Option Int64) :
    (boundOr default bound len 0 len).toInt =
      Reference.adjust step len.toInt default.toInt (bound.map Int64.toInt) := by
  cases bound with
  | none => rfl
  | some v =>
      simp only [boundOr, toInt_clampBound hlen, Option.map_some, Reference.adjust,
        if_neg (Int.not_lt.mpr hstep.le), Int64.toInt_zero]
      split_ifs <;> omega

/-- Going down, a bound is resolved as in the reference model. -/
theorem toInt_boundOr_down {step : Int} (hstep : step < 0) {len : Int64} (hlen : 0 ≤ len.toInt)
    (default : Int64) (bound : Option Int64) :
    (boundOr default bound len (-1) (len - 1)).toInt =
      Reference.adjust step len.toInt default.toInt (bound.map Int64.toInt) := by
  have hlast : (len - 1).toInt = len.toInt - 1 := toInt_sub_one hlen
  cases bound with
  | none => rfl
  | some v =>
      simp only [boundOr, toInt_clampBound hlen, Option.map_some, Reference.adjust,
        if_pos hstep, hlast, toInt_neg_one]
      split_ifs <;> omega

/-- The positions in a span are counted by division. -/
theorem countIn_eq {span stride : Int64} (hspan : 0 < span.toInt) (hstride : 0 < stride.toInt) :
    (countIn span stride : Int) = (span.toInt - 1) / stride.toInt + 1 := by
  have hless : (span - 1).toInt = span.toInt - 1 := toInt_sub_one hspan.le
  have hquot : ((span - 1) / stride).toInt = (span.toInt - 1) / stride.toInt := by
    -- A quotient of words overflows only for this divisor.
    have hne : stride ≠ -1 := by
      rintro rfl
      exact absurd hstride (by decide)
    rw [Int64.toInt_div_of_ne_right _ _ hne, hless, Int.tdiv_eq_ediv_of_nonneg (by omega)]
  have hnonneg : 0 ≤ (span.toInt - 1) / stride.toInt :=
    Int.ediv_nonneg (by omega) hstride.le
  have hpos : positionOf ((span - 1) / stride) = ((span.toInt - 1) / stride.toInt).toNat := by
    rw [positionOf_of_nonneg (hquot ▸ hnonneg), hquot]
  change ((positionOf ((span - 1) / stride) + 1 : Nat) : Int) = _
  rw [hpos]
  omega

/-- The `i`-th position of a span is one of those counted if it lies inside. -/
theorem lt_countIn_iff {span stride : Int64} (hspan : 0 < span.toInt)
    (hstride : 0 < stride.toInt) (i : Nat) :
    i < countIn span stride ↔ i * stride.toInt < span.toInt := by
  have hcount := countIn_eq hspan hstride
  have hle : (i : Int) ≤ (span.toInt - 1) / stride.toInt ↔ i * stride.toInt ≤ span.toInt - 1 :=
    Int.le_ediv_iff_mul_le hstride
  omega

/-- The number of positions from `near` on and before `far` tells which of them there are,
also when the span is empty. -/
theorem lt_spanCount_iff {near far stride : Int64} (hfits : FitsWord (far.toInt - near.toInt))
    (hstride : 0 < stride.toInt) (i : Nat) :
    i < (if near < far then countIn (far - near) stride else 0) ↔
      i * stride.toInt < far.toInt - near.toInt := by
  have hlt : near < far ↔ near.toInt < far.toInt := Int64.lt_iff_toInt_lt
  have hspan : (far - near).toInt = far.toInt - near.toInt := toInt_sub_of_fits hfits
  by_cases h : near.toInt < far.toInt
  · rw [if_pos (hlt.mpr h), lt_countIn_iff (by omega) hstride, hspan]
  · have hnonneg : 0 ≤ i * stride.toInt := Int.mul_nonneg (Int.natCast_nonneg i) hstride.le
    rw [if_neg fun h' => h (hlt.mp h')]
    omega

/-! ### The two directions -/

/-- An ascending slice is resolved to the bounds of the reference model. -/
theorem ascending_bounds {len : Nat} (hlen : len ≤ maxLength) {written : Int}
    (hwritten : 0 < written) (start stop : Option Int64) (step : Int64) :
    (ascending start stop step (Int64.ofNat len)).start.toInt =
        Reference.first written len (start.map Int64.toInt) ∧
      (ascending start stop step (Int64.ofNat len)).stop.toInt =
        Reference.bound written len (stop.map Int64.toInt) := by
  have hword : (Int64.ofNat len).toInt = len := toInt_ofNat_of_le_maxLength hlen
  have hnonneg : 0 ≤ (Int64.ofNat len).toInt := hword ▸ Int.natCast_nonneg len
  simp only [ascending, Reference.first, Reference.bound, if_pos hwritten]
  rw [toInt_boundOr_up hwritten hnonneg, toInt_boundOr_up hwritten hnonneg, hword]
  exact ⟨rfl, rfl⟩

/-- A descending slice is resolved to the bounds of the reference model. -/
theorem descending_bounds {len : Nat} (hlen : len ≤ maxLength) {written : Int}
    (hwritten : written < 0) (start stop : Option Int64) (step : Int64) :
    (descending start stop step (Int64.ofNat len)).start.toInt =
        Reference.first written len (start.map Int64.toInt) ∧
      (descending start stop step (Int64.ofNat len)).stop.toInt =
        Reference.bound written len (stop.map Int64.toInt) := by
  have hword : (Int64.ofNat len).toInt = len := toInt_ofNat_of_le_maxLength hlen
  have hnonneg : 0 ≤ (Int64.ofNat len).toInt := hword ▸ Int.natCast_nonneg len
  simp only [descending, Reference.first, Reference.bound,
    if_neg (Int.not_lt.mpr hwritten.le)]
  rw [toInt_boundOr_down hwritten hnonneg, toInt_boundOr_down hwritten hnonneg,
    toInt_sub_one hnonneg, hword]
  exact ⟨rfl, rfl⟩

/-- The count of an ascending selection picks out the terms before the bound. -/
theorem resolved_up {n : Selection} {len : Nat} (hlen : len ≤ maxLength)
    (hstep : 0 < n.step.toInt)
    (hmem : (0 ≤ n.start.toInt ∧ n.start.toInt ≤ len) ∧ 0 ≤ n.stop.toInt ∧ n.stop.toInt ≤ len)
    (hcount : n.count = if n.start < n.stop then countIn (n.stop - n.start) n.step else 0) :
    n.Resolved len := by
  refine ⟨hlen, Or.inl ⟨hstep, hmem⟩, fun i => ?_⟩
  have hfits : FitsWord (n.stop.toInt - n.start.toInt) := by
    unfold FitsWord
    unfold maxLength at hlen
    omega
  rw [hcount, lt_spanCount_iff hfits hstep, before_of_pos hstep]
  unfold term
  omega

/-- The count of a descending selection picks out the terms before the bound. -/
theorem resolved_down {n : Selection} {len : Nat} (hlen : len ≤ maxLength)
    (hstep : n.step.toInt < 0) (hneg : FitsWord (-n.step.toInt))
    (hmem : (-1 ≤ n.start.toInt ∧ n.start.toInt ≤ len - 1) ∧
      -1 ≤ n.stop.toInt ∧ n.stop.toInt ≤ len - 1)
    (hcount : n.count = if n.stop < n.start then countIn (n.start - n.stop) (-n.step) else 0) :
    n.Resolved len := by
  refine ⟨hlen, Or.inr ⟨hstep, hmem⟩, fun i => ?_⟩
  have hfits : FitsWord (n.start.toInt - n.stop.toInt) := by
    unfold FitsWord
    unfold maxLength at hlen
    omega
  -- Going down, the span is measured from `stop` up to `start`.
  have hstride : (-n.step).toInt = -n.step.toInt := toInt_neg_of_fits hneg
  rw [hcount, lt_spanCount_iff hfits (by omega), before_of_neg hstep, hstride, Int.mul_neg]
  unfold term
  omega

theorem ascending_resolved {len : Nat} (hlen : len ≤ maxLength) {step : Int64}
    (hstep : 0 < step.toInt) (start stop : Option Int64) :
    (ascending start stop step (Int64.ofNat len)).Resolved len := by
  have hmem := Reference.bounds_up hstep (Int.natCast_nonneg len) (start.map Int64.toInt)
    (stop.map Int64.toInt)
  obtain ⟨hfirst, hbound⟩ := ascending_bounds hlen hstep start stop step
  rw [← hfirst, ← hbound] at hmem
  exact resolved_up hlen hstep hmem rfl

theorem descending_resolved {len : Nat} (hlen : len ≤ maxLength) {step : Int64}
    (hstep : step.toInt < 0) (hneg : FitsWord (-step.toInt)) (start stop : Option Int64) :
    (descending start stop step (Int64.ofNat len)).Resolved len := by
  have hmem := Reference.bounds_down hstep (Int.natCast_nonneg len) (start.map Int64.toInt)
    (stop.map Int64.toInt)
  obtain ⟨hfirst, hbound⟩ := descending_bounds hlen hstep start stop step
  rw [← hfirst, ← hbound] at hmem
  exact resolved_down hlen hstep hneg hmem rfl

end Selection

namespace Slice

/-- The step of a slice as an integer, as it was written. -/
def writtenStep (s : Slice) : Int := (s.step.map Int64.toInt).getD 1

theorem writtenStep_eq_zero_iff {s : Slice} : s.writtenStep = 0 ↔ s.step = some 0 := by
  unfold writtenStep
  cases s.step with
  | none => simp
  | some v => simp [← Int64.toInt_inj]

theorem toInt_effectiveStep (s : Slice) :
    s.effectiveStep.toInt = max s.writtenStep (-(2 ^ 63 - 1)) := by
  unfold effectiveStep writtenStep
  cases s.step with
  | none => rfl
  | some v =>
      rw [toInt_max]
      rfl

/-- A slice without a zero step goes up, or it goes down by a step that can be negated. -/
theorem effectiveStep_cases {s : Slice} (h : s.step ≠ some 0) :
    0 < s.effectiveStep.toInt ∨
      (s.effectiveStep.toInt < 0 ∧ FitsWord (-s.effectiveStep.toInt)) := by
  have hstep := s.toInt_effectiveStep
  have hzero : s.writtenStep ≠ 0 := fun h0 => h (writtenStep_eq_zero_iff.mp h0)
  have hword := (fitsWord_toInt s.effectiveStep).2
  unfold FitsWord
  omega

/-- Without a zero step a slice can be resolved. The bounds are those of the reference model
for the written step, the step is the written one unless that cannot be negated, and the
count is right. -/
theorem exists_resolve {s : Slice} (len : Nat) (h : s.step ≠ some 0) :
    ∃ n, s.resolve len = .ok n ∧ n.Resolved (effectiveLength len) ∧
      n.step.toInt = max s.writtenStep (-(2 ^ 63 - 1)) ∧
      n.start.toInt =
        Reference.first s.writtenStep (effectiveLength len) (s.start.map Int64.toInt) ∧
      n.stop.toInt =
        Reference.bound s.writtenStep (effectiveLength len) (s.stop.map Int64.toInt) := by
  have hlen : effectiveLength len ≤ maxLength := Nat.min_le_right _ _
  have hstep := toInt_effectiveStep s
  have hzero : s.writtenStep ≠ 0 := fun h0 => h (writtenStep_eq_zero_iff.mp h0)
  have hpos : 0 < s.effectiveStep ↔ 0 < s.effectiveStep.toInt := Int64.lt_iff_toInt_lt
  unfold resolve
  rw [if_neg h]
  -- A step that is raised keeps its sign, so the direction is that of the written step.
  by_cases hup : 0 < s.effectiveStep.toInt
  · have hwritten : 0 < s.writtenStep := by omega
    rw [if_pos (hpos.mpr hup)]
    exact ⟨_, rfl, Selection.ascending_resolved hlen hup _ _, hstep,
      Selection.ascending_bounds hlen hwritten _ _ _⟩
  · have hwritten : s.writtenStep < 0 := by omega
    have hdown : s.effectiveStep.toInt < 0 := by omega
    have hneg : FitsWord (-s.effectiveStep.toInt) := by
      unfold FitsWord
      omega
    rw [if_neg fun h' => hup (hpos.mp h')]
    exact ⟨_, rfl, Selection.descending_resolved hlen hdown hneg _ _, hstep,
      Selection.descending_bounds hlen hwritten _ _ _⟩

/-- A slice that can be resolved has no step of zero. -/
theorem step_ne_zero_of_resolve {s : Slice} {len : Nat} {n : Selection}
    (h : s.resolve len = .ok n) : s.step ≠ some 0 := by
  intro h0
  rw [resolve_eq_error_iff.mpr ⟨h0, rfl⟩] at h
  cases h

/-- Every resolved slice satisfies the invariant. -/
theorem resolved_of_resolve {s : Slice} {len : Nat} {n : Selection} (h : s.resolve len = .ok n) :
    n.Resolved (effectiveLength len) := by
  obtain ⟨n', hn', hresolved, -⟩ := exists_resolve len (step_ne_zero_of_resolve h)
  rw [h, Except.ok.injEq] at hn'
  exact hn' ▸ hresolved

end Slice

end StridedSlice
