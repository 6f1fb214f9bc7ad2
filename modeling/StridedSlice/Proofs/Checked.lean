import StridedSlice.Checked
import StridedSlice.Proofs.Resolve
/-!
# StridedSlice.Proofs.Checked

**Resolving a slice never overflows.** Every intermediate result of `Checked.resolve` is an
integer that a word can hold, so it gives exactly what `Slice.resolve` gives on words that
wrap, and the only way in which it ends early is the refusal of a zero step
(`Checked.resolve_eq`).
-/

namespace StridedSlice.Checked

/-- A step that gave a value hands it on. -/
theorem ok_bind {α β : Type} (a : α) (f : α → Except Stop β) :
    ((Except.ok a : Except Stop α) >>= f) = f a := rfl

/-! ### Single operations -/

theorem word_eq {i : Int} (h : FitsWord i) : word i = .ok (Int64.ofInt i) := by
  have hle : i ≤ Int64.maxValue.toInt := by
    rw [Int64.toInt_maxValue]
    exact Int.le_sub_one_of_lt h.2
  have hge : Int64.minValue.toInt ≤ i := by
    rw [Int64.toInt_minValue]
    exact h.1
  exact if_pos ⟨hge, hle⟩

theorem add_eq {a b : Int64} (h : FitsWord (a.toInt + b.toInt)) : add a b = .ok (a + b) := by
  rw [add, word_eq h, Int64.ofInt_add, Int64.ofInt_toInt, Int64.ofInt_toInt]

theorem sub_eq {a b : Int64} (h : FitsWord (a.toInt - b.toInt)) : sub a b = .ok (a - b) := by
  rw [sub, word_eq h, Int64.ofInt_sub, Int64.ofInt_toInt, Int64.ofInt_toInt]

theorem neg_eq {a : Int64} (h : FitsWord (-a.toInt)) : neg a = .ok (-a) := by
  rw [neg, word_eq h, Int64.ofInt_neg, Int64.ofInt_toInt]

theorem mul_eq {a b : Int64} (h : FitsWord (a.toInt * b.toInt)) : mul a b = .ok (a * b) := by
  rw [mul, word_eq h, Int64.ofInt_mul, Int64.ofInt_toInt, Int64.ofInt_toInt]

/-- A quotient of words overflows only for the least word and `-1`. -/
theorem div_eq {a b : Int64} (ha : 0 ≤ a.toInt) (hb : 0 < b.toInt) : div a b = .ok (a / b) := by
  have hne : b ≠ 0 := by
    rintro rfl
    exact absurd hb (by decide)
  have hquot : a.toInt.tdiv b.toInt = a.toInt / b.toInt := Int.tdiv_eq_ediv_of_nonneg ha
  have hfits : FitsWord (a.toInt.tdiv b.toInt) := by
    have hle : a.toInt / b.toInt ≤ a.toInt := Int.ediv_le_self _ ha
    have hge : 0 ≤ a.toInt / b.toInt := Int.ediv_nonneg ha hb.le
    have hword := fitsWord_toInt a
    unfold FitsWord at *
    omega
  rw [div, if_neg hne, word_eq hfits]
  congr 1
  refine Int64.toInt_inj.mp ?_
  rw [toInt_ofInt_of_fits hfits, Int64.toInt_div, hfits.bmod_eq]

/-! ### Bounds and counts -/

theorem clampBound_eq {bound len : Int64} (hlen : 0 ≤ len.toInt) (lower upper : Int64) :
    clampBound bound len lower upper = .ok (Selection.clampBound bound len lower upper) := by
  unfold clampBound Selection.clampBound
  by_cases h : bound < 0
  · have hneg : bound.toInt < 0 := Int64.lt_iff_toInt_lt.mp h
    have hfits : FitsWord (bound.toInt + len.toInt) := by
      have hb := fitsWord_toInt bound
      have hl := fitsWord_toInt len
      unfold FitsWord at *
      omega
    rw [if_pos h, if_pos h, add_eq hfits]
    rfl
  · rw [if_neg h, if_neg h]
    rfl

theorem boundOr_eq {len : Int64} (hlen : 0 ≤ len.toInt) (default : Int64)
    (bound : Option Int64) (lower upper : Int64) :
    boundOr default bound len lower upper =
      .ok (Selection.boundOr default bound len lower upper) := by
  cases bound with
  | none => rfl
  | some v => exact clampBound_eq hlen lower upper

theorem countBetween_eq {near far stride : Int64} (hfits : FitsWord (far.toInt - near.toInt))
    (hstride : 0 < stride.toInt) :
    countBetween near far stride =
      .ok (if near < far then Selection.countIn (far - near) stride else 0) := by
  unfold countBetween
  by_cases h : near < far
  · have hlt : near.toInt < far.toInt := Int64.lt_iff_toInt_lt.mp h
    have hspan : (far - near).toInt = far.toInt - near.toInt := toInt_sub_of_fits hfits
    have hpos : 0 < (far - near).toInt := by omega
    have hless : (far - near - 1).toInt = (far - near).toInt - 1 := toInt_sub_one hpos.le
    have hone : FitsWord ((far - near).toInt - (1 : Int64).toInt) := by
      rw [Int64.toInt_one, ← hless]
      exact fitsWord_toInt _
    have hcount : Selection.positionOf ((far - near - 1) / stride) + 1 < 2 ^ 64 := by
      have hcount := Selection.countIn_eq hpos hstride
      have hle : ((far - near).toInt - 1) / stride.toInt ≤ (far - near).toInt - 1 :=
        Int.ediv_le_self _ (by omega)
      have hword := (fitsWord_toInt (far - near)).2
      change ((Selection.positionOf ((far - near - 1) / stride) + 1 : Nat) : Int) = _ at hcount
      omega
    rw [if_pos h, if_pos h, sub_eq hfits, ok_bind, sub_eq hone, ok_bind,
      div_eq (by omega) hstride, ok_bind]
    exact if_pos hcount
  · rw [if_neg h, if_neg h]
    rfl

/-! ### Whole slices -/

theorem ascending_eq {len : Nat} (hlen : len ≤ maxLength) {step : Int64}
    (hstep : 0 < step.toInt) (start stop : Option Int64) :
    ascending start stop step (Int64.ofNat len) =
      .ok (Selection.ascending start stop step (Int64.ofNat len)) := by
  have hnonneg : 0 ≤ (Int64.ofNat len).toInt := by
    rw [toInt_ofNat_of_le_maxLength hlen]
    exact Int.natCast_nonneg len
  have hspan := (Selection.ascending_resolved hlen hstep start stop).fits_span_up hstep
  dsimp only [Selection.ascending] at hspan
  unfold ascending
  rw [boundOr_eq hnonneg, ok_bind, boundOr_eq hnonneg, ok_bind, countBetween_eq hspan hstep,
    ok_bind]
  rfl

theorem descending_eq {len : Nat} (hlen : len ≤ maxLength) {step : Int64}
    (hstep : step.toInt < 0) (hneg : FitsWord (-step.toInt)) (start stop : Option Int64) :
    descending start stop step (Int64.ofNat len) =
      .ok (Selection.descending start stop step (Int64.ofNat len)) := by
  have hword : (Int64.ofNat len).toInt = len := toInt_ofNat_of_le_maxLength hlen
  have hnonneg : 0 ≤ (Int64.ofNat len).toInt := hword ▸ Int.natCast_nonneg len
  have hlast : FitsWord ((Int64.ofNat len).toInt - (1 : Int64).toInt) := by
    rw [Int64.toInt_one, ← toInt_sub_one hnonneg]
    exact fitsWord_toInt _
  have hstride : (-step).toInt = -step.toInt := toInt_neg_of_fits hneg
  have hspan := (Selection.descending_resolved hlen hstep hneg start stop).fits_span_down hstep
  dsimp only [Selection.descending] at hspan
  unfold descending
  rw [sub_eq hlast, ok_bind, boundOr_eq hnonneg, ok_bind, boundOr_eq hnonneg, ok_bind,
    neg_eq hneg, ok_bind, countBetween_eq hspan (by omega), ok_bind]
  rfl

/-- **Checked and wrapping resolution agree.** No step of the computation overflows, and a
refusal is the only other outcome. -/
theorem resolve_eq (s : Slice) (len : Nat) :
    resolve s len = (s.resolve len).mapError Stop.refused := by
  have hlen : Slice.effectiveLength len ≤ maxLength := Nat.min_le_right _ _
  unfold resolve Slice.resolve
  by_cases hzero : s.step = some 0
  · rw [if_pos hzero, if_pos hzero]
    rfl
  · have hup : 0 < s.effectiveStep ↔ 0 < s.effectiveStep.toInt := Int64.lt_iff_toInt_lt
    rw [if_neg hzero, if_neg hzero]
    rcases Slice.effectiveStep_cases hzero with hpos | ⟨hdown, hneg⟩
    · rw [if_pos (hup.mpr hpos), if_pos (hup.mpr hpos)]
      exact ascending_eq hlen hpos s.start s.stop
    · have hnot : ¬ 0 < s.effectiveStep := fun h => absurd (hup.mp h) (by omega)
      rw [if_neg hnot, if_neg hnot]
      exact descending_eq hlen hdown hneg s.start s.stop

end StridedSlice.Checked
