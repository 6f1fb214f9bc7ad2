import StridedSlice.Foreign
import StridedSlice.Proofs.Checked
/-!
# StridedSlice.Proofs.Span

**The span between the bounds of a selection.** Each bound of a slice is brought into the
range of its direction, and the other one has no say in it (`Reference.adjust_of_place`). The
two bounds of a selection therefore need not be in order: a slice may begin where it has
already ended. `Slice.Crosses` tells such slices from their written parts.

What the order says about a selection does not depend on how it came about. Its first term is
before the stop exactly if something is selected, so bounds that cross select nothing
(`Selection.Resolved.count_pos_iff`).
-/

namespace StridedSlice

namespace Reference

/-! ### Where written bounds end up -/

/-- The place that a written bound points to: a negative one counts from the end. -/
def place (len v : Int) : Int := if v < 0 then v + len else v

/-- A written bound is its place, as far as that is in the range of the direction. -/
theorem adjust_of_place {step len : Int} (hlen : 0 ≤ len) (default v : Int) :
    adjust step len default (some v) =
      if step < 0 then max (-1) (min (place len v) (len - 1))
      else max 0 (min (place len v) len) := by
  simp only [adjust, place]
  split_ifs <;> omega

/-- Whether bounds cross: in the direction of the step the stop points before the start, and
neither of them is so far out that it says no more than a bound that was left out. -/
def Crosses (step len : Int) : Option Int → Option Int → Prop
  | some a, some b =>
      0 < len ∧ Before step (place len a) (place len b) ∧
        Before step (place len a) (first step len none) ∧
        Before step (bound step len none) (place len b)
  | _, _ => False

instance (step len : Int) : (start stop : Option Int) → Decidable (Crosses step len start stop)
  | some _, some _ => inferInstanceAs (Decidable (_ ∧ _))
  | none, none | none, some _ | some _, none => inferInstanceAs (Decidable False)

/-- Without a start, or without a stop, bounds are in order: one of them is then as far out as
the range allows. -/
theorem not_before_first_of_none {step len : Int} (hlen : 0 ≤ len) {start stop : Option Int}
    (h : start = none ∨ stop = none) :
    ¬ Before step (first step len start) (bound step len stop) := by
  rintro (⟨hup, hlt⟩ | ⟨hdown, hlt⟩)
  · have hrange := bounds_up hup hlen start stop
    rcases h with rfl | rfl
    · have hfirst : first step len none = 0 := if_pos hup
      omega
    · have hbound : bound step len none = len := if_pos hup
      omega
  · have hrange := bounds_down hdown hlen start stop
    rcases h with rfl | rfl
    · have hfirst : first step len none = len - 1 := if_neg hdown.le.not_gt
      omega
    · have hbound : bound step len none = -1 := if_neg hdown.le.not_gt
      omega

/-- Bounds that cross, and no others, are out of order when they are in range. -/
theorem before_first_iff {step len : Int} (hlen : 0 ≤ len) (start stop : Option Int) :
    Before step (first step len start) (bound step len stop) ↔ Crosses step len start stop := by
  cases start with
  | none => exact iff_of_false (not_before_first_of_none hlen (.inl rfl)) id
  | some a =>
      cases stop with
      | none => exact iff_of_false (not_before_first_of_none hlen (.inr rfl)) id
      | some b =>
          simp only [Crosses, first, bound, adjust_of_place hlen, Before]
          simp only [adjust]
          split_ifs <;> omega

-- Written the wrong way round, but both of them behind the last position.
example : ¬ Crosses 1 10 (some 20) (some 16) := by decide

end Reference

/-! ### Bounds of selections -/

/-- Whether the bounds of a slice cross in a sequence of `len` elements. -/
def Slice.Crosses (s : Slice) (len : Nat) : Prop :=
  Reference.Crosses s.writtenStep len (s.start.map Int64.toInt) (s.stop.map Int64.toInt)

instance (s : Slice) (len : Nat) : Decidable (s.Crosses len) :=
  inferInstanceAs (Decidable (Reference.Crosses ..))

namespace Selection.Resolved

variable {n : Selection} {len : Nat} (h : n.Resolved len)
include h

/-- Something is selected exactly if the start is before the stop. -/
theorem count_pos_iff : 0 < n.count ↔ Before n.step.toInt n.stop.toInt n.start.toInt := by
  rw [h.lt_count_iff]
  simp [term]

end Selection.Resolved

/-- A caller from outside is handed the selection that the slice is resolved to. -/
theorem Foreign.resolve_of_ok {a : SliceArgument} {len : Nat} {n : Selection}
    (h : a.get.resolve len = .ok n) (before : Selection) :
    Foreign.resolve len a (some before) = (.ok, some n) := by
  simp only [Foreign.resolve, Checked.resolve_eq, h]
  rfl

/-- **The bounds of a selection**, for every slice and every length. Each of them is in the
range of its direction. They are in order, and their distance is not negative, unless the
bounds of the slice cross; where they are in order and differ, and only there, something is
selected. Callers from outside are handed the same bounds. -/
theorem Slice.resolve_ordered_iff (s : Slice) {len : Nat} (hlen : len ≤ maxLength)
    (hstep : s.step ≠ some 0) :
    ∃ n, s.resolve len = .ok n ∧
      (∀ a : Foreign.SliceArgument, a.get = s →
        ∀ before, Foreign.resolve len a (some before) = (.ok, some n)) ∧
      (0 < s.writtenStep →
        (0 ≤ n.start.toInt ∧ n.start.toInt ≤ len) ∧ (0 ≤ n.stop.toInt ∧ n.stop.toInt ≤ len) ∧
          (n.start.toInt ≤ n.stop.toInt ↔ ¬ s.Crosses len) ∧
          (n.start.toInt < n.stop.toInt ↔ 0 < n.count) ∧
          (n.stop - n.start).toInt = n.stop.toInt - n.start.toInt) ∧
      (s.writtenStep < 0 →
        (-1 ≤ n.start.toInt ∧ n.start.toInt ≤ len - 1) ∧
          (-1 ≤ n.stop.toInt ∧ n.stop.toInt ≤ len - 1) ∧
          (n.stop.toInt ≤ n.start.toInt ↔ ¬ s.Crosses len) ∧
          (n.stop.toInt < n.start.toInt ↔ 0 < n.count) ∧
          (n.start - n.stop).toInt = n.start.toInt - n.stop.toInt) := by
  obtain ⟨n, hn, hresolved, hwritten, hstart, hstop⟩ := Slice.exists_resolve len hstep
  have heff : Slice.effectiveLength len = len := Nat.min_eq_left hlen
  rw [heff] at hresolved hstart hstop
  have hcross : Before s.writtenStep n.start.toInt n.stop.toInt ↔ s.Crosses len := by
    rw [hstart, hstop]
    exact Reference.before_first_iff (Int.natCast_nonneg len) _ _
  have hbounds := hresolved.bounds
  have hcount := hresolved.count_pos_iff
  refine ⟨n, hn, ?_, fun hup => ?_, fun hdown => ?_⟩
  · rintro a rfl before
    exact Foreign.resolve_of_ok hn before
  · have hstepUp : 0 < n.step.toInt := by omega
    rw [before_of_pos hup] at hcross
    rw [before_of_pos hstepUp] at hcount
    refine ⟨by omega, by omega, by rw [← hcross, not_lt], hcount.symm,
      toInt_sub_of_fits (hresolved.fits_span_up hstepUp)⟩
  · have hstepDown : n.step.toInt < 0 := by omega
    rw [before_of_neg hdown] at hcross
    rw [before_of_neg hstepDown] at hcount
    refine ⟨by omega, by omega, by rw [← hcross, not_lt], hcount.symm,
      toInt_sub_of_fits (hresolved.fits_span_down hstepDown)⟩

/-- The place before the last four is behind the place before the last six, but it is where a
descending slice goes from there. -/
theorem Slice.resolve_ordered_iff_crossing :
    (10 : Nat) ≤ maxLength ∧ (Slice.mk (some (-6)) (some (-2)) (some (-4))).step ≠ some 0 ∧
      ∃ n, Slice.resolve ⟨some (-6), some (-2), some (-4)⟩ 10 = .ok n ∧
        n = ⟨4, 8, -4, 0⟩ ∧ Slice.Crosses ⟨some (-6), some (-2), some (-4)⟩ 10 := by
  obtain ⟨n, hn, -, -, hdown⟩ :=
    Slice.resolve_ordered_iff ⟨some (-6), some (-2), some (-4)⟩ (show 10 ≤ maxLength by decide)
      (by decide)
  obtain rfl : n = ⟨4, 8, -4, 0⟩ := Except.ok.inj (hn.symm.trans rfl)
  obtain ⟨-, -, horder, -⟩ := hdown (by decide)
  have hcrosses : Slice.Crosses ⟨some (-6), some (-2), some (-4)⟩ 10 :=
    not_not.mp fun hnot => absurd (horder.mpr hnot) (by decide)
  exact ⟨by decide, by decide, _, hn, rfl, hcrosses⟩

/-- Bounds need not be in order in either direction. -/
theorem Slice.bounds_not_ordered :
    (∃ n, Slice.resolve ⟨some 6, some 2, some 1⟩ 10 = .ok n ∧
        ¬(0 ≤ n.start.toInt ∧ n.start.toInt ≤ n.stop.toInt ∧ n.stop.toInt ≤ 10)) ∧
      ∃ n, Slice.resolve ⟨some 4, some 8, some (-4)⟩ 10 = .ok n ∧
        ¬(-1 ≤ n.stop.toInt ∧ n.stop.toInt ≤ n.start.toInt ∧ n.start.toInt ≤ 10 - 1) :=
  ⟨⟨⟨6, 2, 1, 0⟩, rfl, by decide⟩, ⟨4, 8, -4, 0⟩, rfl, by decide⟩

end StridedSlice
