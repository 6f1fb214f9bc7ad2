import StridedSlice.Cursor
import StridedSlice.Proofs.Resolve
import Mathlib.Data.List.Nodup
import Mathlib.Tactic.NormNum
/-!
# StridedSlice.Proofs.Positions

**The positions of a resolved selection**: the terms of its progression, each of them inside
the sequence and no two of them equal. The word arithmetic of `Selection.position?` and of
`Cursor` may wrap on the way, but every position that comes out is the exact term.

The main statement is at the end: for every slice and every length, resolving and walking
give what the loop of the reference model gives.
-/

namespace StridedSlice

/-! ### Cursors as lists -/

namespace Cursor

theorem listFrom_eq_map (step : Int64) (n : Nat) (front : Int64) :
    listFrom step n front =
      (List.range n).map fun i => Selection.positionOf (front + Int64.ofNat i * step) := by
  induction n generalizing front with
  | zero => rfl
  | succ n ih =>
      rw [listFrom, ih, List.range_succ_eq_map, List.map_cons, List.map_map]
      congr 1
      · simp
      · refine List.map_congr_left fun i _ => ?_
        have hnext : front + step + Int64.ofNat i * step = front + Int64.ofNat (i + 1) * step := by
          rw [Int64.ofNat_add, Int64.add_mul, Int64.add_assoc, Int64.add_comm (_ * step)]
          simp
        simp only [Function.comp_apply, Nat.succ_eq_add_one, hnext]

theorem collect_next (n : Nat) (c : Cursor) (acc : Array Nat) :
    (collect next n c acc).toList = acc.toList ++ c.toList.take n := by
  induction n generalizing c acc with
  | zero => simp [collect]
  | succ n ih =>
      obtain ⟨front, step, remaining⟩ := c
      cases remaining with
      | zero => simp [collect, next, toList, listFrom]
      | succ r => simp [collect, next, ih, toList, listFrom]

/-- Taking positions one after the other takes the front of the list. -/
theorem toList_take (c : Cursor) (n : Nat) : (c.take n).toList = c.toList.take n := by
  simp [take, collect_next]

/-- A cursor ends by itself: asking for more than there is changes nothing. -/
theorem toList_take_of_le {c : Cursor} {n : Nat} (h : c.remaining ≤ n) :
    (c.take n).toList = c.toList := by
  rw [toList_take, List.take_of_length_le (by simpa using h)]

end Cursor

/-! ### Terms as positions -/

namespace Selection

/-- A cursor lists the positions of its selection. -/
theorem getElem?_toList_cursor (n : Selection) (i : Nat) :
    n.cursor.toList[i]? = n.position? i := by
  rw [cursor, Cursor.toList, Cursor.listFrom_eq_map, List.getElem?_map]
  unfold position?
  by_cases hi : i < n.count
  · rw [if_pos hi, List.getElem?_range hi]
    rfl
  · rw [if_neg hi, List.getElem?_eq_none (by simpa using hi)]
    rfl

theorem length_toList_cursor (n : Selection) : n.cursor.toList.length = n.count :=
  Cursor.length_toList n.cursor

/-- Asking for as many positions as there are yields them all. -/
theorem toList_positions (n : Selection) : n.positions.toList = n.cursor.toList :=
  Cursor.toList_take_of_le le_rfl

/-- Every counted index has a position. -/
theorem exists_position {n : Selection} {i : Nat} (hi : i < n.count) :
    ∃ p, n.position? i = some p :=
  ⟨_, if_pos hi⟩

theorem mem_toList_cursor_iff {n : Selection} {p : Nat} :
    p ∈ n.cursor.toList ↔ ∃ i, n.position? i = some p := by
  rw [List.mem_iff_getElem?]
  simp only [getElem?_toList_cursor]


/-- The terms of a progression on words are its exact terms, up to the wrap of a word. -/
theorem start_add_mul (n : Selection) (i : Nat) :
    n.start + Int64.ofNat i * n.step = Int64.ofInt (n.term i) := by
  simp [term, ← Int64.ofInt_eq_ofNat]

namespace Resolved

variable {n : Selection} {len : Nat} (h : n.Resolved len)
include h

theorem step_ne_zero : n.step.toInt ≠ 0 := by
  have hbounds := h.bounds
  omega

theorem term_nonneg {i : Nat} (hi : i < n.count) : 0 ≤ n.term i := by
  have hbefore := (h.lt_count_iff i).mp hi
  have hi0 : (0 : Int) ≤ i := Int.natCast_nonneg i
  rcases h.bounds with ⟨hup, hstart, -⟩ | ⟨hdown, -, hstop⟩
  · have hmul : 0 ≤ i * n.step.toInt := Int.mul_nonneg hi0 hup.le
    unfold term
    omega
  · rw [before_of_neg hdown] at hbefore
    omega

theorem term_lt {i : Nat} (hi : i < n.count) : n.term i < len := by
  have hbefore := (h.lt_count_iff i).mp hi
  have hi0 : (0 : Int) ≤ i := Int.natCast_nonneg i
  rcases h.bounds with ⟨hup, -, hstop⟩ | ⟨hdown, hstart, -⟩
  · rw [before_of_pos hup] at hbefore
    omega
  · have hmul : i * n.step.toInt ≤ 0 := Int.mul_nonpos_of_nonneg_of_nonpos hi0 hdown.le
    unfold term
    omega

theorem term_injective : Function.Injective n.term := by
  intro i j hij
  have hmul : (i : Int) * n.step.toInt = j * n.step.toInt := by
    unfold term at hij
    omega
  exact_mod_cast mul_right_cancel₀ h.step_ne_zero hmul

theorem fits_term {i : Nat} (hi : i < n.count) : FitsWord (n.term i) := by
  have hnonneg := h.term_nonneg hi
  have hlt := h.term_lt hi
  have hlen := h.len_le
  unfold maxLength at hlen
  unfold FitsWord
  omega

/-- A counted term is computed exactly. -/
theorem positionOf_term {i : Nat} (hi : i < n.count) :
    positionOf (n.start + Int64.ofNat i * n.step) = (n.term i).toNat := by
  have hword : (n.start + Int64.ofNat i * n.step).toInt = n.term i := by
    rw [start_add_mul, toInt_ofInt_of_fits (h.fits_term hi)]
  rw [positionOf_of_nonneg (hword ▸ h.term_nonneg hi), hword]

/-- The `i`-th position is the `i`-th term, as long as it is counted. -/
theorem position?_eq_some_iff {i p : Nat} :
    n.position? i = some p ↔ i < n.count ∧ (p : Int) = n.term i := by
  unfold position?
  by_cases hi : i < n.count
  · have hnonneg := h.term_nonneg hi
    rw [if_pos hi, h.positionOf_term hi, Option.some.injEq]
    omega
  · rw [if_neg hi]
    exact ⟨fun hp => absurd hp (by simp), fun hp => absurd hp.1 hi⟩

/-- Every selected position lies inside the sequence. -/
theorem position_lt {i p : Nat} (hp : n.position? i = some p) : p < len := by
  obtain ⟨hi, hterm⟩ := h.position?_eq_some_iff.mp hp
  have hlt := h.term_lt hi
  omega

theorem cursor_lt {p : Nat} (hp : p ∈ n.cursor.toList) : p < len := by
  obtain ⟨i, hi⟩ := mem_toList_cursor_iff.mp hp
  exact h.position_lt hi

/-- A cursor lists the terms in order. -/
theorem toList_cursor :
    n.cursor.toList = (List.range n.count).map fun i => (n.term i).toNat := by
  rw [cursor, Cursor.toList, Cursor.listFrom_eq_map]
  refine List.map_congr_left fun i hi => ?_
  exact h.positionOf_term (List.mem_range.mp hi)

theorem nodup_cursor : n.cursor.toList.Nodup := by
  rw [h.toList_cursor]
  refine List.Nodup.map_on (fun i hi j hj hij => h.term_injective ?_) List.nodup_range
  have hi0 := h.term_nonneg (List.mem_range.mp hi)
  have hj0 := h.term_nonneg (List.mem_range.mp hj)
  omega

/-- With a step of one, the first position is the start even if nothing is selected. -/
theorem positionOf_start_of_contiguous (hone : n.isContiguous = true) :
    (positionOf n.start : Int) = n.start.toInt := by
  have hstep : n.step.toInt = 1 := by
    rw [eq_of_beq hone]
    rfl
  have hbounds := h.bounds
  rw [positionOf_of_nonneg (by omega)]
  omega

/-- With a step of one, the positions are a range inside the sequence. It may be the empty
one at the very end. -/
theorem toList_cursor_of_contiguous (hone : n.isContiguous = true) :
    n.cursor.toList = List.range' (positionOf n.start) n.count ∧
      positionOf n.start + n.count ≤ len := by
  have hstep : n.step.toInt = 1 := by
    rw [eq_of_beq hone]
    rfl
  have hbounds := h.bounds
  have hstart := h.positionOf_start_of_contiguous hone
  have hfirst : positionOf n.start = n.start.toInt.toNat := by omega
  refine ⟨?_, ?_⟩
  · rw [h.toList_cursor, List.range'_eq_map_range, hfirst]
    refine List.map_congr_left fun i _ => ?_
    unfold term
    rw [hstep]
    omega
  · -- The last term is before the bound, and an empty selection starts inside anyway.
    rcases Nat.eq_zero_or_pos n.count with hzero | hpos
    · omega
    · have hlast := (h.lt_count_iff (n.count - 1)).mp (by omega)
      rw [before_of_pos (by omega)] at hlast
      unfold term at hlast
      rw [hstep] at hlast
      omega

/-- As integers, the positions are the terms themselves. -/
theorem toList_cursor_cast :
    n.cursor.toList.map ((↑) : Nat → Int) = (List.range n.count).map n.term := by
  rw [h.toList_cursor, List.map_map]
  refine List.map_congr_left fun i hi => ?_
  exact Int.toNat_of_nonneg (h.term_nonneg (List.mem_range.mp hi))

/-- A selection lists what a walk with its step and its bounds lists. -/
theorem map_term_eq_walk :
    (List.range n.count).map n.term =
      Reference.walk n.step.toInt n.stop.toInt n.start.toInt :=
  (Reference.walk_eq_map h.lt_count_iff).symm

end Resolved

end Selection

/-! ### Agreement with the reference model -/

/-- A step that cannot be negated is raised without an effect: one such step leaves every
sequence whose length is a word, and so does the raised one. -/
theorem Reference.walk_max_step {len : Nat} (hlen : len ≤ maxLength) (step : Int)
    (start stop : Option Int) :
    walk (max step (-(2 ^ 63 - 1))) (bound step len stop) (first step len start) =
      walk step (bound step len stop) (first step len start) := by
  by_cases hstep : -(2 ^ 63 - 1) ≤ step
  · rw [max_eq_left hstep]
  · -- Both steps reach past the bound at once, so neither walk has a second term.
    have hneg : step < 0 := by omega
    obtain ⟨⟨-, hfirst⟩, hbound, -⟩ := bounds_down hneg (Int.natCast_nonneg len) start stop
    unfold maxLength at hlen
    rw [max_eq_right (by omega), walk_of_overshoot (by omega) (by omega),
      walk_of_overshoot hneg (by omega)]

/-- **Agreement with the reference model.** Resolving a slice without a zero step and taking
positions from a cursor until it ends, however many are asked for, yields the positions of
the reference model in its order. All lengths above the largest word resolve like that word.
A slice is refused exactly when its step is zero. -/
theorem resolve_positions_eq_reference (s : Slice) (len : Nat) :
    (len ≤ maxLength → s.step ≠ some 0 →
        ∃ n positions, s.resolve len = .ok n ∧
          Reference.indices (s.start.map Int64.toInt) (s.stop.map Int64.toInt)
            (s.step.map Int64.toInt) len = some positions ∧
          n.positions.toList.map ((↑) : Nat → Int) = positions ∧
          ∀ asked, n.count ≤ asked → (n.cursor.take asked).toList = n.positions.toList) ∧
      (maxLength < len → s.resolve len = s.resolve maxLength) ∧
      ∀ e, s.resolve len = .error e ↔ s.step = some 0 ∧ e = .zeroStep := by
  refine ⟨fun hlen hstep => ?_, fun hlen => ?_, fun e => Slice.resolve_eq_error_iff⟩
  · obtain ⟨n, hn, hresolved, hn_step, hn_start, hn_stop⟩ := Slice.exists_resolve len hstep
    have heff : Slice.effectiveLength len = len := Nat.min_eq_left hlen
    rw [heff] at hresolved hn_start hn_stop
    have hzero : s.writtenStep ≠ 0 := fun h0 => hstep (Slice.writtenStep_eq_zero_iff.mp h0)
    refine ⟨n, _, hn, if_neg hzero, ?_, fun asked hasked => ?_⟩
    · rw [n.toList_positions, hresolved.toList_cursor_cast, hresolved.map_term_eq_walk,
        hn_step, hn_start, hn_stop]
      -- The bounds are those of the written step, the walk may be that of the raised one.
      exact Reference.walk_max_step hlen _ _ _
    · rw [n.toList_positions]
      exact Cursor.toList_take_of_le hasked
  · unfold Slice.resolve Slice.effectiveLength
    rw [Nat.min_eq_right hlen.le, Nat.min_self]

/-- The least word is a step like any other: it selects one position, the last one. -/
theorem resolve_positions_min_step :
    ∃ n positions, Slice.resolve ⟨none, none, some Int64.minValue⟩ 10 = .ok n ∧
      Reference.indices none none (some (-2 ^ 63)) 10 = some positions ∧
      n.positions.toList.map ((↑) : Nat → Int) = positions ∧
      ∀ asked, n.count ≤ asked → (n.cursor.take asked).toList = n.positions.toList :=
  (resolve_positions_eq_reference ⟨none, none, some Int64.minValue⟩ 10).1 (by decide) (by decide)

end StridedSlice
