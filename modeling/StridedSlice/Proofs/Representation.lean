import StridedSlice.Proofs.Positions
import Mathlib.Data.Rat.Floor
/-!
# StridedSlice.Proofs.Representation

**The representation of selections**: what the four fields of a selection say about each
other and about the positions, in exact integers. Whoever is handed a selection may rely on
`Selection.Represents` without knowing how slices are resolved; in particular a generated
loop may start at `start`, add `step` and stop after `count` rounds.

Everything is read off `Selection.Resolved`. The one step that is not is the count: the
invariant says which terms are counted, and `eq_ceil_of_lt_iff` turns that into a quotient
that is rounded up.
-/

namespace StridedSlice

namespace Selection

/-- A number that counts the multiples of `stride` in a nonempty span is the quotient of the
two, rounded up. -/
theorem eq_ceil_of_lt_iff {span stride : Int} {count : Nat} (hspan : 0 < span)
    (hstride : 0 < stride) (h : ∀ i : Nat, i < count ↔ i * stride < span) :
    (count : Int) = ⌈(span : ℚ) / stride⌉ := by
  have hq : (0 : ℚ) < stride := by exact_mod_cast hstride
  have hpos : 0 < count := (h 0).mpr (by simpa using hspan)
  -- The last multiple that is counted is inside the span, and the next one is not.
  have hlast : ((count - 1 : Nat) : Int) * stride < span := (h (count - 1)).mp (by omega)
  have hnext : span ≤ (count : Int) * stride := by
    have hnot := (h count).not.mp (lt_irrefl count)
    omega
  rw [Nat.cast_sub hpos, Nat.cast_one] at hlast
  symm
  rw [Int.ceil_eq_iff]
  constructor
  · rw [lt_div_iff₀ hq]
    exact_mod_cast hlast
  · rw [div_le_iff₀ hq]
    exact_mod_cast hnext

/-- What the fields of a selection of positions in a sequence of `len` elements say. -/
structure Represents (n : Selection) (len : Nat) : Prop where
  step_ne_zero : n.step.toInt ≠ 0
  /-- Going up, both bounds are in `0 … len`, and the count is that of the span. -/
  ascending : 0 < n.step.toInt →
    (0 ≤ n.start.toInt ∧ n.start.toInt ≤ len) ∧ (0 ≤ n.stop.toInt ∧ n.stop.toInt ≤ len) ∧
      (n.count : Int) =
        if n.start.toInt < n.stop.toInt
        then ⌈((n.stop.toInt - n.start.toInt : Int) : ℚ) / (n.step.toInt : Int)⌉ else 0
  /-- Going down, both bounds are in `-1 … len - 1`, and the count is that of the span. -/
  descending : n.step.toInt < 0 →
    (-1 ≤ n.start.toInt ∧ n.start.toInt ≤ len - 1) ∧
      (-1 ≤ n.stop.toInt ∧ n.stop.toInt ≤ len - 1) ∧
      (n.count : Int) =
        if n.stop.toInt < n.start.toInt
        then ⌈((n.start.toInt - n.stop.toInt : Int) : ℚ) / (-n.step.toInt : Int)⌉ else 0
  count_le : n.count ≤ len
  /-- Every position is its exact term, inside the sequence and before the bound. -/
  position : ∀ i < n.count, ∃ p, n.position? i = some p ∧ p < len ∧
    (p : Int) = n.start.toInt + i * n.step.toInt ∧ Before n.step.toInt n.stop.toInt p
  /-- The positions are strictly monotonic in the direction of the step. -/
  monotonic : ∀ i j p q, i < j → n.position? i = some p → n.position? j = some q →
    (0 < n.step.toInt → p < q) ∧ (n.step.toInt < 0 → q < p)
  /-- None is missed: one step further the bound is reached. -/
  reached : (0 < n.step.toInt → n.stop.toInt ≤ n.start.toInt + n.count * n.step.toInt) ∧
    (n.step.toInt < 0 → n.start.toInt + n.count * n.step.toInt ≤ n.stop.toInt)
  /-- Beyond the count there is no position. -/
  beyond : ∀ i, n.count ≤ i → n.position? i = none
  last : n.last? = if n.count = 0 then none else n.position? (n.count - 1)

theorem last?_eq (n : Selection) :
    n.last? = if n.count = 0 then none else n.position? (n.count - 1) := by
  unfold last?
  split
  · next h => rw [if_pos h]
  · next m h => rw [if_neg (by omega), h, Nat.succ_sub_one]

namespace Resolved

variable {n : Selection} {len : Nat} (h : n.Resolved len)
include h

/-- Going up, the count is that of the span. -/
theorem count_up (hup : 0 < n.step.toInt) :
    (n.count : Int) =
      if n.start.toInt < n.stop.toInt
      then ⌈((n.stop.toInt - n.start.toInt : Int) : ℚ) / (n.step.toInt : Int)⌉ else 0 := by
  have hcount : ∀ i : Nat,
      i < n.count ↔ i * n.step.toInt < n.stop.toInt - n.start.toInt := by
    intro i
    rw [h.lt_count_iff, before_of_pos hup, term]
    omega
  split_ifs with hspan
  · exact eq_ceil_of_lt_iff (by omega) hup hcount
  · have hzero := hcount 0
    omega

/-- Going down, the count is that of the span. -/
theorem count_down (hdown : n.step.toInt < 0) :
    (n.count : Int) =
      if n.stop.toInt < n.start.toInt
      then ⌈((n.start.toInt - n.stop.toInt : Int) : ℚ) / (-n.step.toInt : Int)⌉ else 0 := by
  have hcount : ∀ i : Nat,
      i < n.count ↔ i * -n.step.toInt < n.start.toInt - n.stop.toInt := by
    intro i
    rw [h.lt_count_iff, before_of_neg hdown, term, Int.mul_neg]
    omega
  split_ifs with hspan
  · exact eq_ceil_of_lt_iff (by omega) (by omega) hcount
  · have hzero := hcount 0
    omega

/-- There are no more positions than elements, because no two positions are equal. -/
theorem count_le : n.count ≤ len := by
  have hsub : n.cursor.toList ⊆ List.range len := by
    intro p hp
    exact List.mem_range.mpr (h.cursor_lt hp)
  have hle := (List.subperm_of_subset h.nodup_cursor hsub).length_le
  rwa [Cursor.length_toList, List.length_range] at hle

/-- The first term that is not counted has reached the bound. -/
theorem reached :
    (0 < n.step.toInt → n.stop.toInt ≤ n.term n.count) ∧
      (n.step.toInt < 0 → n.term n.count ≤ n.stop.toInt) := by
  have hnot : ¬ Before n.step.toInt n.stop.toInt (n.term n.count) :=
    fun hbefore => lt_irrefl _ ((h.lt_count_iff n.count).mpr hbefore)
  constructor
  · intro hup
    rw [before_of_pos hup] at hnot
    omega
  · intro hdown
    rw [before_of_neg hdown] at hnot
    omega

/-- Terms follow the direction of the step. -/
theorem position_monotonic {i j p q : Nat} (hij : i < j) (hp : n.position? i = some p)
    (hq : n.position? j = some q) :
    (0 < n.step.toInt → p < q) ∧ (n.step.toInt < 0 → q < p) := by
  obtain ⟨-, hpterm⟩ := h.position?_eq_some_iff.mp hp
  obtain ⟨-, hqterm⟩ := h.position?_eq_some_iff.mp hq
  have hlt : (i : Int) < j := by exact_mod_cast hij
  unfold term at hpterm hqterm
  constructor
  · intro hup
    have hmul := mul_lt_mul_of_pos_right hlt hup
    omega
  · intro hdown
    have hmul := mul_lt_mul_of_neg_right hlt hdown
    omega

/-- Each position is its term. -/
theorem position_exact {i : Nat} (hi : i < n.count) :
    ∃ p, n.position? i = some p ∧ p < len ∧
      (p : Int) = n.start.toInt + i * n.step.toInt ∧ Before n.step.toInt n.stop.toInt p := by
  obtain ⟨p, hp⟩ := exists_position hi
  have hterm := (h.position?_eq_some_iff.mp hp).2
  refine ⟨p, hp, h.position_lt hp, hterm, ?_⟩
  rw [hterm]
  exact (h.lt_count_iff i).mp hi

theorem represents : n.Represents len where
  step_ne_zero := h.step_ne_zero
  ascending := by
    intro hup
    rcases h.bounds with ⟨-, hstart, hstop⟩ | ⟨hdown, -⟩
    · exact ⟨hstart, hstop, h.count_up hup⟩
    · omega
  descending := by
    intro hdown
    rcases h.bounds with ⟨hup, -⟩ | ⟨-, hstart, hstop⟩
    · omega
    · exact ⟨hstart, hstop, h.count_down hdown⟩
  count_le := h.count_le
  position := fun _ hi => h.position_exact hi
  monotonic := fun _ _ _ _ hij hp hq => h.position_monotonic hij hp hq
  reached := h.reached
  beyond := fun _ hi => position?_eq_none_iff.mpr hi
  last := n.last?_eq

end Resolved

end Selection

/-- **Every resolved slice is a representation** of positions in the sequence, whatever its
parts are and whatever the length is, as far as a selection distinguishes lengths. -/
theorem Slice.resolve_represents (s : Slice) (len : Nat) (h : s.step ≠ some 0) :
    ∃ n, s.resolve len = .ok n ∧ n.Represents (min len maxLength) := by
  obtain ⟨n, hn, hresolved, -⟩ := Slice.exists_resolve len h
  exact ⟨n, hn, hresolved.represents⟩

/-- The least step on the longest sequence that an unsigned word can measure. -/
theorem Slice.resolve_represents_extreme :
    ∃ n, Slice.resolve ⟨some Int64.maxValue, some Int64.minValue, some Int64.minValue⟩
        18446744073709551615 = .ok n ∧
      n.Represents (min 18446744073709551615 maxLength) :=
  Slice.resolve_represents _ _ (by decide)

end StridedSlice
