import StridedSlice.Selection
import Mathlib.Tactic.Linarith
/-!
# StridedSlice.Proofs.Word

**Words as integers.** The arithmetic of slices runs on signed 64-bit words. An operation
on words gives the exact integer whenever that integer is one that a word can hold
(`FitsWord`); the lemmas here move each operation that the engine uses to integers under
that condition, so that later proofs only count.

* `toInt_ofInt_of_fits` and its companions for `+`, `-`, negation and `*`;
* `toInt_max`, `toInt_min`, which need no condition;
* `positionOf_of_nonneg`: the position that a nonnegative word stands for.
-/

namespace StridedSlice

/-- The integers that a signed word can hold. -/
def FitsWord (i : Int) : Prop := -2 ^ 63 ≤ i ∧ i < 2 ^ 63

theorem fitsWord_toInt (w : Int64) : FitsWord w.toInt :=
  ⟨w.le_toInt, w.toInt_lt⟩

theorem FitsWord.bmod_eq {i : Int} (h : FitsWord i) : i.bmod (2 ^ 64) = i :=
  Int.bmod_eq_of_le h.1 h.2

theorem toInt_ofInt_of_fits {i : Int} (h : FitsWord i) : (Int64.ofInt i).toInt = i :=
  Int64.toInt_ofInt_of_le h.1 h.2

theorem toInt_add_of_fits {a b : Int64} (h : FitsWord (a.toInt + b.toInt)) :
    (a + b).toInt = a.toInt + b.toInt := by
  rw [Int64.toInt_add, h.bmod_eq]

theorem toInt_sub_of_fits {a b : Int64} (h : FitsWord (a.toInt - b.toInt)) :
    (a - b).toInt = a.toInt - b.toInt := by
  rw [Int64.toInt_sub, h.bmod_eq]

theorem toInt_neg_of_fits {a : Int64} (h : FitsWord (-a.toInt)) : (-a).toInt = -a.toInt := by
  rw [Int64.toInt_neg, h.bmod_eq]

theorem toInt_mul_of_fits {a b : Int64} (h : FitsWord (a.toInt * b.toInt)) :
    (a * b).toInt = a.toInt * b.toInt := by
  rw [Int64.toInt_mul, h.bmod_eq]

@[simp] theorem toInt_max (a b : Int64) : (max a b).toInt = max a.toInt b.toInt := by
  change (if a ≤ b then b else a).toInt = _
  by_cases h : a ≤ b
  · rw [if_pos h, max_eq_right (Int64.le_iff_toInt_le.mp h)]
  · rw [if_neg h, max_eq_left (not_le.mp fun h' => h (Int64.le_iff_toInt_le.mpr h')).le]

@[simp] theorem toInt_min (a b : Int64) : (min a b).toInt = min a.toInt b.toInt := by
  change (if a ≤ b then a else b).toInt = _
  by_cases h : a ≤ b
  · rw [if_pos h, min_eq_left (Int64.le_iff_toInt_le.mp h)]
  · rw [if_neg h, min_eq_right (not_le.mp fun h' => h (Int64.le_iff_toInt_le.mpr h')).le]

theorem toInt_neg_one : (-1 : Int64).toInt = -1 := rfl

theorem toInt_sub_one {a : Int64} (h : 0 ≤ a.toInt) : (a - 1).toInt = a.toInt - 1 := by
  have ha := fitsWord_toInt a
  refine toInt_sub_of_fits ?_
  rw [Int64.toInt_one]
  unfold FitsWord at *
  omega

/-- The largest signed word fits every length that a selection distinguishes. -/
theorem toInt_ofNat_of_le_maxLength {len : Nat} (h : len ≤ maxLength) :
    (Int64.ofNat len).toInt = len :=
  Int64.toInt_ofNat_of_lt (by unfold maxLength at h; omega)

namespace Selection

/-- A word that is not negative stands for the position it names. -/
theorem positionOf_of_nonneg {w : Int64} (h : 0 ≤ w.toInt) : positionOf w = w.toInt.toNat :=
  Int64.toNat_toUInt64_of_le (Int64.le_iff_toInt_le.mpr h)

end Selection

end StridedSlice
