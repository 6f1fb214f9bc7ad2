import StridedSlice.Proofs.Resume
import Mathlib.Data.Int.ModEq
/-!
# StridedSlice.Proofs.Modular

**Integers of any type become those of another by their low bits.** A value takes the way
through a scalar, that is through a signed or an unsigned word of 64 bits. Both hold every value
of the types that use them, so nothing is lost before the last step, which reduces the integer
modulo the width of the target (`ElementType.ofScalar_toScalar_int`).

* `IntType.inRange_toInt`, `IntType.eq_of_modEq`: the values of a type are one integer out of
  each class modulo its width;
* `IntType.toInt_ofInt_modEq`: the low bits of an integer are in its class;
* `ElementType.convert_int`: a conversion takes the low bits of the integer.
-/

namespace StridedSlice

/-! ### Integers in range -/

namespace IntType

variable {t : IntType} {i j : Int}

/-- An integer that a type has a value for. -/
def InRange (t : IntType) (i : Int) : Prop := t.least ≤ i ∧ i ≤ t.greatest

instance (t : IntType) (i : Int) : Decidable (t.InRange i) := inferInstanceAs (Decidable (_ ∧ _))

theorem two_pow_bits (t : IntType) : (2 : Int) ^ t.bits = 2 * 2 ^ (t.bits - 1) := by
  rw [← pow_succ']
  cases t <;> rfl

/-- A range has as many integers as there are patterns. -/
theorem greatest_sub_least (t : IntType) : t.greatest - t.least = 2 ^ t.bits - 1 := by
  have hbits := t.two_pow_bits
  unfold greatest least
  simp only [Nat.pow_eq, Nat.cast_pow, Nat.cast_ofNat]
  split <;> omega

theorem inRange_toInt (t : IntType) (v : t.Value) : t.InRange (t.toInt v) := by
  unfold InRange least greatest toInt
  simp only [Nat.pow_eq, Nat.cast_pow, Nat.cast_ofNat]
  split
  · have hhigh : BitVec.toInt v < 2 ^ (t.bits - 1) := BitVec.toInt_lt
    exact ⟨BitVec.le_toInt v, by omega⟩
  · have hhigh : ((BitVec.toNat v : Nat) : Int) < 2 ^ t.bits := by exact_mod_cast BitVec.isLt v
    exact ⟨Int.natCast_nonneg _, by omega⟩

/-- Two integers in range that agree modulo the width are one. -/
theorem eq_of_modEq (hi : t.InRange i) (hj : t.InRange j) (h : i ≡ j [ZMOD 2 ^ t.bits]) :
    i = j := by
  have hwidth := t.greatest_sub_least
  obtain ⟨hilow, hihigh⟩ := hi
  obtain ⟨hjlow, hjhigh⟩ := hj
  have hzero : j - i = 0 := Int.eq_zero_of_abs_lt_dvd h.dvd (abs_lt.mpr ⟨by omega, by omega⟩)
  omega

/-- The low bits of an integer stand for one that agrees with it modulo the width. -/
theorem toInt_ofInt_modEq (t : IntType) (i : Int) : t.toInt (t.ofInt i) ≡ i [ZMOD 2 ^ t.bits] := by
  unfold toInt ofInt
  split
  · rw [BitVec.toInt_ofInt, ← Nat.cast_ofNat, ← Nat.cast_pow]
    exact Int.bmod_emod
  · have hpos : (0 : Int) < (2 ^ t.bits : Nat) := by exact_mod_cast Nat.two_pow_pos t.bits
    rw [BitVec.toNat_ofInt, Int.toNat_of_nonneg (Int.emod_nonneg _ hpos.ne'), ← Nat.cast_ofNat,
      ← Nat.cast_pow]
    exact Int.mod_modEq _ _

theorem toInt_ofInt_of_inRange (h : t.InRange i) : t.toInt (t.ofInt i) = i :=
  eq_of_modEq (t.inRange_toInt _) h (t.toInt_ofInt_modEq i)

/-- The low bits depend on the class of the integer only. -/
theorem ofInt_eq_of_modEq (h : i ≡ j [ZMOD 2 ^ t.bits]) : t.ofInt i = t.ofInt j := by
  have hclass : t.toInt (t.ofInt i) ≡ t.toInt (t.ofInt j) [ZMOD 2 ^ t.bits] :=
    (t.toInt_ofInt_modEq i).trans (h.trans (t.toInt_ofInt_modEq j).symm)
  rw [← t.ofInt_toInt (t.ofInt i), eq_of_modEq (t.inRange_toInt _) (t.inRange_toInt _) hclass,
    t.ofInt_toInt]

/-- A narrower type takes the same low bits after a wider one. -/
theorem ofInt_toInt_ofInt {u : IntType} (h : u.bits ≤ t.bits) (i : Int) :
    u.ofInt (t.toInt (t.ofInt i)) = u.ofInt i :=
  ofInt_eq_of_modEq ((t.toInt_ofInt_modEq i).of_dvd (pow_dvd_pow 2 h))

end IntType

/-! ### Conversions -/

namespace ElementType

/-- A value of an integer type goes through a word of 64 bits as the integer that it is. -/
theorem toScalar_int (s : IntType) (v : s.Value) :
    (∃ w, (ElementType.int s).toScalar v = .int w ∧ w.toInt = s.toInt v) ∨
      ∃ w, (ElementType.int s).toScalar v = .uint w ∧ (w.toNat : Int) = s.toInt v := by
  simp only [toScalar]
  cases hsigned : s.isSigned with
  | true => exact .inl ⟨_, rfl, toInt_ofInt_of_fits (IntType.fitsWord_toInt hsigned v)⟩
  | false =>
      refine .inr ⟨_, rfl, ?_⟩
      rw [UInt64.toNat_ofNat_of_lt' (IntType.toNat_lt v), IntType.toInt, hsigned]
      rfl

/-- On the way through a scalar only the last step drops bits. -/
theorem ofScalar_toScalar_int (s t : IntType) (v : s.Value) :
    (ElementType.int t).ofScalar ((ElementType.int s).toScalar v) = t.ofInt (s.toInt v) := by
  rcases toScalar_int s v with ⟨w, hw, hvalue⟩ | ⟨w, hw, hvalue⟩
  · rw [hw, ← hvalue]
    rfl
  · rw [hw, ← hvalue]
    rfl

/-- A conversion between integer types takes the low bits. -/
theorem convert_int (s t : IntType) (v : s.Value) :
    convert (.int s) (.int t) v = t.ofInt (s.toInt v) := by
  by_cases h : s = t
  · subst h
    rw [convert_self, s.ofInt_toInt]
  · rw [convert_of_ne (fun heq => h (ElementType.int.inj heq)), ofScalar_toScalar_int]

end ElementType

/-- **Integer conversions are modular.** What a value of the integer type `s` becomes in the
integer type `t`, directly or on the way through a word of 64 bits, is the only integer in the
range of `t` that agrees with it modulo `2 ^ t.bits`. So a value in that range is kept, a type
that is no wider than `t` makes the same of the value before and after, and a value comes back
from a type that is no narrower than its own. -/
theorem integer_conversion_modular (s t : IntType) (v : s.Value) :
    (ElementType.int t).ofScalar ((ElementType.int s).toScalar v) =
        ElementType.convert (.int s) (.int t) v ∧
      (∀ i, i = t.toInt (ElementType.convert (.int s) (.int t) v) ↔
        t.InRange i ∧ i ≡ s.toInt v [ZMOD 2 ^ t.bits]) ∧
      (t.InRange (s.toInt v) →
        t.toInt (ElementType.convert (.int s) (.int t) v) = s.toInt v) ∧
      (∀ u : IntType, u.bits ≤ t.bits →
        ElementType.convert (.int t) (.int u) (ElementType.convert (.int s) (.int t) v) =
          ElementType.convert (.int s) (.int u) v) ∧
      (s.bits ≤ t.bits →
        ElementType.convert (.int t) (.int s) (ElementType.convert (.int s) (.int t) v) = v) := by
  have hclass := t.toInt_ofInt_modEq (s.toInt v)
  simp only [ElementType.convert_int]
  refine ⟨ElementType.ofScalar_toScalar_int s t v, fun i => ⟨?_, ?_⟩,
    IntType.toInt_ofInt_of_inRange, fun u hu => IntType.ofInt_toInt_ofInt hu _, fun hs => ?_⟩
  · rintro rfl
    exact ⟨t.inRange_toInt _, hclass⟩
  · rintro ⟨hrange, hi⟩
    exact IntType.eq_of_modEq hrange (t.inRange_toInt _) (hi.trans hclass.symm)
  · rw [IntType.ofInt_toInt_ofInt hs, s.ofInt_toInt]

/-- The greatest unsigned word is minus one among the signed words of all widths, and comes back
from those of its own width. What is in range is kept, here a hundred. -/
theorem integer_conversion_modular_uint64 :
    IntType.int64.toInt (ElementType.convert (.int .uint64) (.int .int64) (-1#64)) = -1 ∧
      ElementType.convert (.int .int64) (.int .int8)
          (ElementType.convert (.int .uint64) (.int .int64) (-1#64)) =
        ElementType.convert (.int .uint64) (.int .int8) (-1#64) ∧
      ElementType.convert (.int .int64) (.int .uint64)
          (ElementType.convert (.int .uint64) (.int .int64) (-1#64)) = (-1#64 : BitVec 64) ∧
      IntType.int8.toInt (ElementType.convert (.int .uint64) (.int .int8) (100#64)) = 100 := by
  obtain ⟨-, hunique, -, hnarrow, hback⟩ :=
    integer_conversion_modular .uint64 .int64 (-1#64)
  refine ⟨((hunique (-1)).mpr ⟨by decide, by decide⟩).symm, hnarrow .int8 (by decide),
    hback (by decide), ?_⟩
  exact (integer_conversion_modular .uint64 .int8 (100#64)).2.2.1 (by decide)

end StridedSlice
