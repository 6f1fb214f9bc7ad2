import StridedSlice.Proofs.Modular
import StridedSlice.Proofs.Rounding
/-!
# StridedSlice.Proofs.Nearest

**Conversions to floating point numbers round once.** The result is told by distances alone: no
number of the format is nearer to the exact value, and if another one is as near, the significand
is even (`Binary.IsNearest`). Together with the sign bit, which tells the two zeros apart, this
leaves one pattern (`Binary.IsNearest.unique`).

`BinaryFormat.Rounds` speaks of the middles on both sides of a magnitude instead. A magnitude
between its middles is the nearest one of its sign (`BinaryFormat.Rounds.distance_le`), and a
number of the other sign is no nearer than zero is (`Binary.isNearest_of_rounds`). What rounds to
infinity are the numbers from the last middle on (`BinaryFormat.Rounds.lt_infinity_iff`).
-/

namespace StridedSlice

/-! ### Distances to magnitudes -/

namespace BinaryFormat

variable {f : BinaryFormat} {a : ℚ} {m k : Nat}

/-- No magnitude is nearer than the rounded one. -/
theorem Rounds.distance_le (h : f.Rounds a m) (k : Nat) : |a - f.value m| ≤ |a - f.value k| := by
  rcases lt_trichotomy k m with hlt | rfl | hlt
  · have hvalue := f.value_strictMono hlt
    have hhalf := h.half_le hlt
    rw [abs_of_nonneg (by linarith : 0 ≤ a - f.value k), abs_le]
    exact ⟨by linarith, by linarith⟩
  · exact le_rfl
  · have hvalue := f.value_strictMono hlt
    have hhalf := h.le_half hlt
    rw [abs_of_nonpos (by linarith : a - f.value k ≤ 0), abs_le]
    exact ⟨by linarith, by linarith⟩

/-- Half-way between the values of two magnitudes. -/
theorem eq_half_of_distance_eq (hne : k ≠ m) (h : |a - f.value k| = |a - f.value m|) :
    a = (f.value k + f.value m) / 2 := by
  rcases abs_eq_abs.mp h with heq | heq
  · exact absurd (f.value_strictMono.injective (by linarith)) hne
  · linarith

/-- If another magnitude is as near, the rounded one is even. -/
theorem Rounds.even_of_distance_eq (h : f.Rounds a m) (hne : k ≠ m)
    (heq : |a - f.value k| = |a - f.value m|) : Even m := by
  have hhalf := eq_half_of_distance_eq hne heq
  rcases hne.lt_or_gt with hlt | hlt
  · obtain ⟨j, rfl⟩ := Nat.exists_eq_add_one.mpr (Nat.zero_lt_of_lt hlt)
    have hmono := f.value_strictMono.monotone (Nat.lt_succ_iff.mp hlt)
    have hle : a ≤ f.middle j := by
      unfold middle
      linarith
    exact (h.above j rfl).2 (le_antisymm hle (h.above j rfl).1)
  · have hmono := f.value_strictMono.monotone (Nat.succ_le_of_lt hlt)
    have hle : f.middle m ≤ a := by
      unfold middle
      linarith
    exact h.below.2 (le_antisymm h.below.1 hle)

theorem even_infinity (hf : 0 < f.fractionBits) : Even f.infinity :=
  (Nat.even_pow.mpr ⟨even_two, hf.ne'⟩).mul_left _

/-- **Overflow**: what rounds to a number lies below the last middle. -/
theorem Rounds.lt_infinity_iff (h : f.Rounds a m) (hf : 0 < f.fractionBits)
    (hinf : 0 < f.infinity) : m < f.infinity ↔ a < f.middle (f.infinity - 1) := by
  obtain ⟨last, hlast⟩ := Nat.exists_eq_add_one.mpr hinf
  have hodd : ¬ Even last := Nat.even_add_one.mp (hlast ▸ even_infinity hf)
  rw [hlast, Nat.add_sub_cancel, Nat.lt_succ_iff]
  constructor
  · intro hle
    rcases hle.lt_or_eq with hlt | rfl
    · exact h.below.1.trans_lt (f.middle_strictMono hlt)
    · exact h.lt_middle hodd
  · intro hlt
    by_contra hgt
    obtain ⟨j, rfl⟩ := Nat.exists_eq_add_one.mpr (Nat.zero_lt_of_lt (not_le.mp hgt))
    have hmono := f.middle_strictMono.monotone (Nat.lt_succ_iff.mp (not_le.mp hgt))
    exact absurd ((h.above j rfl).1.trans_lt hlt) hmono.not_gt

/-- The last middle of 32 bits. -/
theorem middle_last_binary32 : binary32.middle (binary32.infinity - 1) = 2 ^ 128 - 2 ^ 103 := by
  have hmiddle :=
    middle_add_mul (f := binary32) (r := 2 ^ 24 - 1) (t := 253) (by decide) (by decide)
  refine Eq.trans ?_ (hmiddle.trans ?_)
  · rfl
  · show (((2 * (2 ^ 24 - 1) + 1 : ℕ) : ℚ)) * 2 ^ (103 : ℤ) = 2 ^ 128 - 2 ^ 103
    norm_num

/-- Words of 64 bits do not overflow. -/
theorem Rounds.lt_infinity_of_le (h : f.Rounds a m) {e : ℕ} (hleast : f.leastExponent + e = 64)
    (hmost : 2 ^ (64 : ℤ) < f.value f.infinity) (ha : a ≤ 2 ^ (64 : ℤ)) : m < f.infinity := by
  obtain ⟨k, hk⟩ := f.exists_value_eq e (s := 1) (Nat.one_lt_two_pow (Nat.succ_ne_zero _))
  rw [hleast, Nat.cast_one, one_mul] at hk
  rw [← f.value_strictMono.lt_iff_lt]
  calc f.value m
      _ ≤ f.value k := h.value_le (hk ▸ ha)
      _ < f.value f.infinity := hk ▸ hmost

end BinaryFormat

/-! ### The nearest pattern -/

namespace Binary

variable {f : BinaryFormat} {q a : ℚ} {x y : Binary f}

/-- A number with a sign. -/
def withSign (negative : Bool) (a : ℚ) : ℚ := if negative then -a else a

/-- The value of a pattern. Infinity counts as the number that would come after the greatest one,
so that the values are in order. -/
def value (x : Binary f) : ℚ := withSign x.isNegative (f.value x.magnitude)

/-- The significand of a number is even. -/
def HasEvenSignificand (x : Binary f) : Prop :=
  ∃ negative significand exponent,
    x.content = .finite negative significand exponent ∧ Even significand

/-- **Nearest**: a number of the format, than which no other is nearer to `q`. If another one is
as near, its significand is even. -/
structure IsNearest (q : ℚ) (x : Binary f) : Prop where
  finite : x.IsFinite
  le : ∀ y : Binary f, y.IsFinite → |q - x.value| ≤ |q - y.value|
  even : ∀ y : Binary f, y.IsFinite → |q - y.value| = |q - x.value| → y.value ≠ x.value →
    x.HasEvenSignificand

theorem abs_sub_value (ha : 0 ≤ a) (negative : Bool) (y : Binary f) :
    |withSign negative a - y.value| =
      if y.isNegative = negative then |a - f.value y.magnitude| else a + f.value y.magnitude := by
  have hsum : 0 ≤ a + f.value y.magnitude := add_nonneg ha (f.value_nonneg _)
  rw [value]
  generalize y.isNegative = sign
  match negative, sign with
  | false, false => rfl
  | false, true =>
      show |a - -f.value y.magnitude| = a + f.value y.magnitude
      rw [sub_neg_eq_add, abs_of_nonneg hsum]
  | true, false =>
      show |-a - f.value y.magnitude| = a + f.value y.magnitude
      rw [← neg_add', abs_neg, abs_of_nonneg hsum]
  | true, true =>
      show |-a - -f.value y.magnitude| = |a - f.value y.magnitude|
      rw [← neg_sub', abs_neg]

/-- A significand is as even as its magnitude. -/
theorem hasEvenSignificand_iff (hf : 0 < f.fractionBits) (hx : x.IsFinite) :
    x.HasEvenSignificand ↔ Even x.magnitude := by
  obtain ⟨r, t, hmagnitude, -, -, hcontent⟩ := content_eq_finite hx
  have hhidden : Even (t * 2 ^ f.fractionBits) := (Nat.even_pow.mpr ⟨even_two, hf.ne'⟩).mul_left t
  rw [hmagnitude, Nat.even_add, iff_true_right hhidden]
  constructor
  · rintro ⟨negative, significand, exponent, heq, heven⟩
    rw [hcontent] at heq
    cases heq
    exact heven
  · exact fun heven => ⟨_, _, _, hcontent, heven⟩

/-- **A rounded magnitude** is the nearest number, of both signs. -/
theorem isNearest_of_rounds (hf : 0 < f.fractionBits) (ha : 0 ≤ a) (hx : x.IsFinite)
    (h : f.Rounds a x.magnitude) : x.IsNearest (withSign x.isNegative a) where
  finite := hx
  le := by
    intro y _
    rw [abs_sub_value ha, abs_sub_value ha, if_pos rfl]
    split_ifs
    · exact h.distance_le y.magnitude
    · -- Zero is between the two.
      have hzero := h.distance_le 0
      rw [f.value_zero, sub_zero, abs_of_nonneg ha] at hzero
      exact hzero.trans (le_add_of_nonneg_right (f.value_nonneg _))
  even := by
    intro y _ heq hne
    rw [hasEvenSignificand_iff hf hx]
    rw [abs_sub_value ha, abs_sub_value ha, if_pos rfl] at heq
    split_ifs at heq with hsign
    · refine h.even_of_distance_eq (fun hmagnitude => hne ?_) heq
      rw [value, value, hsign, hmagnitude]
    · -- Then the other number is a zero, which has both signs.
      have hzero := h.distance_le 0
      have hnonneg := f.value_nonneg y.magnitude
      rw [f.value_zero, sub_zero, abs_of_nonneg ha] at hzero
      have hy : f.value y.magnitude = 0 := by linarith
      have hdistance : |a - f.value 0| = |a - f.value x.magnitude| := by
        rw [f.value_zero, sub_zero, abs_of_nonneg ha, ← heq, hy, add_zero]
      refine h.even_of_distance_eq (fun hmagnitude => hne ?_) hdistance
      rw [value, value, hy, ← hmagnitude, f.value_zero]
      simp [withSign]

theorem abs_sub_withSign (q a : ℚ) (negative : Bool) :
    |q - withSign negative a| = |withSign negative q - a| := by
  cases negative with
  | false => rfl
  | true =>
      show |q - -a| = |-q - a|
      rw [← abs_neg, neg_sub', neg_neg]

/-- Two nearest numbers have even magnitudes if they differ, so there is one between them that is
nearer. -/
theorem IsNearest.magnitude_le (hf : 0 < f.fractionBits) (hx : x.IsNearest q) (hy : y.IsNearest q)
    (hsign : x.isNegative = y.isNegative) : y.magnitude ≤ x.magnitude := by
  by_contra hgt
  have hlt : x.magnitude < y.magnitude := not_le.mp hgt
  have hxy : |q - y.value| = |q - x.value| := le_antisymm (hy.le x hx.finite) (hx.le y hy.finite)
  have hdistance : |withSign x.isNegative q - f.value y.magnitude| =
      |withSign x.isNegative q - f.value x.magnitude| := by
    rw [← abs_sub_withSign, ← abs_sub_withSign]
    simpa only [value, hsign] using hxy
  have hhalf := BinaryFormat.eq_half_of_distance_eq hlt.ne' hdistance
  have hne : y.value ≠ x.value := by
    intro heq
    rw [value, value, hsign] at heq
    have hvalue : f.value y.magnitude = f.value x.magnitude := by
      cases hy' : y.isNegative <;> simpa [withSign, hy'] using heq
    exact hlt.ne' (f.value_strictMono.injective hvalue)
  have hxeven := (hasEvenSignificand_iff hf hx.finite).mp (hx.even y hy.finite hxy hne)
  have hyeven := (hasEvenSignificand_iff hf hy.finite).mp (hy.even x hx.finite hxy.symm hne.symm)
  have hnext : x.magnitude + 1 < y.magnitude := by
    rcases (Nat.succ_le_of_lt hlt).lt_or_eq with hnext | heq
    · exact hnext
    · rw [← heq] at hyeven
      exact absurd hxeven (Nat.even_add_one.mp hyeven)
  have hwidth := (hnext.trans hy.finite).trans (infinity_lt f)
  have hbetween := hx.le (ofMagnitude f x.isNegative (x.magnitude + 1)) (by
    rw [IsFinite, magnitude_ofMagnitude _ hwidth]
    exact hnext.trans hy.finite)
  have hlow := f.value_strictMono (Nat.lt_succ_self x.magnitude)
  have hhigh := f.value_strictMono hnext
  rw [value, value, isNegative_ofMagnitude _ hwidth, magnitude_ofMagnitude _ hwidth,
    abs_sub_withSign, abs_sub_withSign, hhalf, abs_of_nonneg (by linarith), le_abs] at hbetween
  rcases hbetween with hle | hle <;> linarith

/-- **The nearest pattern** with a given sign is unique. -/
theorem IsNearest.unique (hf : 0 < f.fractionBits) (hx : x.IsNearest q) (hy : y.IsNearest q)
    (hsign : x.isNegative = y.isNegative) : x = y := by
  have hmagnitude := le_antisymm (hy.magnitude_le hf hx hsign.symm) (hx.magnitude_le hf hy hsign)
  rw [← x.ofMagnitude_magnitude, ← y.ofMagnitude_magnitude, hsign, hmagnitude]

/-- What rounds to a number becomes the nearest pattern with its sign. -/
theorem eq_ofMagnitude_iff (hf : 0 < f.fractionBits) (ha : 0 ≤ a) {m : Nat} (h : f.Rounds a m)
    (hm : m < f.infinity) (negative : Bool) (x : Binary f) :
    x = ofMagnitude f negative m ↔
      x.isNegative = negative ∧ x.IsNearest (withSign negative a) := by
  have hwidth := hm.trans (infinity_lt f)
  have hnegative := isNegative_ofMagnitude negative hwidth
  have hmagnitude := magnitude_ofMagnitude negative hwidth
  have hnearest : (ofMagnitude f negative m).IsNearest (withSign negative a) := by
    rw [← hmagnitude] at h
    have hrounds := isNearest_of_rounds hf ha (hmagnitude.trans_lt hm) h
    rwa [hnegative] at hrounds
  constructor
  · rintro rfl
    exact ⟨hnegative, hnearest⟩
  · rintro ⟨hsign, hx⟩
    exact hx.unique hf hnearest (hsign.trans hnegative.symm)

/-! ### From integers -/

/-- **An integer** that fits a word of 64 bits is rounded once. -/
theorem eq_ofInt_iff (hf : 0 < f.fractionBits) {e : ℕ} (hleast : f.leastExponent + e = 64)
    (hmost : 2 ^ (64 : ℤ) < f.value f.infinity) {i : Int} (hi : i.natAbs ≤ 2 ^ 64) (x : Binary f) :
    x = ofInt f i ↔ x.isNegative = decide (i < 0) ∧ x.IsNearest i := by
  obtain ⟨m, hm, heq⟩ := nearest_eq hf (decide (i < 0)) i.natAbs Nat.one_pos
  have hvalue : withSign (decide (i < 0)) ((i.natAbs : ℚ) / (1 : ℕ)) = i := by
    rw [Nat.cast_one, div_one, Nat.cast_natAbs]
    rcases lt_or_ge i 0 with hlt | hge
    · rw [decide_eq_true hlt, abs_of_neg hlt, withSign, if_pos rfl, Int.cast_neg, neg_neg]
    · rw [decide_eq_false hge.not_gt, abs_of_nonneg hge]
      rfl
  have hle : (i.natAbs : ℚ) / (1 : ℕ) ≤ 2 ^ (64 : ℤ) := by
    rw [Nat.cast_one, div_one]
    exact_mod_cast hi
  have hfinite := hm.lt_infinity_of_le hleast hmost hle
  rw [min_eq_right hfinite.le] at heq
  rw [ofInt, heq, eq_ofMagnitude_iff hf (by positivity) hm hfinite, hvalue]

/-! ### From other formats -/

variable {g : BinaryFormat}

theorem abs_value (x : Binary f) : |x.value| = f.value x.magnitude := by
  have hvalue := f.value_nonneg x.magnitude
  unfold value withSign
  split_ifs
  · rw [abs_neg, abs_of_nonneg hvalue]
  · exact abs_of_nonneg hvalue

/-- **A number below the last middle** of another format is rounded once. -/
theorem eq_convert_iff (hg : 0 < g.fractionBits) (hinf : 0 < g.infinity) (hx : x.IsFinite)
    (hlt : |x.value| < g.middle (g.infinity - 1)) (y : Binary g) :
    y = x.convert g ↔ y.isNegative = x.isNegative ∧ y.IsNearest x.value := by
  obtain ⟨m, hm, heq⟩ := convert_eq hg hx
  have hfinite := (hm.lt_infinity_iff hg hinf).mpr (x.abs_value ▸ hlt)
  rw [heq, min_eq_right hfinite.le, eq_ofMagnitude_iff hg (f.value_nonneg _) hm hfinite, value]

/-- From the last middle on a number becomes infinite. -/
theorem convert_of_overflow (hg : 0 < g.fractionBits) (hinf : 0 < g.infinity) (hx : x.IsFinite)
    (hle : g.middle (g.infinity - 1) ≤ |x.value|) :
    x.convert g = ofMagnitude g x.isNegative g.infinity := by
  obtain ⟨m, hm, heq⟩ := convert_eq hg hx
  have hinfinite := not_lt.mp ((hm.lt_infinity_iff hg hinf).not.mpr (x.abs_value ▸ hle.not_gt))
  rw [heq, min_eq_left hinfinite]

end Binary

/-! ### Conversions of elements -/

namespace ElementType

variable (t : IntType) (v : t.Value)

theorem natAbs_toInt_le : (t.toInt v).natAbs ≤ 2 ^ 64 := by
  rcases toScalar_int t v with ⟨w, -, hw⟩ | ⟨w, -, hw⟩
  · have hword := fitsWord_toInt w
    unfold FitsWord at hword
    omega
  · have hword := w.toNat_lt
    omega

/-- Integers do not become numbers of another format first. -/
theorem convert_int_binary :
    convert (.int t) .float64 v = Binary.ofInt binary64 (t.toInt v) ∧
      convert (.int t) .float32 v = Binary.ofInt binary32 (t.toInt v) := by
  have h64 : int t ≠ .float64 := nofun
  have h32 : int t ≠ .float32 := nofun
  rw [convert_of_ne h64, convert_of_ne h32]
  rcases toScalar_int t v with ⟨w, hw, hvalue⟩ | ⟨w, hw, hvalue⟩ <;> rw [hw, ← hvalue] <;>
    exact ⟨rfl, rfl⟩

theorem convert_float64_float32 (x : Binary binary64) :
    convert .float64 .float32 x = x.convert binary32 := by
  have hne : float64 ≠ float32 := nofun
  rw [convert_of_ne hne]
  rfl

theorem eq_convert_int_float64_iff (r : Binary binary64) :
    r = convert (.int t) .float64 v ↔
      r.isNegative = decide (t.toInt v < 0) ∧ r.IsNearest (t.toInt v) := by
  rw [(convert_int_binary t v).1]
  refine Binary.eq_ofInt_iff (e := 1138) (by decide) rfl ?_ (natAbs_toInt_le t v) r
  rw [BinaryFormat.value_infinity (by decide)]
  exact zpow_lt_zpow_right₀ one_lt_two (by decide)

theorem eq_convert_int_float32_iff (r : Binary binary32) :
    r = convert (.int t) .float32 v ↔
      r.isNegative = decide (t.toInt v < 0) ∧ r.IsNearest (t.toInt v) := by
  rw [(convert_int_binary t v).2]
  refine Binary.eq_ofInt_iff (e := 213) (by decide) rfl ?_ (natAbs_toInt_le t v) r
  rw [BinaryFormat.value_infinity (by decide)]
  exact zpow_lt_zpow_right₀ one_lt_two (by decide)

end ElementType

/-- **Conversions to floating point numbers round once.** A value of an integer type becomes the
number of 64 or of 32 bits that is nearest to the integer itself, with its sign; zero becomes the
positive zero. A number of 64 bits becomes the nearest one of 32 bits with its sign, also where
this is a zero. If two numbers are nearest, the one with the even significand is taken. From
half-way between the greatest number of 32 bits and the next power of two on, and for infinity,
the result is the infinity of the same sign. -/
theorem conversion_rounds_once :
    (∀ (t : IntType) (v : t.Value),
        (∀ r : Binary binary64, r = ElementType.convert (.int t) .float64 v ↔
          r.isNegative = decide (t.toInt v < 0) ∧ r.IsNearest (t.toInt v)) ∧
        ∀ r : Binary binary32, r = ElementType.convert (.int t) .float32 v ↔
          r.isNegative = decide (t.toInt v < 0) ∧ r.IsNearest (t.toInt v)) ∧
      (∀ x : Binary binary64, x.IsFinite → |x.value| < 2 ^ 128 - 2 ^ 103 → ∀ r : Binary binary32,
        r = ElementType.convert .float64 .float32 x ↔
          r.isNegative = x.isNegative ∧ r.IsNearest x.value) ∧
      (∀ x : Binary binary64, x.IsFinite → 2 ^ 128 - 2 ^ 103 ≤ |x.value| →
        ElementType.convert .float64 .float32 x =
          Binary.ofMagnitude binary32 x.isNegative binary32.infinity) ∧
      ∀ x : Binary binary64, x.magnitude = binary64.infinity →
        ElementType.convert .float64 .float32 x =
          Binary.ofMagnitude binary32 x.isNegative binary32.infinity := by
  refine ⟨fun t v => ⟨ElementType.eq_convert_int_float64_iff t v,
    ElementType.eq_convert_int_float32_iff t v⟩, ?_, ?_, ?_⟩
  · intro x hx hlt r
    rw [ElementType.convert_float64_float32]
    rw [← BinaryFormat.middle_last_binary32] at hlt
    exact Binary.eq_convert_iff (by decide) (by decide) hx hlt r
  · intro x hx hle
    rw [ElementType.convert_float64_float32]
    rw [← BinaryFormat.middle_last_binary32] at hle
    exact Binary.convert_of_overflow (by decide) (by decide) hx hle
  · intro x hx
    rw [ElementType.convert_float64_float32]
    exact Binary.convert_of_infinite hx

/-- A number half-way between two of 32 bits goes to the even one, and two to the power of three
hundred to infinity. -/
theorem conversion_rounds_once_tie :
    (⟨0x3f800000#32⟩ : Binary binary32).IsNearest
        (⟨0x3ff0000010000000#64⟩ : Binary binary64).value ∧
      ElementType.convert .float64 .float32 ⟨0xd2b0000000000000#64⟩ =
        Binary.ofMagnitude binary32 true binary32.infinity ∧
      ElementType.convert .float64 .float32 ⟨0xfff0000000000000#64⟩ =
        Binary.ofMagnitude binary32 true binary32.infinity := by
  obtain ⟨-, hround, hoverflow, hinfinite⟩ := conversion_rounds_once
  refine ⟨((hround ⟨0x3ff0000010000000#64⟩ (by decide) ?_ _).mp (by decide)).2,
    hoverflow ⟨0xd2b0000000000000#64⟩ (by decide) ?_, hinfinite _ (by decide)⟩
  · calc |(⟨0x3ff0000010000000#64⟩ : Binary binary64).value|
        _ = binary64.value (⟨0x3ff0000010000000#64⟩ : Binary binary64).magnitude :=
          Binary.abs_value _
        _ < binary64.value (2 ^ 52 + 1023 * 2 ^ 52) := binary64.value_strictMono (by decide)
        _ = (2 ^ 52 : ℕ) * 2 ^ (-51 : ℤ) :=
          BinaryFormat.value_add_mul (f := binary64) (.inr le_rfl) (by decide)
        _ < 2 ^ 128 - 2 ^ 103 := by norm_num
  · have hvalue : binary64.value (2 ^ 52 + 1322 * 2 ^ 52) = (2 ^ 52 : ℕ) * 2 ^ (248 : ℤ) :=
      BinaryFormat.value_add_mul (f := binary64) (.inr le_rfl) (by decide)
    calc (2 : ℚ) ^ 128 - 2 ^ 103
        _ ≤ (2 ^ 52 : ℕ) * 2 ^ (248 : ℤ) := by norm_num
        _ = binary64.value (⟨0xd2b0000000000000#64⟩ : Binary binary64).magnitude := hvalue.symm
        _ = |(⟨0xd2b0000000000000#64⟩ : Binary binary64).value| := (Binary.abs_value _).symm

/-- An integer that lies just above the middle of two numbers of 32 bits. As a number of 64 bits
it would be that middle, and then go to the even neighbour below. -/
example :
    ElementType.convert (.int .int64) .float32 (0x2000002000000001#64) = ⟨0x5e000001#32⟩ ∧
      ElementType.convert .float64 .float32
        (ElementType.convert (.int .int64) .float64 (0x2000002000000001#64)) =
          ⟨0x5e000000#32⟩ := by
  decide

end StridedSlice
