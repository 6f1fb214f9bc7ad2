import StridedSlice.Proofs.Nearest
import Mathlib.Data.Rat.Floor
/-!
# StridedSlice.Proofs.Truncation

**Floating point numbers become integers without wrapping.** The fraction is dropped, and what
lies outside the range of the integer type goes to its end (`Binary.SaturatesTo`). The integer is
computed from a significand and an exponent by natural numbers; told by rational numbers it is
`truncate` of the value (`Binary.toIntWithin_of_finite`), which keeps the order, as going to the
end of a range does.

A number of 32 bits becomes one of 64 bits first. Of that only three things matter: it keeps its
value if it is finite, infinities stay infinite, and what is not a number stays none
(`Binary.isNaN_convert`).
-/

namespace StridedSlice

/-! ### Rational numbers -/

/-- The integer next to a number towards zero. -/
def truncate (q : ℚ) : ℤ := if 0 ≤ q then ⌊q⌋ else ⌈q⌉

theorem truncate_neg (q : ℚ) : truncate (-q) = -truncate q := by
  unfold truncate
  rcases lt_trichotomy q 0 with hlt | rfl | hlt
  · rw [if_pos (by linarith), if_neg (by linarith), Int.floor_neg]
  · simp
  · rw [if_neg (by linarith), if_pos hlt.le, Int.ceil_neg]

theorem truncate_of_nonneg {q : ℚ} (h : 0 ≤ q) : truncate q = ⌊q⌋ := if_pos h

theorem truncate_mono {p q : ℚ} (h : p ≤ q) : truncate p ≤ truncate q := by
  unfold truncate
  split_ifs with hp hq hq
  · exact Int.floor_mono h
  · linarith
  · have hceil : ⌈p⌉ ≤ 0 := Int.ceil_le.mpr (by exact_mod_cast (not_le.mp hp).le)
    exact hceil.trans (Int.floor_nonneg.mpr hq)
  · exact Int.ceil_mono h

/-! ### Numbers as integers -/

namespace Binary

variable {f g : BinaryFormat} {least greatest : Int}

theorem truncateScaled_eq (s : Nat) (e : Int) : (truncateScaled s e : ℤ) = ⌊(s : ℚ) * 2 ^ e⌋ := by
  rw [← scaled_ratio, Rat.floor_natCast_div_natCast]
  rfl

theorem signed_eq (negative : Bool) (n : Nat) :
    signed negative n = if negative then -(n : Int) else n := rfl

/-- A finite number loses its fraction. -/
theorem toIntWithin_of_finite {x : Binary f} (hx : x.IsFinite) :
    x.toIntWithin least greatest = max least (min greatest (truncate x.value)) := by
  obtain ⟨r, t, hmagnitude, hleast, hmost, hcontent⟩ := content_eq_finite hx
  have hnonneg := f.value_nonneg x.magnitude
  have htruncate : signed x.isNegative (truncateScaled r (f.leastExponent + t)) =
      truncate x.value := by
    rw [signed_eq, truncateScaled_eq, ← BinaryFormat.value_add_mul hleast hmost.le, ← hmagnitude,
      ← truncate_of_nonneg hnonneg, value, withSign]
    split_ifs
    · rw [truncate_neg]
    · rfl
  rw [toIntWithin, hcontent, ← htruncate]

theorem toIntWithin_of_infinite {x : Binary f} (hx : x.magnitude = f.infinity) :
    x.toIntWithin least greatest = if x.isNegative then least else greatest := by
  rw [toIntWithin, content_eq_infinite hx]

theorem toIntWithin_of_isNaN {x : Binary f} (hx : x.isNaN = true) :
    x.toIntWithin least greatest = 0 := by
  have hlt : f.infinity < x.magnitude := of_decide_eq_true hx
  rw [toIntWithin, content, if_neg hlt.ne', if_pos hlt]

/-! ### Patterns that are not numbers -/

theorem infinity_add (f : BinaryFormat) :
    f.infinity + 2 ^ f.fractionBits = 2 ^ (f.fractionBits + f.exponentBits) := by
  have hpos : 1 ≤ 2 ^ f.exponentBits := Nat.two_pow_pos _
  rw [BinaryFormat.infinity, Nat.pow_eq, Nat.pow_eq, ← Nat.succ_mul, Nat.succ_eq_add_one,
    Nat.sub_add_cancel hpos, pow_add, mul_comm]

/-- The leading bits of a fraction fit the fraction field of another format. -/
theorem keptFraction_lt (f g : BinaryFormat) {fraction : Nat} (h : fraction < 2 ^ f.fractionBits) :
    fraction * 2 ^ (g.fractionBits - f.fractionBits) / 2 ^ (f.fractionBits - g.fractionBits) <
      2 ^ g.fractionBits := by
  refine Nat.div_lt_of_lt_mul ?_
  calc fraction * 2 ^ (g.fractionBits - f.fractionBits)
      _ < 2 ^ f.fractionBits * 2 ^ (g.fractionBits - f.fractionBits) :=
        Nat.mul_lt_mul_of_pos_right h (Nat.two_pow_pos _)
      _ = 2 ^ (f.fractionBits - g.fractionBits) * 2 ^ g.fractionBits := by
        rw [← pow_add, ← pow_add]
        congr 1
        omega

/-- What is not a number is none in any other format. -/
theorem isNaN_convert (hg : 0 < g.fractionBits) {x : Binary f} (hx : x.isNaN = true) :
    (x.convert g).isNaN = true := by
  have hlt : f.infinity < x.magnitude := of_decide_eq_true hx
  have hwidth := x.magnitude_lt
  rw [← infinity_add] at hwidth
  have hkept := keptFraction_lt f g (show x.magnitude - f.infinity < 2 ^ f.fractionBits by omega)
  have hquiet : 2 ^ (g.fractionBits - 1) < 2 ^ g.fractionBits :=
    Nat.pow_lt_pow_right Nat.one_lt_two (by omega)
  rw [convert, content, if_neg hlt.ne', if_pos hlt]
  show (convertNaN g x).isNaN = true
  unfold convertNaN
  simp only [Nat.pow_eq]
  set kept := (x.magnitude - f.infinity) * 2 ^ (g.fractionBits - f.fractionBits) /
    2 ^ (f.fractionBits - g.fractionBits)
  have hmost : kept ||| 2 ^ (g.fractionBits - 1) < 2 ^ g.fractionBits :=
    Nat.or_lt_two_pow hkept hquiet
  have hleast : 0 < kept ||| 2 ^ (g.fractionBits - 1) :=
    (Nat.two_pow_pos _).trans_le Nat.right_le_or
  have hfits : g.infinity + (kept ||| 2 ^ (g.fractionBits - 1)) <
      2 ^ (g.fractionBits + g.exponentBits) := by
    rw [← infinity_add]
    omega
  rw [isNaN, magnitude_ofMagnitude _ hfits]
  exact decide_eq_true (by omega)

/-! ### Going to the end of a range -/

/-- What a number becomes in an integer type: no number becomes zero, an infinity the end of the
range on its side, and any other number loses its fraction and goes to the nearest integer in
range. -/
structure SaturatesTo (x : Binary f) (t : IntType) (i : Int) : Prop where
  nan : x.isNaN = true → i = 0
  infinite : x.magnitude = f.infinity → i = if x.isNegative then t.least else t.greatest
  finite : x.IsFinite → i = max t.least (min t.greatest (truncate x.value))

theorem saturatesTo_toIntWithin (t : IntType) (x : Binary f) :
    x.SaturatesTo t (x.toIntWithin t.least t.greatest) :=
  ⟨toIntWithin_of_isNaN, toIntWithin_of_infinite, toIntWithin_of_finite⟩

theorem inRange_toIntWithin (t : IntType) (x : Binary f) :
    t.InRange (x.toIntWithin t.least t.greatest) := by
  have hzero : t.InRange 0 := by cases t <;> decide
  have hends : t.least ≤ t.greatest := hzero.1.trans hzero.2
  unfold toIntWithin
  cases x.content with
  | nan => exact hzero
  | infinite negative =>
      cases negative
      · exact ⟨hends, le_rfl⟩
      · exact ⟨le_rfl, hends⟩
  | finite negative significand exponent =>
      exact ⟨le_max_left _ _, max_le hends (min_le_left _ _)⟩

namespace SaturatesTo

variable {x y : Binary f} {t : IntType} {i j : Int}

/-- An infinity lies beyond every range, so it goes to the end like any other number. -/
theorem eq_clamp (h : x.SaturatesTo t i) (hinf : 2 ^ 64 ≤ f.value f.infinity)
    (hx : x.isNaN = false) : i = max t.least (min t.greatest (truncate x.value)) := by
  rw [isNaN, decide_eq_false_iff_not, not_lt] at hx
  rcases hx.lt_or_eq with hlt | heq
  · exact h.finite hlt
  · have hmost : t.greatest < 2 ^ 64 ∧ -2 ^ 64 < t.least := by cases t <;> decide
    have hends : t.least ≤ t.greatest := by cases t <;> decide
    have hbeyond : (2 : ℤ) ^ 64 ≤ truncate (f.value f.infinity) := by
      rw [truncate_of_nonneg (f.value_nonneg _), Int.le_floor]
      exact_mod_cast hinf
    rw [h.infinite heq, value, withSign, heq]
    split_ifs
    · rw [truncate_neg, min_eq_right (by omega), max_eq_left (by omega)]
    · rw [min_eq_left (by omega), max_eq_right hends]

/-- The order of numbers is kept. -/
theorem mono (hx : x.SaturatesTo t i) (hy : y.SaturatesTo t j)
    (hinf : 2 ^ 64 ≤ f.value f.infinity) (hxnan : x.isNaN = false) (hynan : y.isNaN = false)
    (hle : x.value ≤ y.value) : i ≤ j := by
  rw [hx.eq_clamp hinf hxnan, hy.eq_clamp hinf hynan]
  exact max_le_max_left _ (min_le_min_left _ (truncate_mono hle))

/-- A number may go through a format that has it. -/
theorem of_convert (hg : 0 < g.fractionBits) (hext : g.Extends f)
    (h : (x.convert g).SaturatesTo t i) : x.SaturatesTo t i where
  nan hx := h.nan (isNaN_convert hg hx)
  infinite hx := by
    have hconvert := convert_of_infinite (g := g) hx
    have hsame := h.infinite (by rw [hconvert, magnitude_ofMagnitude _ (infinity_lt g)])
    rwa [hconvert, isNegative_ofMagnitude _ (infinity_lt g)] at hsame
  finite hx := by
    obtain ⟨hfinite, hvalue, hnegative⟩ := convert_of_extends hg hext hx
    have hsame := h.finite hfinite
    rwa [value, hvalue, hnegative] at hsame

end SaturatesTo

end Binary

/-! ### Conversions of elements -/

namespace ElementType

/-- A number of 64 bits becomes what it saturates to, without any bits being dropped. -/
theorem saturatesTo_convert_float64 (t : IntType) (x : Binary binary64) :
    x.SaturatesTo t (t.toInt (convert .float64 (.int t) x)) := by
  have hne : float64 ≠ .int t := nofun
  have hword : t.toInt ((int t).ofScalar (float64.toScalar x)) = x.toIntWithin t.least t.greatest :=
    IntType.toInt_ofInt_of_inRange (Binary.inRange_toIntWithin t x)
  rw [convert_of_ne hne, hword]
  exact Binary.saturatesTo_toIntWithin t x

theorem convert_float32_int (t : IntType) (x : Binary binary32) :
    convert .float32 (.int t) x = convert .float64 (.int t) (x.convert binary64) := by
  have h32 : float32 ≠ .int t := nofun
  have h64 : float64 ≠ .int t := nofun
  rw [convert_of_ne h32, convert_of_ne h64]
  rfl

theorem saturatesTo_convert_float32 (t : IntType) (x : Binary binary32) :
    x.SaturatesTo t (t.toInt (convert .float32 (.int t) x)) := by
  rw [convert_float32_int]
  exact .of_convert (by decide) BinaryFormat.extends_binary32
    (saturatesTo_convert_float64 t (x.convert binary64))

end ElementType

/-- **Conversions to integers truncate and saturate.** Whatever the pattern of 64 or of 32 bits
and whatever the integer type: what is not a number becomes zero, an infinity the end of the
range on its side, and any other number the integer next to it towards zero, or the end of the
range if that lies beyond it. So the order of numbers is kept. -/
theorem truncation_saturates (t : IntType) :
    (∀ x : Binary binary64,
        x.SaturatesTo t (t.toInt (ElementType.convert .float64 (.int t) x))) ∧
      (∀ x : Binary binary32,
        x.SaturatesTo t (t.toInt (ElementType.convert .float32 (.int t) x))) ∧
      (∀ x y : Binary binary64, x.isNaN = false → y.isNaN = false → x.value ≤ y.value →
        t.toInt (ElementType.convert .float64 (.int t) x) ≤
          t.toInt (ElementType.convert .float64 (.int t) y)) ∧
      ∀ x y : Binary binary32, x.isNaN = false → y.isNaN = false → x.value ≤ y.value →
        t.toInt (ElementType.convert .float32 (.int t) x) ≤
          t.toInt (ElementType.convert .float32 (.int t) y) := by
  have h64 : 2 ^ 64 ≤ binary64.value binary64.infinity := by
    rw [BinaryFormat.value_infinity (by decide)]
    exact zpow_le_zpow_right₀ (m := 64) one_le_two (by decide)
  have h32 : 2 ^ 64 ≤ binary32.value binary32.infinity := by
    rw [BinaryFormat.value_infinity (by decide)]
    exact zpow_le_zpow_right₀ (m := 64) one_le_two (by decide)
  exact ⟨ElementType.saturatesTo_convert_float64 t, ElementType.saturatesTo_convert_float32 t,
    fun x y => (ElementType.saturatesTo_convert_float64 t x).mono
      (ElementType.saturatesTo_convert_float64 t y) h64,
    fun x y => (ElementType.saturatesTo_convert_float32 t x).mono
      (ElementType.saturatesTo_convert_float32 t y) h32⟩

/-- Among the signed integers of 8 bits: no number, an infinity, a number just below the range
and one above it, the negative zero and a number with a fraction. -/
theorem truncation_saturates_int8 :
    IntType.int8.toInt
        (ElementType.convert .float64 (.int .int8) ⟨0x7ff0000000000001#64⟩) = 0 ∧
      IntType.int8.toInt
        (ElementType.convert .float32 (.int .int8) ⟨0xff800000#32⟩) = -128 ∧
      IntType.int8.toInt (ElementType.convert .float64 (.int .int8) ⟨0xc060300000000000#64⟩) ≤
        IntType.int8.toInt (ElementType.convert .float64 (.int .int8) ⟨0x4072cb3333333333#64⟩) ∧
      IntType.int8.toInt (ElementType.convert .float32 (.int .int8) ⟨0x80000000#32⟩) ≤
        IntType.int8.toInt (ElementType.convert .float32 (.int .int8) ⟨0x4039999a#32⟩) := by
  have hordered {f : BinaryFormat} (x y : Binary f) (hx : x.isNegative = true)
      (hy : y.isNegative = false) : x.value ≤ y.value := by
    rw [Binary.value, Binary.value, hx, hy]
    exact (neg_nonpos.mpr (f.value_nonneg _)).trans (f.value_nonneg _)
  obtain ⟨h64, h32, hmono64, hmono32⟩ := truncation_saturates .int8
  exact ⟨(h64 _).nan (by decide), (h32 _).infinite (by decide),
    hmono64 _ _ (by decide) (by decide) (hordered _ _ (by decide) (by decide)),
    hmono32 _ _ (by decide) (by decide) (hordered _ _ (by decide) (by decide))⟩

end StridedSlice
