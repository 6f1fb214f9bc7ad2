import StridedSlice.Proofs.NearMiss
import StridedSlice.Proofs.Scaling
/-!
# StridedSlice.Proofs.DoubleRounding

**A number of 32 bits is written, read as one of 64 bits, and made one of 32 bits again.** What
is read is not the decimal itself, and not always the nearest number of 64 bits. Still the number
comes back (`Binary.exists_ofParts?_shortest`).

It could be another one only if there is a middle of 32 bits between the decimal and what is read
for it, or one of the two is a middle. Then the decimal all but hits the middle, because what is
read is close to it. So it is as far from the number it was written for as it can be, and the grid
has to be coarse: a finer one would have had a nearer point (`le_ten_zpow_of_near_high`,
`le_ten_zpow_of_near_low`). On such grids a decimal that all but hits a middle hits it, or is kept
on its side (`near_odd_multiple`). If it hits, it has few digits and is read exactly.
-/

namespace StridedSlice

namespace BinaryFormat

variable {k r t : Nat}

/-! ### Middles of 32 bits -/

/-- The middle above the magnitude `k`, and the numbers on its two sides, in half units of the
binade. -/
structure HalfUnits (k r t : Nat) : Prop where
  magnitude : k = r + t * 2 ^ 23
  lt : r < 2 ^ 24
  least : t = 0 ∨ 2 ^ 23 ≤ r
  low : binary32.value k = (2 * r : ℕ) * 2 ^ ((t : Int) - 150)
  middle : binary32.middle k = (2 * r + 1 : ℕ) * 2 ^ ((t : Int) - 150)
  high : binary32.value (k + 1) = (2 * r + 2 : ℕ) * 2 ^ ((t : Int) - 150)

theorem exists_halfUnits (k : Nat) : ∃ r t, HalfUnits k r t := by
  obtain ⟨r, t, rfl, hleast, hmost⟩ := binary32.exists_eq_add_mul k
  have hexp : binary32.leastExponent + (t : Int) - 1 = t - 150 := by
    show (-149 : Int) + t - 1 = t - 150
    omega
  have hunit := binary32.two_zpow_unit t
  rw [hexp] at hunit
  refine ⟨r, t, rfl, hmost, hleast, ?_, ?_, ?_⟩
  · rw [value_add_mul hleast hmost.le, hunit]
    push_cast
    ring
  · rw [middle_add_mul hleast hmost, hexp]
  · rw [Nat.add_right_comm, value_add_mul (hleast.imp_right Nat.le_succ_of_le) hmost, hunit]
    push_cast
    ring

namespace HalfUnits

theorem binade_lt (hs : HalfUnits k r t) (hk : k < binary32.infinity) : t < 254 := by
  have hinf : binary32.infinity = 255 * 2 ^ 23 := rfl
  have hmagnitude := hs.magnitude
  have hleast := hs.least
  omega

/-- The middle below a number is at least half a half unit away. -/
theorem middle_le (hs : HalfUnits (k + 1) r t) :
    binary32.middle k ≤ binary32.value (k + 1) - 2 ^ ((t : Int) - 150) / 2 := by
  have hr : 0 < r := by
    have hmagnitude := hs.magnitude
    have hleast := hs.least
    omega
  have hlow := Binary.middle_eq_low (f := binary32) hr hs.least hs.lt hs.magnitude.symm
  have hquarter : (2 : ℚ) ^ (binary32.leastExponent + t - 2) = 2 ^ ((t : Int) - 150) / 2 := by
    rw [eq_div_iff two_ne_zero, ← zpow_add_one₀ two_ne_zero]
    congr 1
    show (-149 : Int) + t - 2 + 1 = t - 150
    omega
  have hle : (Binary.roundingInterval binary32 r (binary32.leastExponent + t)).low + 1 ≤ 4 * r := by
    unfold Binary.roundingInterval
    dsimp only
    split_ifs <;> omega
  have hle' : ((Binary.roundingInterval binary32 r (binary32.leastExponent + t)).low : ℚ) + 1 ≤
      4 * r := by exact_mod_cast hle
  have hunit : (0 : ℚ) ≤ 2 ^ ((t : Int) - 150) / 2 := by positivity
  rw [hlow, hs.low, hquarter]
  push_cast
  linarith [mul_le_mul_of_nonneg_right hle' hunit]

/-- What is read for a decimal is not far from it, so it is on the other side of a middle, or on
it, only if the decimal all but hits the middle. -/
theorem abs_sub_middle_le (hs : HalfUnits k r t) {v y : ℚ} (hclose : |y - v| ≤ v / 2 ^ 51)
    (hbetween : v ≤ binary32.middle k ∧ binary32.middle k ≤ y ∨
      y ≤ binary32.middle k ∧ binary32.middle k ≤ v) :
    |v - binary32.middle k| ≤ 2 ^ ((t : Int) - 150) / 2 ^ 26 := by
  have hunit : (0 : ℚ) ≤ 2 ^ ((t : Int) - 150) := by positivity
  have hr : (2 * r + 1 : ℕ) ≤ (2 ^ 25 - 1 : ℚ) := by
    have hle : (2 * r + 1 : ℕ) + 1 ≤ 2 ^ 25 := by
      have hlt := hs.lt
      omega
    have hle' : ((2 * r + 1 : ℕ) : ℚ) + 1 ≤ 2 ^ 25 := by exact_mod_cast hle
    linarith
  have hmost : binary32.middle k ≤ (2 ^ 25 - 1) * 2 ^ ((t : Int) - 150) := by
    rw [hs.middle]
    exact mul_le_mul_of_nonneg_right hr hunit
  rw [abs_le] at hclose ⊢
  rcases hbetween with ⟨hlow, hhigh⟩ | ⟨hlow, hhigh⟩
  · constructor <;> linarith
  · constructor <;> linarith

/-- The middle above a number is at least a half unit away. -/
theorem le_middle (hs : HalfUnits k r t) :
    binary32.value (k + 1) + 2 ^ ((t : Int) - 150) ≤ binary32.middle (k + 1) := by
  obtain ⟨r', t', hs'⟩ := exists_halfUnits (k + 1)
  have hmono : (2 : ℚ) ^ ((t : Int) - 150) ≤ 2 ^ ((t' : Int) - 150) := by
    refine zpow_le_zpow_right₀ one_le_two ?_
    have hmagnitude := hs.magnitude
    have hmagnitude' := hs'.magnitude
    have hlt := hs.lt
    have hlt' := hs'.lt
    have hleast := hs.least
    have hleast' := hs'.least
    omega
  rw [hs'.middle, hs'.low]
  push_cast
  linarith

end HalfUnits

end BinaryFormat

/-! ### The shortest decimal -/

/-- A decimal on a finer grid. -/
theorem Decimal.exists_value_eq (d : Decimal) {e : Int} (h : e ≤ d.exponent) :
    d.value = (d.digits * 10 ^ (d.exponent - e).toNat : ℕ) * 10 ^ e := by
  obtain ⟨k, hk⟩ := Int.eq_ofNat_of_zero_le (Int.sub_nonneg.mpr h)
  rw [Decimal.value, ← sub_add_cancel d.exponent e, add_sub_cancel_right, hk, Int.toNat_natCast,
    zpow_add₀ (by norm_num), zpow_natCast]
  push_cast
  ring

/-- A decimal rounds to a magnitude, and none on its grid that does is nearer to the value. -/
structure Decimal.Represents (d : Decimal) (m : Nat) : Prop where
  rounds : binary32.Rounds d.value m
  nearest : ∀ p : ℕ, binary32.Rounds (p * 10 ^ d.exponent) m →
    |d.value - binary32.value m| ≤ |p * (10 : ℚ) ^ d.exponent - binary32.value m|

namespace Decimal.Represents

open BinaryFormat

variable {d : Decimal} {m k r t : Nat}

/-- **A coarse grid**: where a decimal all but hits the middle above the number, the next one
below would be nearer to the number if the grid were finer than a half unit. -/
theorem le_ten_zpow_of_near_high (h : d.Represents (k + 1)) (hs : HalfUnits (k + 1) r t)
    (hnear : |d.value - binary32.middle (k + 1)| ≤ 2 ^ ((t : Int) - 150) / 2 ^ 26) :
    2 ^ ((t : Int) - 150) ≤ (10 : ℚ) ^ d.exponent := by
  have hstep : (0 : ℚ) < 10 ^ d.exponent := by positivity
  have hlow := hs.middle_le
  have hmiddle : binary32.middle (k + 1) = binary32.value (k + 1) + 2 ^ ((t : Int) - 150) := by
    rw [hs.middle, hs.low]
    push_cast
    ring
  have hnonneg := binary32.value_nonneg (k + 1)
  have hbelow := h.rounds.below.1
  have hvalue : d.value = d.digits * 10 ^ d.exponent := rfl
  rw [abs_le] at hnear
  by_contra hfine
  rw [not_le] at hfine
  have hdigits : d.digits ≠ 0 := by
    intro hzero
    rw [hzero, Nat.cast_zero, zero_mul] at hvalue
    linarith
  obtain ⟨p, hp⟩ := Nat.exists_eq_succ_of_ne_zero hdigits
  have hprevious : (p : ℚ) * 10 ^ d.exponent = d.value - 10 ^ d.exponent := by
    rw [hvalue, hp]
    push_cast
    ring
  have hrounds : binary32.Rounds (p * 10 ^ d.exponent) (k + 1) := by
    rw [hprevious]
    exact rounds_of_lt_of_lt (by linarith) (by linarith)
  have hnearest := h.nearest p hrounds
  rw [hprevious, abs_of_nonneg (by linarith), le_abs'] at hnearest
  rcases hnearest with hnearest | hnearest <;> linarith

/-- The same for the middle below the number, with the next decimal above. -/
theorem le_ten_zpow_of_near_low (h : d.Represents (k + 1)) (hs : HalfUnits k r t)
    (hnear : |d.value - binary32.middle k| ≤ 2 ^ ((t : Int) - 150) / 2 ^ 26) :
    2 ^ ((t : Int) - 150) ≤ (10 : ℚ) ^ d.exponent := by
  have hstep : (0 : ℚ) < 10 ^ d.exponent := by positivity
  have hhigh := hs.le_middle
  have hmiddle : binary32.middle k = binary32.value (k + 1) - 2 ^ ((t : Int) - 150) := by
    rw [hs.middle, hs.high]
    push_cast
    ring
  have habove := (h.rounds.above k rfl).1
  rw [abs_le] at hnear
  by_contra hfine
  rw [not_le] at hfine
  have hnext : ((d.digits + 1 : ℕ) : ℚ) * 10 ^ d.exponent = d.value + 10 ^ d.exponent := by
    rw [Decimal.value]
    push_cast
    ring
  have hrounds : binary32.Rounds ((d.digits + 1 : ℕ) * 10 ^ d.exponent) (k + 1) := by
    rw [hnext]
    exact rounds_of_lt_of_lt (by linarith) (by linarith)
  have hnearest := h.nearest _ hrounds
  rw [hnext, abs_of_nonpos (by linarith), le_abs] at hnearest
  rcases hnearest with hnearest | hnearest <;> linarith

end Decimal.Represents

/-! ### Decimals that hit a middle -/

/-- A multiple of a power of ten that is a multiple of a power of two, without fractions. -/
theorem mul_pow_eq_of_mul_zpow_eq {s n : ℕ} {scale p : Int}
    (h : (s : ℚ) * 10 ^ scale = n * 2 ^ p) :
    s * 5 ^ scale.toNat * 2 ^ (-(p - scale)).toNat =
      n * 2 ^ (p - scale).toNat * 5 ^ (-scale).toNat := by
  have hfive : ((5 ^ scale.toNat : ℕ) : ℚ) / (5 ^ (-scale).toNat : ℕ) = 5 ^ scale :=
    Binary.pow_toNat_div 5 scale
  have htwo : ((2 ^ (p - scale).toNat : ℕ) : ℚ) / (2 ^ (-(p - scale)).toNat : ℕ) =
      2 ^ (p - scale) := Binary.pow_toNat_div 2 (p - scale)
  have hfive' : (0 : ℚ) < (5 ^ (-scale).toNat : ℕ) := by positivity
  have htwo' : (0 : ℚ) < (2 ^ (-(p - scale)).toNat : ℕ) := by positivity
  have hscale : (0 : ℚ) < 2 ^ scale := by positivity
  rw [div_eq_iff hfive'.ne'] at hfive
  rw [div_eq_iff htwo'.ne', zpow_sub₀ two_ne_zero] at htwo
  rw [Binary.ten_zpow_eq] at h
  rw [← Nat.cast_inj (R := ℚ), Nat.cast_mul, Nat.cast_mul, Nat.cast_mul, Nat.cast_mul, hfive, htwo]
  field_simp
  linear_combination h

/-- A short multiple of a power of ten that is a short multiple of a power of two has a small
exponent: one of the two has all factors of five. -/
theorem natAbs_le_of_mul_zpow_eq {s n : ℕ} {scale p : Int} (hs : s < 2 ^ 53) (hn : n < 2 ^ 53)
    (hpos : 0 < n) (h : (s : ℚ) * 10 ^ scale = n * 2 ^ p) : scale.natAbs ≤ 22 := by
  have hsmall {a b : ℕ} (ha : a < 2 ^ 53) (hb : 0 < a) (hdvd : 5 ^ b ∣ a) : b ≤ 22 := by
    by_contra hlt
    have hle := Nat.le_of_dvd hb hdvd
    have hpow : 5 ^ 23 ≤ 5 ^ b := Nat.pow_le_pow_right (by decide) (by omega)
    omega
  have hcoprime (a b : ℕ) : Nat.Coprime (5 ^ a) (2 ^ b) := Nat.Coprime.pow a b (by decide)
  have hzero : 0 < s := by
    rw [Nat.pos_iff_ne_zero]
    rintro rfl
    have hne : (n : ℚ) * 2 ^ p ≠ 0 := by positivity
    rw [Nat.cast_zero, zero_mul] at h
    exact hne h.symm
  have hnat := mul_pow_eq_of_mul_zpow_eq h
  rcases le_or_gt 0 scale with hnonneg | hnegative
  · have hdvd : 5 ^ scale.toNat ∣ n := by
      refine (hcoprime _ (p - scale).toNat).dvd_of_dvd_mul_right ?_
      have hlast : (-scale).toNat = 0 := by omega
      rw [hlast, pow_zero, mul_one] at hnat
      rw [← hnat]
      exact Dvd.intro_left s rfl |>.mul_right _
    have hle := hsmall hn hpos hdvd
    omega
  · have hdvd : 5 ^ (-scale).toNat ∣ s := by
      refine (hcoprime _ (-(p - scale)).toNat).dvd_of_dvd_mul_right ?_
      have hlast : scale.toNat = 0 := by omega
      rw [hlast, pow_zero, mul_one] at hnat
      rw [hnat]
      exact Dvd.intro_left _ rfl
    have hle := hsmall hs hzero hdvd
    omega

namespace Binary

open BinaryFormat

/-! ### Reading -/

variable {digits m y : Nat} {scale : Int}

/-- What rounds to a positive number of 32 bits. -/
theorem bounds_of_rounds {q : ℚ} (hpos : 0 < m) (hm : m < binary32.infinity)
    (h : binary32.Rounds q m) : (2 : ℚ) ^ (-150 : Int) ≤ q ∧ q ≤ 2 ^ (128 : Int) := by
  constructor
  · obtain ⟨k, rfl⟩ := Nat.exists_eq_add_one.mpr hpos
    have hfirst : binary32.middle 0 = (2 * 0 + 1 : ℕ) * 2 ^ (-150 : Int) :=
      middle_add_mul (f := binary32) (r := 0) (t := 0) (.inl rfl) (by decide)
    have hmono := binary32.middle_strictMono.monotone (Nat.zero_le k)
    have habove := (h.above k rfl).1
    rw [hfirst] at hmono
    push_cast at hmono
    linarith
  · have hinf : binary32.value binary32.infinity = 2 ^ (128 : Int) :=
      value_infinity (f := binary32) (by decide)
    have hle := h.le_half hm
    have hlt := binary32.value_strictMono hm
    linarith

/-- Decimals of such a size are within the table. -/
theorem natAbs_scale_le (hdigits : digits < 2 ^ 53)
    (hlow : (2 : ℚ) ^ (-150 : Int) ≤ digits * 10 ^ scale)
    (hhigh : (digits : ℚ) * 10 ^ scale ≤ 2 ^ (128 : Int)) : scale.natAbs ≤ greatestPower := by
  have hten : (0 : ℚ) < 10 ^ scale := by positivity
  have hscale : scale ≤ 40 := by
    have hone : (1 : ℚ) ≤ digits := by
      rw [Nat.one_le_cast, Nat.one_le_iff_ne_zero]
      rintro rfl
      rw [Nat.cast_zero, zero_mul] at hlow
      exact absurd hlow (not_le.mpr (by positivity))
    have hpow : (10 : ℚ) ^ scale ≤ 10 ^ (40 : Int) :=
      calc (10 : ℚ) ^ scale
          _ ≤ digits * 10 ^ scale := le_mul_of_one_le_left hten.le hone
          _ ≤ 2 ^ (128 : Int) := hhigh
          _ ≤ 10 ^ (40 : Int) := two_zpow_le (by norm_num) (by norm_num) (by norm_num)
    exact (zpow_le_zpow_iff_right₀ (by norm_num)).mp hpow
  have hscale' : -100 ≤ 17 + scale := by
    have hfew : (digits : ℚ) ≤ 2 ^ (53 : Int) := by exact_mod_cast hdigits.le
    by_contra hlt
    have hpow : (2 : ℚ) ^ (-150 : Int) < 2 ^ (-150 : Int) :=
      calc (2 : ℚ) ^ (-150 : Int)
          _ ≤ digits * 10 ^ scale := hlow
          _ ≤ 2 ^ (53 : Int) * 10 ^ scale := mul_le_mul_of_nonneg_right hfew hten.le
          _ ≤ 10 ^ (17 : Int) * 10 ^ scale :=
            mul_le_mul_of_nonneg_right (two_zpow_le (by norm_num) (by norm_num) (by norm_num))
              hten.le
          _ = 10 ^ (17 + scale) := (zpow_add₀ (by norm_num) ..).symm
          _ ≤ 2 ^ (-151 - 2 : Int) := ten_zpow_le (by omega) (by norm_num) (by norm_num)
          _ < 2 ^ (-150 : Int) := zpow_lt_zpow_right₀ one_lt_two (by norm_num)
    exact absurd hpow (lt_irrefl _)
  have hgreatest : greatestPower = 308 := rfl
  omega

/-- **A decimal that hits** a short multiple of a power of two is read exactly. -/
theorem exists_ofParts?_of_hit {n t : Nat} (hdigits : digits < 2 ^ 53) (hn : n < 2 ^ 53)
    (hpos : 0 < n) (hhit : (digits : ℚ) * 10 ^ scale = n * 2 ^ ((t : Int) - 150))
    (hmost : (digits : ℚ) * 10 ^ scale ≤ 2 ^ (128 : Int)) :
    ∃ y, y < binary64.infinity ∧ binary64.value y = digits * 10 ^ scale ∧
      ofParts? digits scale = some (ofMagnitude binary64 false y) := by
  obtain ⟨y, hy⟩ := binary64.exists_value_eq (924 + t) (s := n) hn
  have hexp : binary64.leastExponent + (924 + t : ℕ) = (t : Int) - 150 := by
    show (-1074 : Int) + (924 + t : ℕ) = t - 150
    omega
  rw [hexp, ← hhit] at hy
  obtain ⟨hfinite, hread⟩ :=
    ofParts?_exact hdigits (natAbs_le_of_mul_zpow_eq hdigits hn hpos hhit) hmost hy
  exact ⟨y, hfinite, hy, hread⟩

/-- A number of 64 bits with the same sign that rounds to a number of 32 bits becomes it. -/
theorem convert_ofMagnitude {x : Binary binary32} (hx : x.magnitude < binary32.infinity)
    (hm : m < binary64.infinity) (h : binary32.Rounds (binary64.value m) x.magnitude) :
    (ofMagnitude binary64 x.isNegative m).convert binary32 = x := by
  have hwidth := hm.trans (infinity_lt binary64)
  have hmagnitude := magnitude_ofMagnitude x.isNegative hwidth
  obtain ⟨n, hn, hconvert⟩ := convert_eq (f := binary64) (g := binary32) (by decide)
    (hmagnitude.trans_lt hm)
  rw [hmagnitude] at hn
  obtain rfl := hn.unique h
  rw [hconvert, min_eq_right hx.le, isNegative_ofMagnitude _ hwidth, ofMagnitude_magnitude]

/-- What becomes a finite number rounds to it. -/
theorem rounds_of_magnitude_convert (hy : y < binary64.infinity) (hm : m < binary32.infinity)
    (h : ((ofMagnitude binary64 false y).convert binary32).magnitude = m) :
    binary32.Rounds (binary64.value y) m := by
  have hmagnitude := magnitude_ofMagnitude false (hy.trans (infinity_lt binary64))
  obtain ⟨n, hn, hconvert⟩ := convert_eq (f := binary64) (g := binary32) (by decide)
    (hmagnitude.trans_lt hy)
  rw [hmagnitude] at hn
  rw [hconvert, magnitude_ofMagnitude _ ((min_le_left _ n).trans_lt (infinity_lt binary32))] at h
  have hle : n = m := by
    rcases min_choice binary32.infinity n with hmin | hmin <;> omega
  exact hle ▸ hn

end Binary

namespace Decimal.Represents

open BinaryFormat Binary

variable {d : Decimal} {m k r t y : Nat}

/-- **A decimal that all but hits a middle** of a coarse grid is read as a number that rounds to
the same magnitude. -/
theorem rounds_of_near (h : d.Represents m) (hm : m < binary32.infinity)
    (hdigits : d.digits < 2 ^ 53) (hy : y < binary64.infinity)
    (hread : ofParts? d.digits d.exponent = some (ofMagnitude binary64 false y))
    (hmost : d.value ≤ 2 ^ (128 : Int)) (hs : HalfUnits k r t) (hk : k < binary32.infinity)
    (hside : m = k ∧ d.value ≤ binary32.middle k ∨ m = k + 1 ∧ binary32.middle k ≤ d.value)
    (hnear : |d.value - binary32.middle k| ≤ 2 ^ ((t : Int) - 150) / 2 ^ 26)
    (hcoarse : 2 ^ ((t : Int) - 150) ≤ (10 : ℚ) ^ d.exponent) :
    binary32.Rounds (binary64.value y) m := by
  have hlt := hs.lt
  have hleast := hs.least
  have ht := hs.binade_lt hk
  by_cases hhit : d.value = binary32.middle k
  · obtain ⟨y', hy', hvalue, hread'⟩ := exists_ofParts?_of_hit hdigits (by omega)
      (Nat.succ_pos _) (hhit.trans hs.middle) hmost
    have heq := congrArg magnitude (Option.some.inj (hread.symm.trans hread'))
    rw [magnitude_ofMagnitude _ (hy.trans (infinity_lt binary64)),
      magnitude_ofMagnitude _ (hy'.trans (infinity_lt binary64))] at heq
    rw [heq, hvalue]
    exact h.rounds
  · have hgrid := gridExponent_le ht hcoarse
    have hvalue := d.exists_value_eq hgrid
    rw [hvalue, hs.middle] at hhit hnear hside
    obtain ⟨htens, hkept⟩ :=
      (near_odd_multiple ht (by omega) (by omega) (by omega) hnear).resolve_left hhit
    -- A decimal that does not end with a zero is on no coarser grid.
    have hexponent : d.exponent = gridExponent t := by
      by_contra hne
      obtain ⟨n, hn⟩ : ∃ n, (d.exponent - gridExponent t).toNat = n + 1 :=
        Nat.exists_eq_add_one.mpr (by omega)
      rw [hn, pow_succ, ← Nat.mul_assoc] at htens
      omega
    rw [hexponent, sub_self, Int.toNat_zero, pow_zero, mul_one] at hhit hside hkept
    rw [Int.toNat_natCast, ← hexponent, hread, Option.map_some, Option.some_inj] at hkept
    refine rounds_of_magnitude_convert hy hm (hkept.trans ?_)
    have hoffset := offset_pos_iff t d.digits (2 * r + 1)
    have hmagnitude := hs.magnitude
    unfold sideOf
    rcases hside with ⟨rfl, hle⟩ | ⟨rfl, hle⟩
    · rw [if_neg (hoffset.not.mpr hle.not_gt)]
      omega
    · rw [if_pos (hoffset.mpr (hle.lt_of_ne (Ne.symm hhit)))]
      omega

/-- **What is read for a shortest decimal** rounds to the magnitude it was written for. -/
theorem exists_ofParts? (h : d.Represents m) (hpos : 0 < m) (hm : m < binary32.infinity)
    (hdigits : d.digits < 2 ^ 53) :
    ∃ y, y < binary64.infinity ∧
      ofParts? d.digits d.exponent = some (ofMagnitude binary64 false y) ∧
      binary32.Rounds (binary64.value y) m := by
  obtain ⟨hleast, hmost⟩ := bounds_of_rounds hpos hm h.rounds
  obtain ⟨y, hy, hread, hclose⟩ :=
    ofParts?_close hdigits (natAbs_scale_le hdigits hleast hmost) hleast hmost
  obtain ⟨k, rfl⟩ := Nat.exists_eq_add_one.mpr hpos
  refine ⟨y, hy, hread, ?_⟩
  rcases lt_or_ge (binary64.value y) (binary32.middle (k + 1)) with hhigh | hhigh
  · rcases lt_or_ge (binary32.middle k) (binary64.value y) with hlow | hlow
    · exact rounds_of_lt_of_lt hlow hhigh
    · obtain ⟨r, t, hs⟩ := exists_halfUnits k
      have habove := (h.rounds.above k rfl).1
      have hnear := hs.abs_sub_middle_le hclose (.inr ⟨hlow, habove⟩)
      exact h.rounds_of_near hm hdigits hy hread hmost hs (Nat.lt_of_succ_lt hm)
        (.inr ⟨rfl, habove⟩) hnear (h.le_ten_zpow_of_near_low hs hnear)
  · obtain ⟨r, t, hs⟩ := exists_halfUnits (k + 1)
    have hbelow := h.rounds.below.1
    have hnear := hs.abs_sub_middle_le hclose (.inl ⟨hbelow, hhigh⟩)
    exact h.rounds_of_near hm hdigits hy hread hmost hs hm (.inl ⟨rfl, hbelow⟩) hnear
      (h.le_ten_zpow_of_near_high hs hnear)

end Decimal.Represents

namespace Binary

open BinaryFormat

/-! ### Numbers that come back -/

variable {x : Binary binary32} {negative : Bool} {significand digits : Nat} {scale exponent : Int}

/-- **A number of 32 bits comes back** from the digits of its shortest decimal, read as a number
of 64 bits. -/
theorem exists_ofParts?_shortest (hcontent : x.content = .finite negative significand exponent)
    (hpos : significand ≠ 0) :
    ∃ y, ofParts? (shortest binary32 significand exponent).digits
        (shortest binary32 significand exponent).exponent = some y ∧
      (ofMagnitude binary64 x.isNegative y.magnitude).convert binary32 = x := by
  obtain ⟨hrounds, hnearest⟩ := shortest_spec searchable_binary32 hcontent hpos
  have hfew := digits_shortest_lt searchable_binary32 hcontent hpos
  have hlt := magnitude_lt_of_content hcontent
  obtain ⟨y, hy, hread, hback⟩ := Decimal.Represents.exists_ofParts? ⟨hrounds, hnearest⟩
    (magnitude_pos_of_content hcontent hpos) hlt (hfew.trans (by decide))
  refine ⟨_, hread, ?_⟩
  rw [magnitude_ofMagnitude _ (hy.trans (infinity_lt binary64))]
  exact convert_ofMagnitude hlt hy hback

/-- A number comes back from digits that end with a zero behind the point, if they are not too
many. -/
theorem exists_ofParts?_whole (hcontent : x.content = .finite negative significand exponent)
    (hpos : significand ≠ 0) {n : Nat} (hn : n * 10 < 2 ^ 53)
    (hvalue : (n : ℚ) = (shortest binary32 significand exponent).value) :
    ∃ y, ofParts? (n * 10) (-1) = some y ∧
      (ofMagnitude binary64 x.isNegative y.magnitude).convert binary32 = x := by
  have hlt := magnitude_lt_of_content hcontent
  have hrounds := (shortest_spec searchable_binary32 hcontent hpos).1
  rw [← hvalue] at hrounds
  have hten : ((n * 10 : ℕ) : ℚ) * 10 ^ (-1 : Int) = n := by
    rw [zpow_neg_one, Nat.cast_mul]
    push_cast
    ring
  obtain ⟨hleast, hmost⟩ :=
    bounds_of_rounds (magnitude_pos_of_content hcontent hpos) hlt hrounds
  have hpos' : 0 < n := by
    rw [Nat.pos_iff_ne_zero]
    rintro rfl
    rw [Nat.cast_zero] at hleast
    exact absurd hleast (not_le.mpr (by positivity))
  obtain ⟨y, hy, hvalue', hread⟩ := exists_ofParts?_of_hit (t := 150) hn (by omega) hpos'
    (hten.trans (by simp)) (hten.trans_le hmost)
  refine ⟨_, hread, ?_⟩
  rw [magnitude_ofMagnitude _ (hy.trans (infinity_lt binary64))]
  refine convert_ofMagnitude hlt hy ?_
  rw [hvalue', hten]
  exact hrounds

end Binary

end StridedSlice
