import StridedSlice.Json.Token
import StridedSlice.Proofs.Shortest
/-!
# StridedSlice.Proofs.Scaling

**Reading a decimal** with a table of powers of ten. The reader multiplies or divides a
significand by an entry of the table (`Binary.ofParts?`). An entry is a rounded power, so the
result has gone through two roundings if the significand itself is not rounded, and it need not
be the number nearest to the decimal.

What is said of the result is `exists_ofParts?`: it is the nearest number to the significand scaled
by the entry. So it is off by four units of `2 ^ 53` parts at most (`ofParts?_close`), and where the
table is exact it is the decimal itself if that is a number (`ofParts?_exact`). Whatever is read is
finite (`isFinite_of_ofParts?`).
-/

namespace StridedSlice

/-! ### Products and quotients -/

namespace Binary

variable {f : BinaryFormat} {x y : Binary f}

theorem mul_eq (hf : 0 < f.fractionBits) (hx : x.IsFinite) (hy : y.IsFinite) :
    ∃ m, f.Rounds (f.value x.magnitude * f.value y.magnitude) m ∧
      x.mul y = ofMagnitude f (x.isNegative != y.isNegative) (min f.infinity m) := by
  obtain ⟨r, t, hmag, hleast, hmost, hcontent⟩ := content_eq_finite hx
  obtain ⟨r', t', hmag', hleast', hmost', hcontent'⟩ := content_eq_finite hy
  have hvalue : f.value x.magnitude * f.value y.magnitude =
      (r * r' : ℕ) * 2 ^ (f.leastExponent + t + (f.leastExponent + t')) := by
    rw [hmag, hmag', BinaryFormat.value_add_mul hleast hmost.le,
      BinaryFormat.value_add_mul hleast' hmost'.le, zpow_add₀ two_ne_zero (f.leastExponent + t)]
    push_cast
    ring
  rw [mul, hcontent, hcontent', hvalue]
  exact ofScaled_eq hf ..

theorem div_eq (hf : 0 < f.fractionBits) (hx : x.IsFinite) (hy : y.IsFinite)
    (hpos : 0 < f.value y.magnitude) :
    ∃ m, f.Rounds (f.value x.magnitude / f.value y.magnitude) m ∧
      x.div y = ofMagnitude f (x.isNegative != y.isNegative) (min f.infinity m) := by
  obtain ⟨r, t, hmag, hleast, hmost, hcontent⟩ := content_eq_finite hx
  obtain ⟨r', t', hmag', hleast', hmost', hcontent'⟩ := content_eq_finite hy
  rw [hmag', BinaryFormat.value_add_mul hleast' hmost'.le] at hpos
  have hr' : 0 < r' := by
    rw [Nat.pos_iff_ne_zero]
    rintro rfl
    simp at hpos
  have hpow := pow_toNat_div 2 (f.leastExponent + t - (f.leastExponent + t'))
  rw [neg_sub] at hpow
  have hvalue : f.value x.magnitude / f.value y.magnitude =
      (r * 2 ^ (f.leastExponent + t - (f.leastExponent + t')).toNat : ℕ) /
        (r' * 2 ^ (f.leastExponent + t' - (f.leastExponent + t)).toNat : ℕ) := by
    rw [hmag, hmag', BinaryFormat.value_add_mul hleast hmost.le,
      BinaryFormat.value_add_mul hleast' hmost'.le, mul_div_mul_comm, ← zpow_sub₀ two_ne_zero,
      Nat.cast_mul, Nat.cast_mul, mul_div_mul_comm, hpow]
    rfl
  rw [div, hcontent, hcontent', hvalue]
  exact nearest_eq hf _ _ (Nat.mul_pos hr' (Nat.two_pow_pos _))

/-- A quotient by no less than one is no larger. -/
theorem magnitude_div_le (hf : 0 < f.fractionBits) (hx : x.IsFinite) (hy : y.IsFinite)
    (hone : 1 ≤ f.value y.magnitude) : (x.div y).magnitude ≤ x.magnitude := by
  obtain ⟨m, hm, hdiv⟩ := div_eq hf hx hy (zero_lt_one.trans_le hone)
  have hnonneg := f.value_nonneg x.magnitude
  have hle : m ≤ x.magnitude :=
    f.value_strictMono.le_iff_le.mp (hm.value_le (div_le_self hnonneg hone))
  rw [hdiv, min_eq_right (hle.trans hx.le),
    magnitude_ofMagnitude _ ((hle.trans_lt hx).trans (infinity_lt f))]
  exact hle

/-! ### The table -/

/-- Numbers of a size that is in range. -/
theorem lt_infinity_of_rounds {q : ℚ} {m : Nat} (h : binary64.Rounds q m)
    (hq : q ≤ 3 * 2 ^ (1022 : Int)) : m < binary64.infinity := by
  obtain ⟨k, hk⟩ := binary64.exists_value_eq (1022 + 1074) (s := 3) (by decide)
  have hvalue : binary64.value k = 3 * 2 ^ (1022 : Int) := hk
  have hinf : binary64.value binary64.infinity = 2 ^ (1022 + 2 : Int) :=
    BinaryFormat.value_infinity (f := binary64) (by decide)
  have hfour : (2 : ℚ) ^ (2 : Int) = 4 := by norm_num
  rw [← binary64.value_strictMono.lt_iff_lt, hinf, zpow_add₀ two_ne_zero, hfour]
  have hle : binary64.value m ≤ 3 * 2 ^ (1022 : Int) := hvalue ▸ h.value_le (hvalue ▸ hq)
  have hpos : (0 : ℚ) < 2 ^ (1022 : Int) := by positivity
  generalize (2 : ℚ) ^ (1022 : Int) = unit at hle hpos ⊢
  linarith

/-- An entry of the table is finite and no less than one. -/
theorem exists_powerOfTen {n : Nat} (hn : n ≤ greatestPower) :
    ∃ p, binary64.Rounds (10 ^ n) p ∧ p < binary64.infinity ∧ 1 ≤ binary64.value p ∧
      powerOfTen n = ofMagnitude binary64 false p := by
  obtain ⟨p, hp, hnearest⟩ := nearest_eq (f := binary64) (by decide) false (10 ^ n)
    Nat.one_pos
  have hcast : ((10 ^ n : ℕ) : ℚ) / (1 : ℕ) = 10 ^ n := by simp
  rw [hcast] at hp
  have hmost : (10 : ℚ) ^ n ≤ 3 * 2 ^ (1022 : Int) :=
    calc (10 : ℚ) ^ n
        _ ≤ 10 ^ greatestPower := pow_le_pow_right₀ (by norm_num) hn
        _ ≤ 3 * 2 ^ (1022 : Int) := by
          have hle : 10 ^ greatestPower ≤ 3 * 2 ^ 1022 := by decide +kernel
          exact_mod_cast hle
  have hfinite := lt_infinity_of_rounds hp hmost
  obtain ⟨one, hone⟩ := binary64.exists_value_eq 1074 (s := 1) (by decide)
  have hvalue : binary64.value one = 1 := hone.trans (by norm_num [BinaryFormat.leastExponent])
  refine ⟨p, hp, hfinite, ?_, ?_⟩
  · rw [← hvalue]
    exact hp.le_value (hvalue.trans_le (one_le_pow₀ (by norm_num)))
  · rw [powerOfTen, Nat.pow_eq, hnearest, min_eq_right hfinite.le]

theorem isFinite_ofMagnitude {m : Nat} (negative : Bool) (h : m < f.infinity) :
    (ofMagnitude f negative m).IsFinite := by
  rw [IsFinite, magnitude_ofMagnitude _ (h.trans (infinity_lt f))]
  exact h

/-- The first powers of ten are numbers, so their entries are exact. -/
theorem value_powerOfTen {n p : Nat} (hn : n ≤ 22) (hp : binary64.Rounds (10 ^ n) p) :
    binary64.value p = 10 ^ n := by
  have hshort : 5 ^ n < 2 ^ 53 :=
    (Nat.pow_le_pow_right (by decide) hn).trans_lt (by norm_num)
  obtain ⟨k, hk⟩ := binary64.exists_value_eq (n + 1074) (s := 5 ^ n) hshort
  have hvalue : binary64.value k = 10 ^ n := by
    have hexponent : binary64.leastExponent + (n + 1074 : ℕ) = n := by
      show (-1074 : Int) + (n + 1074 : ℕ) = n
      omega
    rw [hk, hexponent, zpow_natCast]
    push_cast
    rw [← mul_pow]
    norm_num
  rw [← hvalue] at hp ⊢
  rw [hp.unique (binary64.rounds_value k)]

/-! ### What is read is finite -/

theorem isFinite_lower {x : Binary binary64} (hx : x.IsFinite) (n : Nat) :
    (x.lower n).IsFinite := by
  induction n generalizing x with
  | zero => exact hx
  | succ n ih =>
      obtain ⟨p, -, hp, hone, hpower⟩ := exists_powerOfTen le_rfl
      have hfinite : (powerOfTen greatestPower).IsFinite := by
        rw [hpower]
        exact isFinite_ofMagnitude false hp
      rw [lower]
      split_ifs
      · exact hx
      · refine ih ((magnitude_div_le (by decide) hx hfinite ?_).trans_lt hx)
        rwa [hpower, magnitude_ofMagnitude _ (hp.trans (infinity_lt binary64))]

/-- A significand of 64 bits is in range. -/
theorem isFinite_significand {s : Nat} (hs : s < UInt64.size) :
    (nearest binary64 false s 1).IsFinite := by
  obtain ⟨m, hm, hnearest⟩ := nearest_eq (f := binary64) (by decide) false s Nat.one_pos
  have hfinite : m < binary64.infinity := by
    refine lt_infinity_of_rounds hm ?_
    have hlt : (s : ℚ) < UInt64.size := by exact_mod_cast hs
    calc (s : ℚ) / (1 : ℕ)
        _ = s := by simp
        _ ≤ UInt64.size := hlt.le
        _ ≤ 3 * 2 ^ (1022 : Int) := by
          have hle : UInt64.size ≤ 3 * 2 ^ 1022 := by decide +kernel
          exact_mod_cast hle
  rw [hnearest, min_eq_right hfinite.le]
  exact isFinite_ofMagnitude false hfinite

/-- **Whatever is read is finite.** -/
theorem isFinite_of_ofParts? {s : Nat} {scale : Int} {x : Binary binary64} (hs : s < UInt64.size)
    (h : ofParts? s scale = some x) : x.IsFinite := by
  have hsignificand := isFinite_significand hs
  have hentry {n : Nat} (hn : n ≤ greatestPower) :
      (powerOfTen n).IsFinite ∧ 1 ≤ binary64.value (powerOfTen n).magnitude := by
    obtain ⟨p, -, hp, hone, hpower⟩ := exists_powerOfTen hn
    rw [hpower, magnitude_ofMagnitude _ (hp.trans (infinity_lt binary64))]
    exact ⟨isFinite_ofMagnitude false hp, hone⟩
  unfold ofParts? at h
  dsimp only at h
  split_ifs at h with hnegative htable hinfinite hzero
  · cases h
    have hrest : scale.natAbs - (scale.natAbs - 1) / greatestPower * greatestPower ≤
        greatestPower := by
      have hmod := Nat.div_add_mod' (scale.natAbs - 1) greatestPower
      have hlt := Nat.mod_lt (scale.natAbs - 1) (show 0 < greatestPower by decide)
      omega
    have hlower := isFinite_lower hsignificand ((scale.natAbs - 1) / greatestPower)
    exact (magnitude_div_le (by decide) hlower (hentry hrest).1 (hentry hrest).2).trans_lt hlower
  · cases h
    have hle : scale.toNat ≤ greatestPower := by omega
    obtain ⟨m, -, hmul⟩ := mul_eq (by decide) hsignificand (hentry hle).1
    rw [hmul, magnitude_ofMagnitude _
      ((min_le_left _ m).trans_lt (infinity_lt binary64))] at hinfinite
    rw [hmul]
    exact isFinite_ofMagnitude _ (lt_of_le_of_ne (min_le_left _ _) hinfinite)
  · cases h
    exact hsignificand

/-! ### Within the table -/

/-- A significand, multiplied or divided by a power of ten. -/
def scaled (scale : Int) (a power : ℚ) : ℚ := if scale < 0 then a / power else a * power

theorem scaled_ten (scale : Int) (a : ℚ) :
    scaled scale a (10 ^ scale.natAbs) = a * 10 ^ scale := by
  unfold scaled
  split_ifs with hnegative
  · obtain ⟨n, rfl⟩ : ∃ n : ℕ, scale = -n := ⟨scale.natAbs, by omega⟩
    rw [Int.natAbs_neg, Int.natAbs_natCast, zpow_neg, zpow_natCast, div_eq_mul_inv]
  · obtain ⟨n, rfl⟩ := Int.eq_ofNat_of_zero_le (not_lt.mp hnegative)
    rw [Int.natAbs_natCast, zpow_natCast]

/-- Numbers of a size with a full significand. -/
theorem full_of_le {q : ℚ} (hq : 2 ^ (-200 : Int) ≤ q) :
    2 ^ binary64.fractionBits * 2 ^ binary64.leastExponent ≤ q :=
  calc (2 : ℚ) ^ binary64.fractionBits * 2 ^ binary64.leastExponent
      _ = 2 ^ ((52 : ℕ) + (-1074) : Int) := by
        rw [zpow_add₀ two_ne_zero, zpow_natCast]
        rfl
      _ ≤ 2 ^ (-200 : Int) := zpow_le_zpow_right₀ one_le_two (by norm_num)
      _ ≤ q := hq

/-- A rounded power gives a result that is off by a rounding or two. -/
theorem abs_scaled_sub_le {scale : Int} {p : Nat} (hp : binary64.Rounds (10 ^ scale.natAbs) p)
    (hone : 1 ≤ binary64.value p) {a : ℚ} (ha : 0 ≤ a) :
    |scaled scale a (binary64.value p) - a * 10 ^ scale| ≤ a * 10 ^ scale / 2 ^ 52 := by
  have hten : (1 : ℚ) ≤ 10 ^ scale.natAbs := one_le_pow₀ (by norm_num)
  have herror := hp.abs_sub_le (full_of_le (hten.trans' (by norm_num)))
  have hbits : binary64.fractionBits + 1 = 53 := rfl
  rw [hbits] at herror
  rw [← scaled_ten]
  generalize (10 : ℚ) ^ scale.natAbs = ten at *
  generalize binary64.value p = power at *
  rw [abs_le] at herror
  unfold scaled
  split_ifs with hnegative
  · have hsplit : a / power - a / ten = a / ten * ((ten - power) / power) := by
      field_simp
    have hratio : |(ten - power) / power| ≤ 1 / 2 ^ 52 := by
      rw [abs_div, abs_of_pos (zero_lt_one.trans_le hone), div_le_iff₀ (by linarith), abs_le]
      constructor <;> linarith
    have hquotient : 0 ≤ a / ten := div_nonneg ha (by linarith)
    rw [hsplit, abs_mul, abs_of_nonneg hquotient]
    linarith [mul_le_mul_of_nonneg_left hratio hquotient]
  · have hdistance : |power - ten| ≤ ten / 2 ^ 52 := by
      rw [abs_le]
      constructor <;> linarith
    rw [← mul_sub, abs_mul, abs_of_nonneg ha, mul_div_assoc]
    exact mul_le_mul_of_nonneg_left hdistance ha

/-- A significand that is not rounded. -/
theorem exists_significand {s : Nat} (hs : s < 2 ^ 53) :
    ∃ k, binary64.value k = s ∧ k < binary64.infinity ∧
      nearest binary64 false s 1 = ofMagnitude binary64 false k := by
  obtain ⟨k, hk⟩ := binary64.exists_value_eq 1074 (s := s) hs
  have hvalue : binary64.value k = s :=
    hk.trans (by norm_num [BinaryFormat.leastExponent])
  obtain ⟨m, hm, hnearest⟩ := nearest_eq (f := binary64) (by decide) false s Nat.one_pos
  rw [Nat.cast_one, div_one, ← hvalue] at hm
  obtain rfl := hm.unique (binary64.rounds_value k)
  have hfinite : m < binary64.infinity := by
    refine lt_infinity_of_rounds hm ?_
    have hlt : (s : ℚ) < 2 ^ 53 := by exact_mod_cast hs
    calc binary64.value m
        _ = s := hvalue
        _ ≤ 2 ^ (53 : Int) := by exact_mod_cast hlt.le
        _ ≤ 2 ^ (1022 : Int) := zpow_le_zpow_right₀ one_le_two (by norm_num)
        _ ≤ 3 * 2 ^ (1022 : Int) := le_mul_of_one_le_left (by positivity) (by norm_num)
  exact ⟨m, hvalue, hfinite, by rw [hnearest, min_eq_right hfinite.le]⟩

/-- Within the table, a negative scale takes one division. -/
theorem ofParts?_of_neg {s : Nat} {scale : Int} (hnegative : scale < 0)
    (hscale : scale.natAbs ≤ greatestPower) :
    ofParts? s scale = some ((nearest binary64 false s 1).div (powerOfTen scale.natAbs)) := by
  have hsteps : (scale.natAbs - 1) / greatestPower = 0 := Nat.div_eq_of_lt (by omega)
  unfold ofParts?
  dsimp only
  rw [if_pos hnegative, hsteps, Nat.zero_mul, Nat.sub_zero, lower]

/-- Within the table, another scale takes one multiplication, whose result is in range. -/
theorem ofParts?_of_nonneg {s : Nat} {scale : Int} (hnonneg : 0 ≤ scale)
    (hscale : scale.natAbs ≤ greatestPower)
    (hfinite : ((nearest binary64 false s 1).mul (powerOfTen scale.natAbs)).IsFinite) :
    ofParts? s scale = some ((nearest binary64 false s 1).mul (powerOfTen scale.natAbs)) := by
  have htoNat : scale.toNat = scale.natAbs := by omega
  unfold ofParts?
  dsimp only
  rw [if_neg hnonneg.not_gt, if_pos (by omega), htoNat]
  exact if_neg hfinite.ne

/-- **What is read** is the number nearest to the significand, scaled by an entry of the table. -/
theorem exists_ofParts? {s : Nat} {scale : Int} (hs : s < 2 ^ 53)
    (hscale : scale.natAbs ≤ greatestPower) (hmost : (s : ℚ) * 10 ^ scale ≤ 2 ^ (128 : Int)) :
    ∃ p m, binary64.Rounds (10 ^ scale.natAbs) p ∧ 1 ≤ binary64.value p ∧
      binary64.Rounds (scaled scale s (binary64.value p)) m ∧ m < binary64.infinity ∧
      ofParts? s scale = some (ofMagnitude binary64 false m) := by
  obtain ⟨k, hk, hkfinite, hsignificand⟩ := exists_significand hs
  obtain ⟨p, hp, hpfinite, hone, hpower⟩ := exists_powerOfTen hscale
  have hkwidth := hkfinite.trans (infinity_lt binary64)
  have hpwidth := hpfinite.trans (infinity_lt binary64)
  have hrange {m : Nat} (hm : binary64.Rounds (scaled scale s (binary64.value p)) m) :
      m < binary64.infinity := by
    refine lt_infinity_of_rounds hm ?_
    have hclose := (abs_le.mp (abs_scaled_sub_le hp hone (Nat.cast_nonneg s))).2
    have hpow : (2 : ℚ) ^ (128 : Int) ≤ 2 ^ (1022 : Int) :=
      zpow_le_zpow_right₀ one_le_two (by norm_num)
    have hpos : (0 : ℚ) < 2 ^ (128 : Int) := by positivity
    generalize (2 : ℚ) ^ (1022 : Int) = most at *
    linarith
  have hx := isFinite_ofMagnitude false hkfinite
  have hy := isFinite_ofMagnitude false hpfinite
  rcases lt_or_ge scale 0 with hnegative | hnonneg
  · have hscaled : scaled scale s (binary64.value p) = s / binary64.value p := if_pos hnegative
    obtain ⟨m, hm, hdiv⟩ := div_eq (by decide) hx hy
      (by rw [magnitude_ofMagnitude _ hpwidth]; linarith)
    rw [magnitude_ofMagnitude _ hkwidth, magnitude_ofMagnitude _ hpwidth, hk, ← hscaled] at hm
    have hfinite := hrange hm
    rw [isNegative_ofMagnitude _ hkwidth, isNegative_ofMagnitude _ hpwidth,
      min_eq_right hfinite.le] at hdiv
    refine ⟨p, m, hp, hone, hm, hfinite, ?_⟩
    rw [ofParts?_of_neg hnegative hscale, hpower, hsignificand, hdiv]
    rfl
  · have hscaled : scaled scale s (binary64.value p) = s * binary64.value p :=
      if_neg hnonneg.not_gt
    obtain ⟨m, hm, hmul⟩ := mul_eq (by decide) hx hy
    rw [magnitude_ofMagnitude _ hkwidth, magnitude_ofMagnitude _ hpwidth, hk, ← hscaled] at hm
    have hfinite := hrange hm
    rw [isNegative_ofMagnitude _ hkwidth, isNegative_ofMagnitude _ hpwidth,
      min_eq_right hfinite.le] at hmul
    refine ⟨p, m, hp, hone, hm, hfinite, ?_⟩
    rw [ofParts?_of_nonneg hnonneg hscale, hpower, hsignificand, hmul]
    · rfl
    · rw [hpower, hsignificand, hmul]
      exact isFinite_ofMagnitude _ hfinite

/-- **The error of reading** is two roundings, so four parts in `2 ^ 53` are more than enough. -/
theorem ofParts?_close {s : Nat} {scale : Int} (hs : s < 2 ^ 53)
    (hscale : scale.natAbs ≤ greatestPower) (hleast : (2 : ℚ) ^ (-150 : Int) ≤ s * 10 ^ scale)
    (hmost : (s : ℚ) * 10 ^ scale ≤ 2 ^ (128 : Int)) :
    ∃ m, m < binary64.infinity ∧ ofParts? s scale = some (ofMagnitude binary64 false m) ∧
      |binary64.value m - s * 10 ^ scale| ≤ s * 10 ^ scale / 2 ^ 51 := by
  obtain ⟨p, m, hp, hone, hm, hfinite, hread⟩ := exists_ofParts? hs hscale hmost
  refine ⟨m, hfinite, hread, ?_⟩
  have hclose := abs_le.mp (abs_scaled_sub_le hp hone (Nat.cast_nonneg s))
  have hhalf : (2 : ℚ) ^ (-200 : Int) ≤ 2 ^ (-150 : Int) / 2 := by norm_num
  have hpos : (0 : ℚ) < 2 ^ (-150 : Int) := by positivity
  generalize (2 : ℚ) ^ (-150 : Int) = least at *
  generalize (s : ℚ) * 10 ^ scale = decimal at *
  have herror := abs_le.mp (hm.abs_sub_le (full_of_le (hhalf.trans (by linarith))))
  have hbits : binary64.fractionBits + 1 = 53 := rfl
  rw [hbits] at herror
  rw [abs_le]
  constructor <;> linarith

/-- **Exact reading**: a decimal that is a number is read as it, where the table is exact. -/
theorem ofParts?_exact {s : Nat} {scale : Int} (hs : s < 2 ^ 53) (hscale : scale.natAbs ≤ 22)
    (hmost : (s : ℚ) * 10 ^ scale ≤ 2 ^ (128 : Int)) {k : Nat}
    (hk : binary64.value k = s * 10 ^ scale) :
    k < binary64.infinity ∧ ofParts? s scale = some (ofMagnitude binary64 false k) := by
  obtain ⟨p, m, hp, -, hm, hfinite, hread⟩ :=
    exists_ofParts? hs (hscale.trans (by decide)) hmost
  rw [value_powerOfTen hscale hp, scaled_ten, ← hk] at hm
  obtain rfl := hm.unique (binary64.rounds_value k)
  exact ⟨hfinite, hread⟩

end Binary

/-! ### Numerals -/

theorem lt_pow_length_toDigits (n : Nat) : n < 10 ^ (Nat.toDigits 10 n).length :=
  (Nat.length_toDigits_le_iff (by decide) Nat.length_toDigits_pos).mp le_rfl

namespace Json.Numeral

variable {digits n s : Nat}

/-- Digits are appended as long as the significand fits. -/
theorem appendDigits_fst_lt (hs : s < UInt64.size) : (appendDigits digits n s).1 < UInt64.size := by
  induction n generalizing s with
  | zero => exact hs
  | succ n ih =>
      rw [appendDigits]
      split_ifs with hfits
      · exact ih hfits
      · exact hs

/-- All digits are appended if all of them together fit. -/
theorem appendDigits_eq (h : s * 10 ^ n + digits % 10 ^ n < UInt64.size) :
    appendDigits digits n s = (s * 10 ^ n + digits % 10 ^ n, 0) := by
  induction n generalizing s with
  | zero => simp [appendDigits, Nat.mod_one]
  | succ n ih =>
      have hall : (10 * s + digits / 10 ^ n % 10) * 10 ^ n + digits % 10 ^ n =
          s * 10 ^ (n + 1) + digits % 10 ^ (n + 1) := by
        rw [Nat.mod_pow_succ]
        ring
      have hpos : 0 < 10 ^ n := by positivity
      have hfits : 10 * s + digits / 10 ^ n % 10 < UInt64.size := by
        have hle := Nat.le_mul_of_pos_right (10 * s + digits / 10 ^ n % 10) hpos
        omega
      rw [appendDigits]
      simp only [Nat.pow_eq]
      rw [if_pos hfits, ih (hall ▸ h), hall]

theorem parts_fst_lt (n : Numeral) : n.parts.1 < UInt64.size :=
  appendDigits_fst_lt (appendDigits_fst_lt (by decide))

/-- A numeral whose digits fit is scaled as it is written. -/
theorem parts_eq {n : Numeral} (h : n.digits < UInt64.size) : n.parts = (n.digits, n.scale) := by
  unfold parts
  simp only [Nat.pow_eq]
  set whole := n.digits / 10 ^ n.places
  have hall : whole * 10 ^ n.places + n.digits % 10 ^ n.places = n.digits := Nat.div_add_mod' ..
  have hlength := lt_pow_length_toDigits whole
  have hwhole : 0 * 10 ^ (Nat.toDigits 10 whole).length +
      whole % 10 ^ (Nat.toDigits 10 whole).length = whole := by
    rw [Nat.mod_eq_of_lt hlength]
    omega
  have hle : whole ≤ n.digits := Nat.div_le_self ..
  have hread : appendDigits whole (Nat.toDigits 10 whole).length 0 = (whole, 0) := by
    rw [appendDigits_eq (by omega), hwhole]
  have hfits : whole * 10 ^ n.places + n.digits % 10 ^ n.places < UInt64.size := hall.trans_lt h
  rw [hread, appendDigits_eq hfits, hall]
  simp

end Json.Numeral

end StridedSlice
