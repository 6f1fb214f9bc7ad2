import StridedSlice.Element
import Mathlib.Algebra.Order.Field.Power
import Mathlib.Algebra.Order.Field.Rat
import Mathlib.Algebra.Ring.Parity
import Mathlib.Tactic.Linarith
import Mathlib.Tactic.Ring
import Mathlib.Tactic.FieldSimp
import Mathlib.Tactic.Positivity
/-!
# StridedSlice.Proofs.Rounding

**Rounding to a binary format**, told by rational numbers. The magnitudes of a format stand
for values that grow with them (`BinaryFormat.value`), and between two neighbours lies their
middle. A magnitude is the one nearest to a number if the number lies between the middles on
its two sides (`BinaryFormat.Rounds`); there is one such magnitude only.

`Binary.nearest` computes with quotients of natural numbers. `nearest_eq` says that what it
finds is the nearest magnitude, up to infinity, and everything else about conversions is read
off that:

* `convert_eq`: conversion to another format is one rounding;
* `convert_convert`: a format that has all numbers of another keeps them exactly, so they can
  be converted back.
-/

namespace StridedSlice

namespace BinaryFormat

variable {f : BinaryFormat}

/-! ### Values -/

/-- The number of units, of two to the least exponent, that a magnitude stands for. -/
def units (f : BinaryFormat) (m : Nat) : Nat :=
  let field := m / 2 ^ f.fractionBits
  if field = 0 then m
  else (2 ^ f.fractionBits + m % 2 ^ f.fractionBits) * 2 ^ (field - 1)

/-- The value of a magnitude. Infinity has one too: that of the next number, if the exponents
went on. -/
def value (f : BinaryFormat) (m : Nat) : ℚ := f.units m * 2 ^ f.leastExponent

theorem units_add_mul {r t : Nat} (hleast : t = 0 ∨ 2 ^ f.fractionBits ≤ r)
    (hmost : r ≤ 2 ^ (f.fractionBits + 1)) :
    f.units (r + t * 2 ^ f.fractionBits) = r * 2 ^ t := by
  have hpos : 0 < 2 ^ f.fractionBits := Nat.two_pow_pos _
  rw [Nat.pow_succ, Nat.mul_two] at hmost
  unfold units
  dsimp only
  rw [Nat.add_mul_div_right _ _ hpos, Nat.add_mul_mod_self_right]
  rcases Nat.lt_or_ge r (2 ^ f.fractionBits) with hr | hr
  · obtain rfl := hleast.resolve_right (Nat.not_le_of_lt hr)
    rw [Nat.div_eq_of_lt hr, if_pos rfl]
    simp
  · obtain ⟨s, rfl⟩ := Nat.exists_eq_add_of_le hr
    rw [Nat.add_div_left _ hpos, Nat.add_mod_left, Nat.succ_add, if_neg (Nat.succ_ne_zero _),
      Nat.succ_sub_one]
    rcases Nat.lt_or_ge s (2 ^ f.fractionBits) with hs | hs
    · rw [Nat.div_eq_of_lt hs, Nat.mod_eq_of_lt hs, Nat.zero_add]
    · obtain rfl : s = 2 ^ f.fractionBits := by omega
      rw [Nat.div_self hpos, Nat.mod_self]
      ring

/-- Every magnitude is a significand and a number of binades. -/
theorem exists_eq_add_mul (f : BinaryFormat) (m : Nat) :
    ∃ r t, m = r + t * 2 ^ f.fractionBits ∧ (t = 0 ∨ 2 ^ f.fractionBits ≤ r) ∧
      r < 2 ^ (f.fractionBits + 1) := by
  have hpos : 0 < 2 ^ f.fractionBits := Nat.two_pow_pos _
  have hmod := Nat.mod_lt m hpos
  have hdiv := Nat.div_add_mod' m (2 ^ f.fractionBits)
  rw [Nat.pow_succ, Nat.mul_two]
  cases hfield : m / 2 ^ f.fractionBits with
  | zero =>
      rw [hfield] at hdiv
      exact ⟨m, 0, by omega, .inl rfl, by omega⟩
  | succ t =>
      refine ⟨2 ^ f.fractionBits + m % 2 ^ f.fractionBits, t, ?_, .inr (by omega), by omega⟩
      rw [hfield, Nat.succ_mul] at hdiv
      omega

theorem units_lt_units_succ (f : BinaryFormat) (m : Nat) : f.units m < f.units (m + 1) := by
  obtain ⟨r, t, rfl, hleast, hmost⟩ := f.exists_eq_add_mul m
  rw [Nat.add_right_comm, units_add_mul hleast hmost.le,
    units_add_mul (hleast.imp_right (by omega)) hmost]
  exact Nat.mul_lt_mul_of_pos_right (Nat.lt_succ_self r) (Nat.two_pow_pos t)

theorem units_strictMono (f : BinaryFormat) : StrictMono f.units :=
  strictMono_nat_of_lt_succ f.units_lt_units_succ

theorem value_strictMono (f : BinaryFormat) : StrictMono f.value := by
  intro m n h
  have hunits : (f.units m : ℚ) < f.units n := by exact_mod_cast f.units_strictMono h
  exact mul_lt_mul_of_pos_right hunits (by positivity)

theorem value_zero (f : BinaryFormat) : f.value 0 = 0 := by
  simp [value, units]

theorem value_nonneg (f : BinaryFormat) (m : Nat) : 0 ≤ f.value m := by
  rw [← f.value_zero]
  exact f.value_strictMono.monotone (Nat.zero_le m)

/-! ### The nearest magnitude -/

/-- Half-way between a magnitude and the next. -/
def middle (f : BinaryFormat) (m : Nat) : ℚ := (f.value m + f.value (m + 1)) / 2

theorem middle_strictMono (f : BinaryFormat) : StrictMono f.middle := by
  intro m n h
  have hthis := f.value_strictMono h
  have hnext := f.value_strictMono (Nat.succ_lt_succ h)
  unfold middle
  linarith

/-- The magnitude nearest to `q`: `q` lies between the middles on both sides, and on one of
them only if the magnitude is even. -/
structure Rounds (f : BinaryFormat) (q : ℚ) (m : Nat) : Prop where
  above : ∀ k, m = k + 1 → f.middle k ≤ q ∧ (q = f.middle k → Even m)
  below : q ≤ f.middle m ∧ (q = f.middle m → Even m)

theorem Rounds.le {q : ℚ} {m n : Nat} (hm : f.Rounds q m) (hn : f.Rounds q n) : n ≤ m := by
  by_contra hlt
  obtain ⟨k, rfl⟩ := Nat.exists_eq_add_of_lt (Nat.lt_of_not_le hlt)
  have hmono : f.middle m ≤ f.middle (m + k) := f.middle_strictMono.monotone (Nat.le_add_right m k)
  obtain ⟨habove, heven⟩ := hn.above (m + k) rfl
  -- The middles in between would be one, and both its neighbours even.
  have hq : q = f.middle m := le_antisymm hm.below.1 (hmono.trans habove)
  have hk : q = f.middle (m + k) := le_antisymm (hm.below.1.trans hmono) habove
  obtain rfl : k = 0 := by
    have := f.middle_strictMono.injective (hq.symm.trans hk)
    omega
  exact Nat.even_add_one.mp (heven hk) (hm.below.2 hq)

theorem Rounds.unique {q : ℚ} {m n : Nat} (hm : f.Rounds q m) (hn : f.Rounds q n) : m = n :=
  Nat.le_antisymm (hn.le hm) (hm.le hn)

/-- A value rounds to itself. -/
theorem rounds_value (f : BinaryFormat) (m : Nat) : f.Rounds (f.value m) m where
  above := by
    rintro k rfl
    have hlt := f.value_strictMono (Nat.lt_succ_self k)
    unfold middle
    exact ⟨by linarith, fun h => absurd h (by linarith)⟩
  below := by
    have hlt := f.value_strictMono (Nat.lt_succ_self m)
    unfold middle
    exact ⟨by linarith, fun h => absurd h (by linarith)⟩

theorem value_add_mul {r t : Nat} (hleast : t = 0 ∨ 2 ^ f.fractionBits ≤ r)
    (hmost : r ≤ 2 ^ (f.fractionBits + 1)) :
    f.value (r + t * 2 ^ f.fractionBits) = r * 2 ^ (f.leastExponent + t) := by
  rw [value, units_add_mul hleast hmost, zpow_add₀ two_ne_zero, zpow_natCast]
  push_cast
  ring

/-- The next value is one step away, or two if the significand is full. -/
theorem le_value_succ {r t : Nat} (hleast : t = 0 ∨ 2 ^ f.fractionBits ≤ r)
    (hmost : r ≤ 2 ^ (f.fractionBits + 1)) :
    (r + 1) * 2 ^ (f.leastExponent + t) ≤ f.value (r + t * 2 ^ f.fractionBits + 1) := by
  rcases hmost.lt_or_eq with hlt | rfl
  · rw [Nat.add_right_comm, value_add_mul (hleast.imp_right (by omega)) hlt]
    push_cast
    exact le_rfl
  · have hpos : 0 < 2 ^ f.fractionBits := Nat.two_pow_pos _
    have hnext : 2 ^ (f.fractionBits + 1) + t * 2 ^ f.fractionBits + 1 =
        (2 ^ f.fractionBits + 1) + (t + 1) * 2 ^ f.fractionBits := by ring
    have hmost' : 2 ^ f.fractionBits + 1 ≤ 2 ^ (f.fractionBits + 1) := by
      rw [Nat.pow_succ]
      omega
    have hunit : (0 : ℚ) < 2 ^ (f.leastExponent + t) := by positivity
    rw [hnext, value_add_mul (.inr (Nat.le_succ _)) hmost', Nat.cast_add_one t, ← add_assoc,
      zpow_add_one₀ two_ne_zero]
    push_cast
    rw [pow_succ]
    nlinarith

/-- What is rounded to `r` steps is rounded to the magnitude of `r` steps. -/
theorem rounds_of_steps (hf : 0 < f.fractionBits) {q : ℚ} {r t : Nat}
    (hleast : t = 0 ∨
      2 ^ (f.fractionBits : ℤ) * 2 ^ (f.leastExponent + t) ≤ q ∧ 2 ^ f.fractionBits ≤ r)
    (hmost : r ≤ 2 ^ (f.fractionBits + 1))
    (habove : ((r : ℚ) - 1 / 2) * 2 ^ (f.leastExponent + t) ≤ q)
    (hbelow : q ≤ ((r : ℚ) + 1 / 2) * 2 ^ (f.leastExponent + t))
    (heven : q = ((r : ℚ) - 1 / 2) * 2 ^ (f.leastExponent + t) ∨
      q = ((r : ℚ) + 1 / 2) * 2 ^ (f.leastExponent + t) → Even r) :
    f.Rounds q (r + t * 2 ^ f.fractionBits) := by
  have hleast' : t = 0 ∨ 2 ^ f.fractionBits ≤ r := hleast.imp_right And.right
  have hparity : Even r → Even (r + t * 2 ^ f.fractionBits) := by
    intro h
    exact h.add ((Nat.even_pow.mpr ⟨even_two, hf.ne'⟩).mul_left t)
  have hunit : (0 : ℚ) < 2 ^ (f.leastExponent + t) := by positivity
  have hvalue := value_add_mul hleast' hmost
  constructor
  · intro k hk
    by_cases hfirst : t = 0 ∨ 2 ^ f.fractionBits < r
    · -- The value below is one step away.
      obtain ⟨s, rfl⟩ : ∃ s, r = s + 1 := Nat.exists_eq_add_one.mpr (by
        rcases hfirst with rfl | h <;> omega)
      have hk' : k = s + t * 2 ^ f.fractionBits := by omega
      have hprev : f.value (s + t * 2 ^ f.fractionBits) = s * 2 ^ (f.leastExponent + t) :=
        value_add_mul (hfirst.imp_right (by omega)) (by omega)
      have hmiddle : f.middle k = (((s + 1 : ℕ) : ℚ) - 1 / 2) * 2 ^ (f.leastExponent + t) := by
        rw [middle, ← hk, hvalue, hk', hprev]
        push_cast
        ring
      rw [hmiddle]
      exact ⟨habove, fun h => hparity (heven (.inl h))⟩
    · -- The value below is half a step away, and `q` is no less than the value itself.
      push Not at hfirst
      obtain ⟨hq, hr⟩ := hleast.resolve_left hfirst.1
      obtain rfl : r = 2 ^ f.fractionBits := le_antisymm hfirst.2 hr
      have hprev : f.value k < f.value (k + 1) := f.value_strictMono (Nat.lt_succ_self k)
      have hlt : f.middle k < q := by
        rw [← hk, hvalue] at hprev
        rw [middle, ← hk, hvalue]
        push_cast at hprev hq ⊢
        rw [zpow_natCast] at hq
        linarith
      exact ⟨hlt.le, fun h => absurd h hlt.ne'⟩
  · have hnext := le_value_succ hleast' hmost
    have hle : ((r : ℚ) + 1 / 2) * 2 ^ (f.leastExponent + t) ≤
        f.middle (r + t * 2 ^ f.fractionBits) := by
      unfold middle
      rw [hvalue]
      linarith
    refine ⟨hbelow.trans hle, fun h => hparity (heven (.inr (le_antisymm hbelow ?_)))⟩
    rw [h]
    exact hle

variable {q : ℚ} {m k : Nat}

/-! ### Rounding keeps the order -/

theorem Rounds.half_le (h : f.Rounds q m) (hk : k < m) : (f.value k + f.value m) / 2 ≤ q := by
  obtain ⟨j, rfl⟩ := Nat.exists_eq_add_one.mpr (Nat.zero_lt_of_lt hk)
  have hmono := f.value_strictMono.monotone (Nat.lt_succ_iff.mp hk)
  have hmiddle := (h.above j rfl).1
  unfold middle at hmiddle
  linarith

theorem Rounds.le_half (h : f.Rounds q m) (hk : m < k) : q ≤ (f.value m + f.value k) / 2 := by
  have hmono := f.value_strictMono.monotone (Nat.succ_le_of_lt hk)
  have hmiddle := h.below.1
  unfold middle at hmiddle
  linarith

theorem Rounds.value_le (h : f.Rounds q m) (hle : q ≤ f.value k) : f.value m ≤ f.value k := by
  rcases Nat.lt_or_ge k m with hlt | hge
  · have hhalf := h.half_le hlt
    linarith
  · exact f.value_strictMono.monotone hge

theorem Rounds.le_value (h : f.Rounds q m) (hle : f.value k ≤ q) : f.value k ≤ f.value m := by
  rcases Nat.lt_or_ge m k with hlt | hge
  · have hhalf := h.le_half hlt
    linarith
  · exact f.value_strictMono.monotone hge

/-- What lies strictly between both middles of a magnitude. -/
theorem rounds_of_lt_of_lt (habove : f.middle k < q) (hbelow : q < f.middle (k + 1)) :
    f.Rounds q (k + 1) where
  above := by
    intro j hj
    obtain rfl := Nat.succ.inj hj
    exact ⟨habove.le, fun h => absurd h habove.ne'⟩
  below := ⟨hbelow.le, fun h => absurd h hbelow.ne⟩

/-- Between the middles, strictly if the magnitude is odd. -/
theorem Rounds.lt_middle (h : f.Rounds q m) (hodd : ¬ Even m) : q < f.middle m :=
  h.below.1.lt_of_ne fun heq => hodd (h.below.2 heq)

/-- A unit is two half units. -/
theorem two_zpow_unit (f : BinaryFormat) (t : Nat) :
    (2 : ℚ) ^ (f.leastExponent + t) = 2 * 2 ^ (f.leastExponent + t - 1) := by
  rw [← zpow_one_add₀ two_ne_zero, add_sub_cancel]

/-- A middle is an odd number of half units. -/
theorem middle_add_mul {r t : Nat} (hleast : t = 0 ∨ 2 ^ f.fractionBits ≤ r)
    (hmost : r < 2 ^ (f.fractionBits + 1)) :
    f.middle (r + t * 2 ^ f.fractionBits) =
      (2 * r + 1 : ℕ) * 2 ^ (f.leastExponent + t - 1) := by
  have hvalue := value_add_mul hleast hmost.le
  have hnext := value_add_mul (hleast.imp_right Nat.le_succ_of_le) hmost
  rw [Nat.succ_add] at hnext
  rw [middle, hvalue, hnext, f.two_zpow_unit]
  push_cast
  ring

/-- Half a unit of the last place is at most this part of a number. The number has to be large
enough for a full significand. -/
theorem half_unit_le {r t : Nat} (hq : 2 ^ f.fractionBits * 2 ^ f.leastExponent ≤ q)
    (hleast : t = 0 ∨ 2 ^ f.fractionBits ≤ r)
    (hr : (2 * r) * (2 : ℚ) ^ (f.leastExponent + t - 1) ≤ q) :
    2 ^ (f.leastExponent + t - 1) ≤ q / 2 ^ (f.fractionBits + 1) := by
  have hfull : (0 : ℚ) < 2 ^ (f.fractionBits + 1) := by positivity
  have hunit : (0 : ℚ) < 2 ^ (f.leastExponent + t - 1) := by positivity
  rw [le_div_iff₀ hfull]
  rcases hleast with rfl | hle
  · calc (2 : ℚ) ^ (f.leastExponent + (0 : ℕ) - 1) * 2 ^ (f.fractionBits + 1)
        _ = 2 ^ f.fractionBits * 2 ^ f.leastExponent := by
          rw [Nat.cast_zero, add_zero, zpow_sub_one₀ two_ne_zero, pow_succ]
          ring
        _ ≤ q := hq
  · have hle' : (2 : ℚ) ^ (f.fractionBits + 1) ≤ 2 * r := by
      rw [pow_succ']
      exact_mod_cast Nat.mul_le_mul_left 2 hle
    calc (2 : ℚ) ^ (f.leastExponent + t - 1) * 2 ^ (f.fractionBits + 1)
        _ ≤ 2 ^ (f.leastExponent + t - 1) * (2 * r) := mul_le_mul_of_nonneg_left hle' hunit.le
        _ = (2 * r) * 2 ^ (f.leastExponent + t - 1) := mul_comm ..
        _ ≤ q := hr

/-- **The error of a rounding** is at most half a unit of the last place, in parts of what is
rounded. -/
theorem Rounds.abs_sub_le (h : f.Rounds q m)
    (hq : 2 ^ f.fractionBits * 2 ^ f.leastExponent ≤ q) :
    |f.value m - q| ≤ q / 2 ^ (f.fractionBits + 1) := by
  have hpos : 0 < q := lt_of_lt_of_le (by positivity) hq
  have hnonneg : 0 ≤ q / 2 ^ (f.fractionBits + 1) := by positivity
  rw [abs_le]
  constructor
  · rcases le_or_gt q (f.value m) with hle | hlt
    · linarith
    · obtain ⟨r, t, rfl, hleast, hmost⟩ := f.exists_eq_add_mul m
      have hbelow := h.below.1
      rw [middle_add_mul hleast hmost] at hbelow
      rw [value_add_mul hleast hmost.le, f.two_zpow_unit] at hlt ⊢
      have herror := half_unit_le hq hleast (by linarith)
      push_cast at hbelow
      linarith
  · rcases le_or_gt (f.value m) q with hle | hlt
    · linarith
    · have hm : m ≠ 0 := by
        rintro rfl
        rw [f.value_zero] at hlt
        linarith
      obtain ⟨k, rfl⟩ := Nat.exists_eq_succ_of_ne_zero hm
      obtain ⟨r, t, rfl, hleast, hmost⟩ := f.exists_eq_add_mul k
      have habove := (h.above _ rfl).1
      rw [middle_add_mul hleast hmost] at habove
      have hunit : (0 : ℚ) < 2 ^ (f.leastExponent + t - 1) := by positivity
      have herror := half_unit_le hq hleast (by push_cast at habove; linarith)
      have hnext := value_add_mul (hleast.imp_right Nat.le_succ_of_le) hmost
      rw [Nat.succ_add, f.two_zpow_unit] at hnext
      rw [hnext]
      push_cast at habove ⊢
      linarith

end BinaryFormat

namespace Binary

variable {f : BinaryFormat}

/-! ### The pattern nearest to a quotient -/

/-- A rounded quotient is at most a half away, and even if it is a half away. -/
theorem roundQuotient_spec {n d : Nat} (hd : 0 < d) :
    ((roundQuotient n d : ℚ) - 1 / 2 ≤ n / d ∧ (n : ℚ) / d ≤ roundQuotient n d + 1 / 2) ∧
      ((n : ℚ) / d = roundQuotient n d - 1 / 2 ∨ (n : ℚ) / d = roundQuotient n d + 1 / 2 →
        Even (roundQuotient n d)) := by
  have hd' : (0 : ℚ) < d := by exact_mod_cast hd
  have hquot : (n : ℚ) / d = (n / d : ℕ) + ((n % d : ℕ) : ℚ) / d := by
    have hdiv : (n : ℚ) = d * (n / d : ℕ) + (n % d : ℕ) := by
      exact_mod_cast (Nat.div_add_mod n d).symm
    rw [div_eq_iff hd'.ne', add_mul, div_mul_cancel₀ _ hd'.ne']
    linarith
  have hnonneg : 0 ≤ ((n % d : ℕ) : ℚ) / d := by positivity
  have hlt : ((n % d : ℕ) : ℚ) / d < 1 := by
    rw [div_lt_one hd']
    exact_mod_cast Nat.mod_lt n hd
  unfold roundQuotient
  dsimp only
  rw [hquot]
  split_ifs with hlow hhigh
  · have hhalf : ((n % d : ℕ) : ℚ) / d < 1 / 2 := by
      rw [div_lt_iff₀ hd']
      have : (2 * (n % d : ℕ) : ℚ) < d := by exact_mod_cast hlow
      linarith
    exact ⟨⟨by linarith, by linarith⟩, fun h => by rcases h with h | h <;> linarith⟩
  · have hhalf : 1 / 2 < ((n % d : ℕ) : ℚ) / d := by
      rw [lt_div_iff₀ hd']
      have : (d : ℚ) < 2 * (n % d : ℕ) := by exact_mod_cast hhigh
      linarith
    push_cast
    exact ⟨⟨by linarith, by linarith⟩, fun h => by rcases h with h | h <;> linarith⟩
  · have hhalf : ((n % d : ℕ) : ℚ) / d = 1 / 2 := by
      rw [div_eq_iff hd'.ne']
      have : (2 * (n % d : ℕ) : ℚ) = d := by exact_mod_cast (by omega : 2 * (n % d) = d)
      linarith
    have heven : Even (n / d + n / d % 2) := by
      rw [Nat.even_iff]
      omega
    refine ⟨?_, fun _ => heven⟩
    rcases Nat.mod_two_eq_zero_or_one (n / d) with hmod | hmod <;> rw [hmod, hhalf] <;>
      push_cast <;> constructor <;> linarith

/-- The ratio of a quotient in other units. -/
theorem inUnits_ratio (num den : Nat) (e : Int) :
    ((inUnits num den e).1 : ℚ) / (inUnits num den e).2 = num / den / 2 ^ e := by
  simp only [inUnits, Nat.pow_eq]
  push_cast
  obtain ⟨n, rfl | rfl⟩ := e.eq_nat_or_neg
  · simp [div_div]
  · simp only [neg_neg, Int.toNat_natCast, zpow_neg, zpow_natCast, Int.toNat_neg_natCast, pow_zero,
      mul_one]
    field_simp

theorem inUnits_pos {num den : Nat} (hden : 0 < den) (e : Int) : 0 < (inUnits num den e).2 :=
  Nat.mul_pos hden (Nat.pow_pos Nat.zero_lt_two)

theorem floorLog2_spec {num den : Nat} (hnum : 0 < num) (hden : 0 < den) :
    (2 : ℚ) ^ floorLog2 num den ≤ num / den ∧ (num : ℚ) / den < 2 ^ (floorLog2 num den + 1) := by
  have hd : (0 : ℚ) < den := by exact_mod_cast hden
  -- Both have known highest digits, so the quotient is known up to a factor of two.
  have hnumLow : (2 : ℚ) ^ num.log2 ≤ num := by exact_mod_cast Nat.log2_self_le hnum.ne'
  have hnumHigh : (num : ℚ) < 2 ^ (num.log2 + 1) := by exact_mod_cast Nat.lt_log2_self
  have hdenLow : (2 : ℚ) ^ den.log2 ≤ den := by exact_mod_cast Nat.log2_self_le hden.ne'
  have hdenHigh : (den : ℚ) < 2 ^ (den.log2 + 1) := by exact_mod_cast Nat.lt_log2_self
  have hlow : (2 : ℚ) ^ ((num.log2 : ℤ) - den.log2 - 1) ≤ num / den := by
    calc (2 : ℚ) ^ ((num.log2 : ℤ) - den.log2 - 1)
        _ = 2 ^ num.log2 / 2 ^ (den.log2 + 1) := by
          rw [sub_sub, zpow_sub₀ two_ne_zero]
          norm_cast
        _ ≤ num / den := div_le_div₀ (by positivity) hnumLow hd hdenHigh.le
  have hhigh : (num : ℚ) / den < 2 ^ ((num.log2 : ℤ) - den.log2 + 1) := by
    calc (num : ℚ) / den
        _ < 2 ^ (num.log2 + 1) / 2 ^ den.log2 :=
          div_lt_div₀ hnumHigh hdenLow (by positivity) (by positivity)
        _ = 2 ^ ((num.log2 : ℤ) - den.log2 + 1) := by
          rw [sub_add_eq_add_sub, zpow_sub₀ two_ne_zero]
          norm_cast
  have hunit : (0 : ℚ) < 2 ^ ((num.log2 : ℤ) - den.log2) := by positivity
  have hscaled :
      (inUnits num den (num.log2 - den.log2)).2 ≤ (inUnits num den (num.log2 - den.log2)).1 ↔
        (2 : ℚ) ^ ((num.log2 : ℤ) - den.log2) ≤ num / den := by
    have hpos : (0 : ℚ) < (inUnits num den (num.log2 - den.log2)).2 := by
      exact_mod_cast inUnits_pos hden _
    rw [← one_le_div₀ hunit, ← inUnits_ratio, one_le_div₀ hpos, Nat.cast_le]
  unfold floorLog2
  dsimp only
  split_ifs with h
  · exact ⟨hscaled.mp h, hhigh⟩
  · rw [sub_add_cancel]
    exact ⟨hlow, not_le.mp (hscaled.not.mp h)⟩

/-- **Rounding**: the result is the magnitude nearest to the quotient, up to infinity. -/
theorem nearest_eq (hf : 0 < f.fractionBits) (negative : Bool) (num : Nat) {den : Nat}
    (hden : 0 < den) :
    ∃ m, f.Rounds (num / den) m ∧
      nearest f negative num den = ofMagnitude f negative (min f.infinity m) := by
  rcases Nat.eq_zero_or_pos num with rfl | hnum
  · refine ⟨0, ?_, ?_⟩
    · have h := f.rounds_value 0
      simpa [BinaryFormat.value, BinaryFormat.units] using h
    · rw [nearest, if_pos rfl, Nat.min_zero]
  · obtain ⟨hlow, hhigh⟩ := floorLog2_spec hnum hden
    have hscale : ∃ t : ℕ, max f.leastExponent (floorLog2 num den - f.fractionBits) =
        f.leastExponent + t :=
      ⟨(max f.leastExponent (floorLog2 num den - f.fractionBits) - f.leastExponent).toNat, by omega⟩
    obtain ⟨t, ht⟩ := hscale
    rw [nearest, if_neg hnum.ne']
    dsimp only
    rw [ht, add_sub_cancel_left, Int.toNat_natCast, Nat.pow_eq]
    refine ⟨_, ?_, rfl⟩
    have hunit : (0 : ℚ) < 2 ^ (f.leastExponent + t) := by positivity
    obtain ⟨⟨habove, hbelow⟩, heven⟩ :=
      roundQuotient_spec (n := (inUnits num den (f.leastExponent + t)).1) (inUnits_pos hden _)
    set r := roundQuotient (inUnits num den (f.leastExponent + t)).1
      (inUnits num den (f.leastExponent + t)).2
    rw [inUnits_ratio] at habove hbelow heven
    rw [le_div_iff₀ hunit] at habove
    rw [div_le_iff₀ hunit] at hbelow
    rw [div_eq_iff hunit.ne', div_eq_iff hunit.ne'] at heven
    refine BinaryFormat.rounds_of_steps hf ?_ ?_ habove hbelow heven
    · refine or_iff_not_imp_left.mpr fun hne => ?_
      have hexp : (f.leastExponent + t : ℤ) = floorLog2 num den - f.fractionBits := by omega
      have hq : (2 : ℚ) ^ (f.fractionBits : ℤ) * 2 ^ (f.leastExponent + t : ℤ) ≤ num / den := by
        rwa [← zpow_add₀ two_ne_zero, hexp, add_sub_cancel]
      refine ⟨hq, ?_⟩
      have hlt : (2 : ℚ) ^ (f.fractionBits : ℤ) < r + 1 :=
        lt_of_mul_lt_mul_right ((hq.trans hbelow).trans_lt
          (mul_lt_mul_of_pos_right (by linarith) hunit)) hunit.le
      rw [zpow_natCast] at hlt
      exact Nat.lt_succ_iff.mp (by exact_mod_cast hlt)
    · have hq : (num : ℚ) / den < 2 ^ (f.fractionBits + 1 : ℤ) * 2 ^ (f.leastExponent + t : ℤ) := by
        rw [← zpow_add₀ two_ne_zero]
        exact hhigh.trans_le (zpow_le_zpow_right₀ one_le_two (by omega))
      have hlt : (r : ℚ) - 1 < 2 ^ (f.fractionBits + 1 : ℤ) :=
        lt_of_mul_lt_mul_right ((mul_lt_mul_of_pos_right (by linarith) hunit).trans
          (habove.trans_lt hq)) hunit.le
      rw [sub_lt_iff_lt_add] at hlt
      exact Nat.lt_succ_iff.mp (by exact_mod_cast hlt)

/-! ### Patterns -/

/-- A magnitude has the bits of both fields. -/
theorem magnitude_eq (x : Binary f) :
    x.magnitude = x.bits.toNat % 2 ^ (f.fractionBits + f.exponentBits) := rfl

theorem magnitude_lt (x : Binary f) : x.magnitude < 2 ^ (f.fractionBits + f.exponentBits) :=
  Nat.mod_lt _ (Nat.two_pow_pos _)

theorem isNegative_eq (x : Binary f) :
    x.isNegative = decide (2 ^ (f.fractionBits + f.exponentBits) ≤ x.bits.toNat) :=
  BitVec.msb_eq_decide x.bits

theorem infinity_lt (f : BinaryFormat) : f.infinity < 2 ^ (f.fractionBits + f.exponentBits) := by
  have hexponent : 0 < 2 ^ f.exponentBits := Nat.two_pow_pos _
  rw [BinaryFormat.infinity, Nat.pow_eq, Nat.pow_eq, pow_add, mul_comm (2 ^ f.fractionBits)]
  exact Nat.mul_lt_mul_of_pos_right (Nat.sub_lt hexponent Nat.one_pos) (Nat.two_pow_pos _)

theorem toNat_ofMagnitude {m : Nat} (negative : Bool)
    (h : m < 2 ^ (f.fractionBits + f.exponentBits)) :
    (ofMagnitude f negative m).bits.toNat =
      (if negative then 2 ^ (f.fractionBits + f.exponentBits) else 0) + m := by
  have hmod : (ofMagnitude f negative m).bits.toNat =
      ((if negative then 2 ^ (f.fractionBits + f.exponentBits) else 0) + m) %
        2 ^ (f.fractionBits + f.exponentBits + 1) := rfl
  rw [hmod, Nat.pow_succ, Nat.mul_two]
  apply Nat.mod_eq_of_lt
  split_ifs <;> omega

theorem magnitude_ofMagnitude {m : Nat} (negative : Bool)
    (h : m < 2 ^ (f.fractionBits + f.exponentBits)) : (ofMagnitude f negative m).magnitude = m := by
  rw [magnitude_eq, toNat_ofMagnitude negative h]
  split_ifs
  · rw [Nat.add_mod_left, Nat.mod_eq_of_lt h]
  · rw [Nat.zero_add, Nat.mod_eq_of_lt h]

theorem isNegative_ofMagnitude {m : Nat} (negative : Bool)
    (h : m < 2 ^ (f.fractionBits + f.exponentBits)) :
    (ofMagnitude f negative m).isNegative = negative := by
  rw [isNegative_eq, toNat_ofMagnitude negative h]
  cases negative <;> simp [h]

theorem ext_bits {x y : Binary f} (h : x.bits.toNat = y.bits.toNat) : x = y := by
  obtain ⟨bits⟩ := x
  obtain ⟨bits'⟩ := y
  congr 1
  exact BitVec.eq_of_toNat_eq h

/-- A pattern is its sign and its magnitude. -/
theorem ofMagnitude_magnitude (x : Binary f) : ofMagnitude f x.isNegative x.magnitude = x := by
  have hlt : x.bits.toNat < 2 ^ (f.fractionBits + f.exponentBits + 1) := x.bits.isLt
  rw [Nat.pow_succ, Nat.mul_two] at hlt
  apply ext_bits
  rw [toNat_ofMagnitude _ x.magnitude_lt, isNegative_eq, magnitude_eq]
  simp only [decide_eq_true_eq]
  split_ifs with h
  · rw [Nat.mod_eq_sub_mod h, Nat.mod_eq_of_lt (by omega)]
    omega
  · rw [Nat.mod_eq_of_lt (by omega), Nat.zero_add]

/-! ### Contents -/

/-- A finite pattern is a significand, scaled. -/
theorem content_eq_finite {x : Binary f} (h : x.magnitude < f.infinity) :
    ∃ r t : Nat, x.magnitude = r + t * 2 ^ f.fractionBits ∧ (t = 0 ∨ 2 ^ f.fractionBits ≤ r) ∧
      r < 2 ^ (f.fractionBits + 1) ∧
      x.content = .finite x.isNegative r (f.leastExponent + t) := by
  have hpos : 0 < 2 ^ f.fractionBits := Nat.two_pow_pos _
  have hmod := Nat.mod_lt x.magnitude hpos
  have hdiv := Nat.div_add_mod' x.magnitude (2 ^ f.fractionBits)
  simp only [content, if_neg h.ne, if_neg h.not_gt, Nat.pow_eq, Nat.pow_succ, Nat.mul_two]
  cases hfield : x.magnitude / 2 ^ f.fractionBits with
  | zero =>
      rw [hfield] at hdiv
      refine ⟨x.magnitude % 2 ^ f.fractionBits, 0, by omega, .inl rfl, by omega, ?_⟩
      simp
  | succ t =>
      rw [hfield, Nat.succ_mul] at hdiv
      refine ⟨2 ^ f.fractionBits + x.magnitude % 2 ^ f.fractionBits, t, by omega,
        .inr (by omega), by omega, ?_⟩
      simp

theorem content_eq_infinite {x : Binary f} (h : x.magnitude = f.infinity) :
    x.content = .infinite x.isNegative := by
  rw [content, if_pos h]

/-! ### Other formats -/

/-- The ratio of a scaled significand. -/
theorem scaled_ratio (s : Nat) (e : Int) :
    ((s * 2 ^ e.toNat : ℕ) : ℚ) / (2 ^ (-e).toNat : ℕ) = s * 2 ^ e := by
  have h := inUnits_ratio s 1 (-e)
  simp only [inUnits, neg_neg, Nat.one_mul, Nat.pow_eq, Nat.cast_one, div_one, zpow_neg,
    div_inv_eq_mul] at h
  exact h

theorem ofScaled_eq (hf : 0 < f.fractionBits) (negative : Bool) (s : Nat) (e : Int) :
    ∃ m, f.Rounds (s * 2 ^ e) m ∧
      ofScaled f negative s e = ofMagnitude f negative (min f.infinity m) := by
  rw [← scaled_ratio]
  exact nearest_eq hf negative _ (Nat.two_pow_pos _)

/-- A finite number becomes the nearest one of another format, up to infinity. -/
theorem convert_eq {g : BinaryFormat} (hg : 0 < g.fractionBits) {x : Binary f}
    (h : x.magnitude < f.infinity) :
    ∃ m, g.Rounds (f.value x.magnitude) m ∧
      x.convert g = ofMagnitude g x.isNegative (min g.infinity m) := by
  obtain ⟨r, t, hmag, hleast, hmost, hcontent⟩ := content_eq_finite h
  rw [convert, hcontent, hmag, BinaryFormat.value_add_mul hleast hmost.le]
  exact ofScaled_eq hg ..

end Binary

namespace BinaryFormat

variable {f g : BinaryFormat}

/-! ### Formats that extend others -/

/-- A short significand, scaled by no less than the least exponent, is a value. -/
theorem exists_value_eq (f : BinaryFormat) (k : Nat) {s : Nat} (hs : s < 2 ^ (f.fractionBits + 1)) :
    ∃ m, f.value m = s * 2 ^ (f.leastExponent + k) := by
  induction k generalizing s with
  | zero => exact ⟨s + 0 * 2 ^ f.fractionBits, value_add_mul (.inl rfl) hs.le⟩
  | succ k ih =>
      rcases Nat.lt_or_ge s (2 ^ f.fractionBits) with hlt | hle
      · -- One binade further down there is room for the doubled significand.
        obtain ⟨m, hm⟩ := ih (s := 2 * s) (by rw [Nat.pow_succ]; omega)
        refine ⟨m, hm.trans ?_⟩
        rw [Nat.cast_add_one, ← add_assoc, zpow_add_one₀ two_ne_zero]
        push_cast
        ring
      · exact ⟨_, value_add_mul (.inr hle) hs.le⟩

theorem value_infinity (hf : 0 < f.exponentBits) :
    f.value f.infinity = 2 ^ (f.leastExponent + f.fractionBits + (2 ^ f.exponentBits - 2)) := by
  have hpow : 2 ≤ 2 ^ f.exponentBits := Nat.le_self_pow hf.ne' 2
  have hinf : f.infinity = 2 ^ f.fractionBits + (2 ^ f.exponentBits - 2) * 2 ^ f.fractionBits := by
    rw [infinity, Nat.pow_eq, Nat.pow_eq, Nat.add_comm, ← Nat.succ_mul]
    congr 1
    omega
  rw [hinf, value_add_mul (.inr le_rfl) (Nat.pow_le_pow_right Nat.zero_lt_two (Nat.le_succ _)),
    add_right_comm, zpow_add₀ two_ne_zero _ (f.fractionBits : ℤ), Nat.cast_sub hpow, mul_comm]
  push_cast
  rfl

/-- Every finite number of the format `f` is one of the format `g`. -/
def Extends (g f : BinaryFormat) : Prop :=
  ∀ m < f.infinity, ∃ n < g.infinity, g.value n = f.value m

theorem extends_binary32 : binary64.Extends binary32 := by
  intro m hm
  obtain ⟨r, t, rfl, hleast, hmost⟩ := binary32.exists_eq_add_mul m
  obtain ⟨n, hn⟩ := binary64.exists_value_eq (925 + t) (s := r) (hmost.trans (by decide))
  have hvalue : binary64.value n = binary32.value (r + t * 2 ^ binary32.fractionBits) := by
    rw [hn, value_add_mul hleast hmost.le]
    push_cast
    rw [← add_assoc]
    rfl
  refine ⟨n, ?_, hvalue⟩
  rw [← binary64.value_strictMono.lt_iff_lt, hvalue]
  calc binary32.value (r + t * 2 ^ binary32.fractionBits)
      _ < binary32.value binary32.infinity := binary32.value_strictMono hm
      _ = 2 ^ (128 : ℤ) := value_infinity (f := binary32) (by decide)
      _ ≤ 2 ^ (1024 : ℤ) := zpow_le_zpow_right₀ one_le_two (by decide)
      _ = binary64.value binary64.infinity := (value_infinity (f := binary64) (by decide)).symm

end BinaryFormat

namespace Binary

variable {f g : BinaryFormat}

/-- A format that has all numbers of another keeps them. -/
theorem convert_of_extends (hg : 0 < g.fractionBits) (hext : g.Extends f) {x : Binary f}
    (hx : x.IsFinite) :
    (x.convert g).IsFinite ∧ g.value (x.convert g).magnitude = f.value x.magnitude ∧
      (x.convert g).isNegative = x.isNegative := by
  obtain ⟨n, hn, hvalue⟩ := hext _ hx
  obtain ⟨m, hm, hconvert⟩ := convert_eq hg hx
  rw [← hvalue] at hm
  obtain rfl := hm.unique (g.rounds_value n)
  rw [min_eq_right hn.le] at hconvert
  have hwidth := hn.trans (infinity_lt g)
  rw [IsFinite, hconvert, magnitude_ofMagnitude _ hwidth, isNegative_ofMagnitude _ hwidth]
  exact ⟨hn, hvalue, rfl⟩

theorem convert_of_infinite {x : Binary f} (h : x.magnitude = f.infinity) :
    x.convert g = ofMagnitude g x.isNegative g.infinity := by
  rw [convert, content_eq_infinite h]

/-- **Exact conversion**: a format that has all numbers of another keeps them, and they can be
converted back. What is not a number does not count. -/
theorem convert_convert (hf : 0 < f.fractionBits) (hg : 0 < g.fractionBits) (hext : g.Extends f)
    {x : Binary f} (hx : x.isNaN = false) : (x.convert g).convert f = x := by
  rw [isNaN, decide_eq_false_iff_not, not_lt] at hx
  rcases hx.lt_or_eq with hlt | heq
  · obtain ⟨hfinite, hvalue, hnegative⟩ := convert_of_extends hg hext hlt
    obtain ⟨m, hm, hconvert⟩ := convert_eq hf hfinite
    rw [hvalue] at hm
    obtain rfl := hm.unique (f.rounds_value x.magnitude)
    rw [hconvert, min_eq_right hlt.le, hnegative, ofMagnitude_magnitude]
  · have hconvert : x.convert g = ofMagnitude g x.isNegative g.infinity := convert_of_infinite heq
    have hmag : (x.convert g).magnitude = g.infinity := by
      rw [hconvert, magnitude_ofMagnitude _ (infinity_lt g)]
    rw [convert_of_infinite hmag, hconvert, isNegative_ofMagnitude _ (infinity_lt g), ← heq,
      ofMagnitude_magnitude]

end Binary

end StridedSlice
