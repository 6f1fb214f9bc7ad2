import StridedSlice.Decimal
import StridedSlice.Proofs.Rounding
/-!
# StridedSlice.Proofs.Shortest

**The shortest decimal of a number** reads back to it, and no decimal on the same grid that
does is nearer to it (`shortest_spec`).

The rounding interval of a number is what lies between the middles to its two neighbours
(`has_roundingInterval_iff`). On each grid the search looks at the two points around the
number, and that is enough: an interval that has any point of the grid has one of these, and
the one that is taken is the nearest (`gridPoint?_eq_some`). The search ends because its last
grid is finer than a quarter of the unit of the number (`ten_zpow_le`), and it ends so early that
there are few digits (`digits_shortest_lt`).
-/

namespace StridedSlice

/-- The value of a decimal. -/
def Decimal.value (d : Decimal) : ℚ := d.digits * 10 ^ d.exponent

namespace Binary

/-! ### Intervals and grids -/

namespace RoundingInterval

variable {i : RoundingInterval} {num den : Nat}

/-- A number of units in the interval. -/
def Has (i : RoundingInterval) (q : ℚ) : Prop :=
  if i.closed then i.low ≤ q ∧ q ≤ i.high else i.low < q ∧ q < i.high

theorem holds_iff (hnum : 0 < num) (p : Nat) : i.holds num p = true ↔ i.Has (p / num) := by
  have hnum' : (0 : ℚ) < num := by exact_mod_cast hnum
  unfold holds Has
  cases i.closed <;>
    simp only [Bool.and_eq_true, decide_eq_true_eq, if_true, if_false, Bool.false_eq_true,
      lt_div_iff₀ hnum', div_lt_iff₀ hnum', le_div_iff₀ hnum', div_le_iff₀ hnum'] <;> norm_cast

/-- What lies between two numbers of the interval belongs to it. -/
theorem Has.of_between {p q r : ℚ} (hp : i.Has p) (hr : i.Has r) (hpq : p ≤ q) (hqr : q ≤ r) :
    i.Has q := by
  unfold Has at *
  split_ifs at * with hclosed
  · exact ⟨hp.1.trans hpq, hqr.trans hr.2⟩
  · exact ⟨hp.1.trans_le hpq, hqr.trans_lt hr.2⟩

/-- The number of the interval stands inside it. -/
structure Proper (i : RoundingInterval) : Prop where
  low_lt : i.low < i.value
  lt_high : i.value < i.high

theorem Proper.has_value (h : i.Proper) : i.Has i.value := by
  have hlow : (i.low : ℚ) < i.value := by exact_mod_cast h.low_lt
  have hhigh : (i.value : ℚ) < i.high := by exact_mod_cast h.lt_high
  unfold Has
  split_ifs
  · exact ⟨hlow.le, hhigh.le⟩
  · exact ⟨hlow, hhigh⟩

/-- The points of a grid next to the number of the interval. -/
theorem value_between (hnum : 0 < num) (hden : 0 < den) :
    ((i.value * num / den : ℕ) : ℚ) * (den / num) ≤ i.value ∧
      (i.value : ℚ) < ((i.value * num / den : ℕ) + 1) * (den / num) ∧
      (i.value : ℚ) = (i.value * num / den : ℕ) * (den / num) +
        ((i.value * num % den : ℕ) : ℚ) / num := by
  have hnum' : (0 : ℚ) < num := by exact_mod_cast hnum
  have hdiv : ((i.value * num / den : ℕ) : ℚ) * den + (i.value * num % den : ℕ) =
      i.value * num := by
    exact_mod_cast Nat.div_add_mod' (i.value * num) den
  have hmod : ((i.value * num % den : ℕ) : ℚ) < den := by exact_mod_cast Nat.mod_lt _ hden
  have hnonneg : (0 : ℚ) ≤ (i.value * num % den : ℕ) := Nat.cast_nonneg _
  rw [← mul_div_assoc, ← mul_div_assoc, div_le_iff₀ hnum', lt_div_iff₀ hnum', ← add_div,
    eq_div_iff hnum'.ne']
  exact ⟨by linarith, by linarith, hdiv.symm⟩

/-- The point below the number is the nearest of the interval, unless that above belongs to it
and is nearer. -/
theorem nearest_below (hi : i.Proper) {step : ℚ} (hstep : 0 < step) {k : ℕ}
    (hlow : k * step ≤ i.value) (hhigh : (i.value : ℚ) < (k + 1) * step)
    (hother : i.Has ((k + 1) * step) → 2 * (i.value - k * step) ≤ step) (p : ℕ)
    (hp : i.Has (p * step)) : |k * step - i.value| ≤ |p * step - i.value| := by
  rw [abs_sub_comm, abs_of_nonneg (by linarith)]
  rcases le_or_gt p k with hle | hlt
  · have hpk : (p : ℚ) * step ≤ k * step :=
      mul_le_mul_of_nonneg_right (by exact_mod_cast hle) hstep.le
    rw [abs_sub_comm, abs_of_nonneg (by linarith)]
    linarith
  · have hpk : ((k : ℚ) + 1) * step ≤ p * step :=
      mul_le_mul_of_nonneg_right (by exact_mod_cast hlt) hstep.le
    have hnext := hother (hi.has_value.of_between hp hhigh.le hpk)
    rw [abs_of_nonneg (by linarith)]
    linarith

/-- The point above the number is the nearest of the interval, unless that below belongs to it
and is nearer. -/
theorem nearest_above (hi : i.Proper) {step : ℚ} (hstep : 0 < step) {k : ℕ}
    (hlow : k * step ≤ i.value) (hhigh : (i.value : ℚ) < (k + 1) * step)
    (hother : i.Has (k * step) → step ≤ 2 * (i.value - k * step)) (p : ℕ)
    (hp : i.Has (p * step)) : |(k + 1) * step - i.value| ≤ |p * step - i.value| := by
  rw [abs_of_nonneg (by linarith)]
  rcases le_or_gt p k with hle | hlt
  · have hpk : (p : ℚ) * step ≤ k * step :=
      mul_le_mul_of_nonneg_right (by exact_mod_cast hle) hstep.le
    have hprevious := hother (hp.of_between hi.has_value hpk hlow)
    rw [abs_sub_comm, abs_of_nonneg (by linarith)]
    linarith
  · have hpk : ((k : ℚ) + 1) * step ≤ p * step :=
      mul_le_mul_of_nonneg_right (by exact_mod_cast hlt) hstep.le
    rw [abs_of_nonneg (by linarith)]
    linarith

/-- **The point that is taken** lies in the interval, and no point of the grid that does is
nearer to the number. -/
theorem gridPoint?_eq_some (hi : i.Proper) (hnum : 0 < num) (hden : 0 < den) {d : Nat}
    (h : i.gridPoint? num den = some d) :
    i.Has (d * (den / num)) ∧ ∀ p : ℕ, i.Has (p * (den / num)) →
      |d * ((den : ℚ) / num) - i.value| ≤ |p * ((den : ℚ) / num) - i.value| := by
  have hnum' : (0 : ℚ) < num := by exact_mod_cast hnum
  have hden' : (0 : ℚ) < den := by exact_mod_cast hden
  have hstep : (0 : ℚ) < den / num := div_pos hden' hnum'
  obtain ⟨hlow, hhigh, hvalue⟩ := value_between (i := i) hnum hden
  unfold gridPoint? at h
  dsimp only at h
  set k := i.value * num / den
  set r := i.value * num % den
  have hdiff : 2 * ((i.value : ℚ) - k * (den / num)) - den / num = (2 * r - den) / num := by
    rw [hvalue]
    field_simp
    ring
  have hlower : i.holds num (k * den) = true ↔ i.Has (k * (den / num)) := by
    rw [holds_iff hnum, Nat.cast_mul, mul_div_assoc]
  have hupper : i.holds num ((k + 1) * den) = true ↔ i.Has (((k : ℚ) + 1) * (den / num)) := by
    rw [holds_iff hnum, Nat.cast_mul, mul_div_assoc, Nat.cast_add_one]
  have hbelow : i.Has (k * (den / num)) → (i.Has (((k : ℚ) + 1) * (den / num)) → 2 * r ≤ den) →
      i.Has (k * (den / num)) ∧ ∀ p : ℕ, i.Has (p * (den / num)) →
        |k * ((den : ℚ) / num) - i.value| ≤ |p * ((den : ℚ) / num) - i.value| := by
    intro hhas hnear
    refine ⟨hhas, nearest_below hi hstep hlow hhigh fun hother => ?_⟩
    have hle : (2 * r : ℚ) ≤ den := by exact_mod_cast hnear hother
    have hsub := div_nonpos_of_nonpos_of_nonneg (by linarith : (2 * r - den : ℚ) ≤ 0) hnum'.le
    linarith
  have habove : i.Has (((k : ℚ) + 1) * (den / num)) → (i.Has (k * (den / num)) → den ≤ 2 * r) →
      i.Has ((k + 1 : ℕ) * (den / num)) ∧ ∀ p : ℕ, i.Has (p * (den / num)) →
        |(k + 1 : ℕ) * ((den : ℚ) / num) - i.value| ≤ |p * ((den : ℚ) / num) - i.value| := by
    intro hhas hnear
    rw [Nat.cast_add_one]
    refine ⟨hhas, nearest_above hi hstep hlow hhigh fun hother => ?_⟩
    have hle : (den : ℚ) ≤ 2 * r := by exact_mod_cast hnear hother
    have hsub := div_nonneg (by linarith : (0 : ℚ) ≤ 2 * r - den) hnum'.le
    linarith
  simp only [Bool.and_eq_true] at h
  split_ifs at h with hboth hlt hgt honly honly'
  · rw [← Option.some.inj h]
    exact hbelow (hlower.mp hboth.1) fun _ => hlt.le
  · rw [← Option.some.inj h]
    exact habove (hupper.mp hboth.2) fun _ => hgt.le
  · -- Both are equally near, and one of them is even.
    rw [← Option.some.inj h]
    rcases Nat.mod_two_eq_zero_or_one k with hmod | hmod <;> rw [hmod]
    · exact hbelow (hlower.mp hboth.1) fun _ => by omega
    · exact habove (hupper.mp hboth.2) fun _ => by omega
  · rw [← Option.some.inj h]
    exact hbelow (hlower.mp honly) fun hother => absurd ⟨honly, hupper.mpr hother⟩ hboth
  · rw [← Option.some.inj h]
    exact habove (hupper.mp honly') fun hother => absurd (hlower.mpr hother) honly

/-- A grid that is no coarser than the unit has a point in the interval. -/
theorem exists_gridPoint? (hi : i.Proper) (hnum : 0 < num) (hden : 0 < den) (hfine : den ≤ num) :
    ∃ d, i.gridPoint? num den = some d := by
  have hnum' : (0 : ℚ) < num := by exact_mod_cast hnum
  obtain ⟨hlow, hhigh, -⟩ := value_between (i := i) hnum hden
  have hstep : (den : ℚ) / num ≤ 1 := (div_le_one hnum').mpr (by exact_mod_cast hfine)
  have hlt : (i.low : ℚ) + 1 ≤ i.value := by exact_mod_cast hi.low_lt
  have hlt' : (i.value : ℚ) < i.high := by exact_mod_cast hi.lt_high
  have hlower : i.holds num (i.value * num / den * den) = true := by
    rw [holds_iff hnum, Nat.cast_mul, mul_div_assoc]
    unfold Has
    split_ifs
    · exact ⟨by linarith, by linarith⟩
    · exact ⟨by linarith, by linarith⟩
  unfold gridPoint?
  dsimp only
  rw [hlower, Bool.true_and, if_pos rfl]
  split_ifs <;> exact ⟨_, rfl⟩

end RoundingInterval

/-! ### The search -/

/-- A power as a quotient of natural numbers. -/
theorem pow_toNat_div (b : ℕ) (e : Int) :
    ((b ^ e.toNat : ℕ) : ℚ) / (b ^ (-e).toNat : ℕ) = (b : ℚ) ^ e := by
  obtain ⟨n, rfl | rfl⟩ := e.eq_nat_or_neg
  · simp
  · simp

theorem ten_zpow_eq (e : Int) : (10 : ℚ) ^ e = 5 ^ e * 2 ^ e := by
  rw [← mul_zpow]
  norm_num

/-- The scale of the grid `10 ^ e` in units of `2 ^ unit`. -/
theorem grid_scale (unit e : Int) :
    ((2 ^ (-unit).toNat * 10 ^ e.toNat : ℕ) : ℚ) / (2 ^ unit.toNat * 10 ^ (-e).toNat : ℕ) =
      10 ^ e / 2 ^ unit := by
  rw [Nat.cast_mul, Nat.cast_mul, mul_div_mul_comm, pow_toNat_div 10 e, ← inv_div,
    pow_toNat_div 2 unit]
  push_cast
  rw [mul_comm, div_eq_mul_inv]

/-- A grid is no coarser than the unit if its denominator is no more than its numerator. -/
theorem grid_le_iff (unit e : Int) :
    2 ^ (-unit).toNat * 10 ^ e.toNat ≤ 2 ^ unit.toNat * 10 ^ (-e).toNat ↔
      (10 : ℚ) ^ e ≤ 2 ^ unit := by
  have hunit : (0 : ℚ) < 2 ^ unit := by positivity
  have hpos : (0 : ℚ) < (2 ^ unit.toNat * 10 ^ (-e).toNat : ℕ) := by positivity
  rw [← div_le_one hunit, ← grid_scale, div_le_one hpos]
  norm_cast

/-- A decimal lies in the interval, and on its grid none in the interval is nearer to the
number. -/
structure RoundingInterval.Best (i : RoundingInterval) (unit : Int) (d : Decimal) : Prop where
  has : i.Has (d.value / 2 ^ unit)
  nearest : ∀ p : ℕ, i.Has (p * 10 ^ d.exponent / 2 ^ unit) →
    |d.value / 2 ^ unit - i.value| ≤ |p * (10 : ℚ) ^ d.exponent / 2 ^ unit - i.value|

/-- **The search** ends with the best decimal of some grid, if the last grid is fine enough. -/
theorem best_coarsest {i : RoundingInterval} (hi : i.Proper) {unit : Int} {n : Nat} {e : Int}
    (hfine : (10 : ℚ) ^ (e - n) ≤ 2 ^ unit) : i.Best unit (coarsest i unit (n + 1) e) := by
  have hnum (e : Int) : 0 < 2 ^ unit.toNat * 10 ^ (-e).toNat := by positivity
  have hden (e : Int) : 0 < 2 ^ (-unit).toNat * 10 ^ e.toNat := by positivity
  have hfound {e : Int} {d : Nat}
      (h : i.gridPoint? (2 ^ unit.toNat * 10 ^ (-e).toNat) (2 ^ (-unit).toNat * 10 ^ e.toNat) =
        some d) : i.Best unit ⟨d, e⟩ := by
    have hspec := RoundingInterval.gridPoint?_eq_some hi (hnum e) (hden e) h
    simp only [grid_scale, ← mul_div_assoc] at hspec
    exact ⟨hspec.1, hspec.2⟩
  induction n generalizing e with
  | zero =>
      rw [Nat.cast_zero, sub_zero] at hfine
      have hle := (grid_le_iff unit e).mpr hfine
      obtain ⟨d, hd⟩ := RoundingInterval.exists_gridPoint? hi (hnum e) (hden e) hle
      rw [coarsest]
      simp only [Nat.pow_eq, hd]
      exact hfound hd
  | succ n ih =>
      rw [coarsest]
      simp only [Nat.pow_eq]
      cases hd : i.gridPoint? (2 ^ unit.toNat * 10 ^ (-e).toNat)
          (2 ^ (-unit).toNat * 10 ^ e.toNat) with
      | some d => exact hfound hd
      | none =>
          refine ih ?_
          rwa [sub_sub, add_comm, ← Nat.cast_add_one]

/-- **The search is not too long**: a grid ten times as coarse as the one it ends with is no
finer than the unit, because it would have ended there. -/
theorem two_zpow_le_coarsest {i : RoundingInterval} (hi : i.Proper) {unit : Int} {n : Nat}
    {e : Int} (hcoarse : (2 : ℚ) ^ unit ≤ 10 ^ (e + 1)) :
    (2 : ℚ) ^ unit ≤ 10 ^ ((coarsest i unit n e).exponent + 1) := by
  induction n generalizing e with
  | zero => exact hcoarse
  | succ n ih =>
      rw [coarsest]
      simp only [Nat.pow_eq]
      cases hd : i.gridPoint? (2 ^ unit.toNat * 10 ^ (-e).toNat)
          (2 ^ (-unit).toNat * 10 ^ e.toNat) with
      | some d => exact hcoarse
      | none =>
          refine ih ?_
          by_contra hfine
          rw [sub_add_cancel, not_le] at hfine
          obtain ⟨d, hd'⟩ := RoundingInterval.exists_gridPoint? hi (by positivity) (by positivity)
            ((grid_le_iff unit e).mpr hfine.le)
          rw [hd] at hd'
          cases hd'

end Binary

/-! ### Numbers of a format -/

namespace Binary

/-- The last grid that is searched is no coarser than a quarter of the unit `2 ^ e`. A power of
ten is compared with one of two by way of `10 ^ 3 < 2 ^ 10` and `2 ^ 93 < 10 ^ 28`. -/
theorem ten_zpow_le {k e : Int} (h : 100000 * (k + 19) ≤ 30103 * (e + 53)) (hlow : -50000 ≤ e)
    (hhigh : e ≤ 2000) : (10 : ℚ) ^ k ≤ 2 ^ (e - 2) := by
  rcases le_or_gt 0 k with hk | hk
  · refine le_of_pow_le_pow_left₀ (n := 3) (by decide) (by positivity) ?_
    calc ((10 : ℚ) ^ k) ^ 3
        _ = (10 ^ 3) ^ k := by rw [← zpow_natCast, ← zpow_natCast, zpow_comm]
        _ ≤ (2 ^ 10) ^ k := zpow_le_zpow_left₀ hk (by norm_num) (by norm_num)
        _ = 2 ^ (10 * k) := by rw [zpow_mul]; rfl
        _ ≤ 2 ^ ((e - 2) * 3) := zpow_le_zpow_right₀ one_le_two (by omega)
        _ = (2 ^ (e - 2)) ^ 3 := by rw [zpow_mul]; rfl
  · refine le_of_pow_le_pow_left₀ (n := 28) (by decide) (by positivity) ?_
    calc ((10 : ℚ) ^ k) ^ 28
        _ = (10 ^ 28) ^ k := by rw [← zpow_natCast, ← zpow_natCast, zpow_comm]
        _ ≤ (2 ^ 93) ^ k := by
          obtain ⟨n, rfl⟩ : ∃ n : ℕ, k = -n := ⟨k.natAbs, by omega⟩
          rw [zpow_neg, zpow_neg, zpow_natCast, zpow_natCast]
          exact inv_anti₀ (by positivity) (pow_le_pow_left₀ (by norm_num) (by norm_num) n)
        _ = 2 ^ (93 * k) := by rw [zpow_mul]; rfl
        _ ≤ 2 ^ ((e - 2) * 28) := zpow_le_zpow_right₀ one_le_two (by omega)
        _ = (2 ^ (e - 2)) ^ 28 := by rw [zpow_mul]; rfl

/-- The first grid that is searched is not too fine. Here a power of two is compared with one of
ten by way of `2 ^ 93 < 10 ^ 28` and `10 ^ 59 < 2 ^ 196`. -/
theorem two_zpow_le {k e : Int} (h : 30103 * k + 100000 ≤ 100000 * e) (hlow : -60000 ≤ k)
    (hhigh : k ≤ 2000) : (2 : ℚ) ^ k ≤ 10 ^ e := by
  rcases le_or_gt 0 k with hk | hk
  · refine le_of_pow_le_pow_left₀ (n := 93) (by decide) (by positivity) ?_
    calc ((2 : ℚ) ^ k) ^ 93
        _ = (2 ^ 93) ^ k := by rw [← zpow_natCast, ← zpow_natCast, zpow_comm]
        _ ≤ (10 ^ 28) ^ k := zpow_le_zpow_left₀ hk (by norm_num) (by norm_num)
        _ = 10 ^ (28 * k) := by rw [zpow_mul]; rfl
        _ ≤ 10 ^ (e * 93) := zpow_le_zpow_right₀ (by norm_num) (by omega)
        _ = (10 ^ e) ^ 93 := by rw [zpow_mul]; rfl
  · refine le_of_pow_le_pow_left₀ (n := 196) (by decide) (by positivity) ?_
    calc ((2 : ℚ) ^ k) ^ 196
        _ = (2 ^ 196) ^ k := by rw [← zpow_natCast, ← zpow_natCast, zpow_comm]
        _ ≤ (10 ^ 59) ^ k := by
          obtain ⟨n, rfl⟩ : ∃ n : ℕ, k = -n := ⟨k.natAbs, by omega⟩
          rw [zpow_neg, zpow_neg, zpow_natCast, zpow_natCast]
          exact inv_anti₀ (by positivity) (pow_le_pow_left₀ (by norm_num) (by norm_num) n)
        _ = 10 ^ (59 * k) := by rw [zpow_mul]; rfl
        _ ≤ 10 ^ (e * 196) := zpow_le_zpow_right₀ (by norm_num) (by omega)
        _ = (10 ^ e) ^ 196 := by rw [zpow_mul]; rfl

variable {f : BinaryFormat} {r t : Nat}

theorem proper_roundingInterval (hr : 0 < r) (e : Int) : (roundingInterval f r e).Proper := by
  unfold roundingInterval
  constructor
  · dsimp only
    split_ifs <;> omega
  · dsimp only
    omega

theorem two_zpow_eq_four_mul (e : Int) : (2 : ℚ) ^ e = 4 * 2 ^ (e - 2) := by
  have hfour : (4 : ℚ) = 2 ^ (2 : Int) := by norm_num
  rw [hfour, ← zpow_add₀ two_ne_zero, add_sub_cancel]

/-- The lower end of the rounding interval is the middle to the number below. -/
theorem middle_eq_low (hr : 0 < r) (hleast : t = 0 ∨ 2 ^ f.fractionBits ≤ r)
    (hmost : r < 2 ^ (f.fractionBits + 1)) {k : Nat} (hk : r + t * 2 ^ f.fractionBits = k + 1) :
    f.middle k = (roundingInterval f r (f.leastExponent + t)).low *
      2 ^ (f.leastExponent + t - 2) := by
  have hunit := two_zpow_eq_four_mul (f.leastExponent + t)
  have hvalue := BinaryFormat.value_add_mul hleast hmost.le
  have hpos : 0 < 2 ^ f.fractionBits := Nat.two_pow_pos _
  unfold BinaryFormat.middle roundingInterval
  dsimp only
  rw [← hk, hvalue, Nat.pow_eq]
  by_cases hfirst : r = 2 ^ f.fractionBits ∧ 0 < t
  · -- The number below belongs to the binade below.
    obtain ⟨rfl, ht⟩ := hfirst
    obtain ⟨t, rfl⟩ := Nat.exists_eq_add_one.mpr ht
    have hk' : k = (2 ^ (f.fractionBits + 1) - 1) + t * 2 ^ f.fractionBits := by
      rw [Nat.add_mul, Nat.one_mul] at hk
      rw [Nat.pow_succ]
      omega
    have hle : 2 ^ f.fractionBits ≤ 2 ^ (f.fractionBits + 1) - 1 := by
      rw [Nat.pow_succ]
      omega
    have hexp : f.leastExponent < f.leastExponent + (t + 1 : ℕ) := by omega
    have hhalf : (2 : ℚ) ^ (f.leastExponent + t) =
        2 * 2 ^ (f.leastExponent + (t + 1 : ℕ) - 2) := by
      rw [← zpow_one_add₀ two_ne_zero, Nat.cast_add_one]
      congr 1
      ring
    rw [hk', BinaryFormat.value_add_mul (.inr hle) (Nat.sub_le _ _), if_pos ⟨rfl, hexp⟩, hunit,
      hhalf, Nat.cast_sub Nat.one_le_two_pow, Nat.cast_sub (by omega)]
    push_cast
    ring
  · have hprevious : t = 0 ∨ 2 ^ f.fractionBits ≤ r - 1 := by omega
    have hk' : k = (r - 1) + t * 2 ^ f.fractionBits := by omega
    have hcond : ¬ (r = 2 ^ f.fractionBits ∧ f.leastExponent < f.leastExponent + (t : Int)) :=
      fun h => hfirst ⟨h.1, by omega⟩
    rw [hk', BinaryFormat.value_add_mul hprevious (by omega), if_neg hcond, hunit,
      Nat.cast_sub hr, Nat.cast_sub (by omega)]
    push_cast
    ring

/-- The upper end is the middle to the number above. -/
theorem middle_eq_high (hleast : t = 0 ∨ 2 ^ f.fractionBits ≤ r)
    (hmost : r < 2 ^ (f.fractionBits + 1)) :
    f.middle (r + t * 2 ^ f.fractionBits) = (roundingInterval f r (f.leastExponent + t)).high *
      2 ^ (f.leastExponent + t - 2) := by
  have hunit := two_zpow_eq_four_mul (f.leastExponent + t)
  have hvalue := BinaryFormat.value_add_mul hleast hmost.le
  have hnext := BinaryFormat.value_add_mul (hleast.imp_right Nat.le_succ_of_le) hmost
  rw [Nat.succ_add] at hnext
  unfold BinaryFormat.middle roundingInterval
  rw [hvalue, hnext, hunit]
  push_cast
  ring

/-- **The rounding interval** holds what rounds to the number. -/
theorem has_roundingInterval_iff (hf : 0 < f.fractionBits) (hr : 0 < r)
    (hleast : t = 0 ∨ 2 ^ f.fractionBits ≤ r) (hmost : r < 2 ^ (f.fractionBits + 1)) (q : ℚ) :
    (roundingInterval f r (f.leastExponent + t)).Has (q / 2 ^ (f.leastExponent + t - 2)) ↔
      f.Rounds q (r + t * 2 ^ f.fractionBits) := by
  have hunit : (0 : ℚ) < 2 ^ (f.leastExponent + t - 2) := by positivity
  obtain ⟨k, hk⟩ : ∃ k, r + t * 2 ^ f.fractionBits = k + 1 :=
    Nat.exists_eq_add_one.mpr (by omega)
  have hlow := middle_eq_low hr hleast hmost hk
  have hhigh := middle_eq_high hleast hmost
  have hclosed : (roundingInterval f r (f.leastExponent + t)).closed = true ↔
      Even (r + t * 2 ^ f.fractionBits) := by
    have heven : Even (t * 2 ^ f.fractionBits) :=
      (Nat.even_pow.mpr ⟨even_two, hf.ne'⟩).mul_left t
    rw [Nat.even_add, iff_true_right heven, Nat.even_iff]
    simp [roundingInterval]
  unfold RoundingInterval.Has
  simp only [le_div_iff₀ hunit, div_le_iff₀ hunit, lt_div_iff₀ hunit, div_lt_iff₀ hunit, ← hlow,
    ← hhigh, hclosed]
  constructor
  · intro h
    split_ifs at h with heven
    · exact ⟨fun k' hk' => by
        obtain rfl : k' = k := by omega
        exact ⟨h.1, fun _ => heven⟩, h.2, fun _ => heven⟩
    · exact ⟨fun k' hk' => by
        obtain rfl : k' = k := by omega
        exact ⟨h.1.le, fun heq => absurd heq h.1.ne'⟩, h.2.le, fun heq => absurd heq h.2.ne⟩
  · intro h
    obtain ⟨habove, haboveEven⟩ := h.above k hk
    obtain ⟨hbelow, hbelowEven⟩ := h.below
    split_ifs with heven
    · exact ⟨habove, hbelow⟩
    · exact ⟨habove.lt_of_ne fun heq => heven (haboveEven heq.symm),
        hbelow.lt_of_ne fun heq => heven (hbelowEven heq)⟩

/-- A significand that is positive has as many binary digits as its highest one says. -/
theorem log2_le_fractionBits (hmost : r < 2 ^ (f.fractionBits + 1)) (hr : 0 < r) :
    r.log2 ≤ f.fractionBits :=
  Nat.lt_succ_iff.mp ((Nat.log2_lt hr.ne').mpr hmost)

end Binary

/-- Formats for which the grids that are searched suffice. -/
structure BinaryFormat.Searchable (f : BinaryFormat) : Prop where
  fractionBits_pos : 0 < f.fractionBits
  fractionBits_le : f.fractionBits ≤ 52
  le_leastExponent : -50000 ≤ f.leastExponent
  exponent_le : f.leastExponent + 2 ^ f.exponentBits ≤ 2000

theorem searchable_binary32 : binary32.Searchable := by
  constructor <;> decide

theorem searchable_binary64 : binary64.Searchable := by
  constructor <;> decide

namespace Binary

variable {f : BinaryFormat} {r t : Nat}

/-- Every finite number has an exponent within the range of the search. -/
theorem exponent_le (hf : f.Searchable) {m : Nat} (hm : m < f.infinity)
    (hmag : m = r + t * 2 ^ f.fractionBits) : f.leastExponent + t ≤ 2000 := by
  rw [hmag, BinaryFormat.infinity, Nat.pow_eq, Nat.pow_eq] at hm
  have hmul := (Nat.le_add_left (t * 2 ^ f.fractionBits) r).trans_lt hm
  have ht : t < 2 ^ f.exponentBits :=
    (Nat.lt_of_mul_lt_mul_right hmul).trans_le (Nat.sub_le _ _)
  have ht' : (t : Int) < 2 ^ f.exponentBits := by exact_mod_cast ht
  linarith [hf.exponent_le]

theorem best_shortest (hf : f.Searchable) (hhigh : f.leastExponent + t ≤ 2000) (hr : 0 < r)
    (hmost : r < 2 ^ (f.fractionBits + 1)) :
    (roundingInterval f r (f.leastExponent + t)).Best (f.leastExponent + t - 2)
      (shortest f r (f.leastExponent + t)) := by
  have hlog := log2_le_fractionBits hmost hr
  have hbits := hf.fractionBits_le
  have hlow := hf.le_leastExponent
  refine best_coarsest (n := 21) (proper_roundingInterval hr _) (ten_zpow_le ?_ (by omega) hhigh)
  omega

theorem magnitude_lt_of_content {x : Binary f} {negative : Bool} {significand : Nat}
    {exponent : Int} (h : x.content = .finite negative significand exponent) :
    x.magnitude < f.infinity := by
  unfold content at h
  split_ifs at h with heq hgt
  omega

theorem magnitude_pos_of_content {x : Binary f} {negative : Bool} {significand : Nat}
    {exponent : Int} (h : x.content = .finite negative significand exponent)
    (hpos : significand ≠ 0) : 0 < x.magnitude := by
  obtain ⟨r, t, hmag, -, -, hcontent⟩ := content_eq_finite (magnitude_lt_of_content h)
  rw [h] at hcontent
  cases hcontent
  omega

/-- **The shortest decimal** of a number reads back to it, and none on its grid that does is
nearer to it. -/
theorem shortest_spec (hf : f.Searchable) {x : Binary f} {negative : Bool} {significand : Nat}
    {exponent : Int} (hcontent : x.content = .finite negative significand exponent)
    (hpos : significand ≠ 0) :
    f.Rounds (shortest f significand exponent).value x.magnitude ∧
      ∀ p : ℕ, f.Rounds (p * 10 ^ (shortest f significand exponent).exponent) x.magnitude →
        |(shortest f significand exponent).value - f.value x.magnitude| ≤
          |p * (10 : ℚ) ^ (shortest f significand exponent).exponent - f.value x.magnitude| := by
  have hlt := magnitude_lt_of_content hcontent
  obtain ⟨r, t, hmag, hleast, hmost, hcontent'⟩ := content_eq_finite hlt
  rw [hcontent] at hcontent'
  cases hcontent'
  have hr : 0 < significand := Nat.pos_of_ne_zero hpos
  have hbest := best_shortest hf (exponent_le hf hlt hmag) hr hmost
  have hunit : (0 : ℚ) < 2 ^ (f.leastExponent + t - 2) := by positivity
  have hiff := has_roundingInterval_iff hf.fractionBits_pos hr hleast hmost
  have hvalue : ((roundingInterval f significand (f.leastExponent + t)).value : ℚ) =
      f.value x.magnitude / 2 ^ (f.leastExponent + t - 2) := by
    rw [hmag, BinaryFormat.value_add_mul hleast hmost.le, two_zpow_eq_four_mul,
      eq_div_iff hunit.ne']
    unfold roundingInterval
    push_cast
    ring
  rw [hmag] at hvalue ⊢
  generalize shortest f significand (f.leastExponent + t) = d at hbest ⊢
  refine ⟨(hiff _).mp hbest.has, fun p hp => ?_⟩
  have hnearest := hbest.nearest p ((hiff _).mpr hp)
  rw [hvalue, ← sub_div, ← sub_div, abs_div, abs_div, abs_of_pos hunit] at hnearest
  exact (div_le_div_iff_of_pos_right hunit).mp hnearest

/-- The shortest decimal of a number that is not zero has a digit that is not zero. -/
theorem digits_shortest_pos (hf : f.Searchable) {x : Binary f} {negative : Bool}
    {significand : Nat} {exponent : Int}
    (hcontent : x.content = .finite negative significand exponent) (hpos : significand ≠ 0) :
    0 < (shortest f significand exponent).digits := by
  obtain ⟨hrounds, -⟩ := shortest_spec hf hcontent hpos
  rw [Nat.pos_iff_ne_zero]
  intro hzero
  have hvalue : (shortest f significand exponent).value = f.value 0 := by
    rw [f.value_zero, Decimal.value, hzero, Nat.cast_zero, zero_mul]
  exact (magnitude_pos_of_content hcontent hpos).ne' (hrounds.unique (hvalue ▸ f.rounds_value 0))

/-- The shortest decimal of a number does not have many digits. -/
theorem digits_shortest_lt (hf : f.Searchable) {x : Binary f} {negative : Bool}
    {significand : Nat} {exponent : Int}
    (hcontent : x.content = .finite negative significand exponent) (hpos : significand ≠ 0) :
    (shortest f significand exponent).digits < 2 ^ (f.fractionBits + 7) := by
  have hbelow := (shortest_spec hf hcontent hpos).1.below.1
  have hlt := magnitude_lt_of_content hcontent
  obtain ⟨r, t, hmag, hleast, hmost, hcontent'⟩ := content_eq_finite hlt
  rw [hcontent] at hcontent'
  cases hcontent'
  have ht := exponent_le hf hlt hmag
  have hlow := hf.le_leastExponent
  rw [hmag, middle_eq_high hleast hmost] at hbelow
  have hstop : (2 : ℚ) ^ (f.leastExponent + t - 2) ≤
      10 ^ ((shortest f significand (f.leastExponent + t)).exponent + 1) :=
    two_zpow_le_coarsest (proper_roundingInterval (Nat.pos_of_ne_zero hpos) _)
      (two_zpow_le (by omega) (by omega) (by omega))
  generalize shortest f significand (f.leastExponent + t) = d at hbelow hstop ⊢
  have hstep : (0 : ℚ) < 10 ^ d.exponent := by positivity
  rw [zpow_add_one₀ (by norm_num)] at hstop
  have hhigh : (roundingInterval f significand (f.leastExponent + t)).high =
      4 * significand + 2 := rfl
  have hdigits : (d.digits : ℚ) ≤ (4 * significand + 2 : ℕ) * 10 := by
    refine le_of_mul_le_mul_right ?_ hstep
    calc (d.digits : ℚ) * 10 ^ d.exponent
        _ ≤ (4 * significand + 2 : ℕ) * 2 ^ (f.leastExponent + t - 2) := hhigh ▸ hbelow
        _ ≤ (4 * significand + 2 : ℕ) * (10 ^ d.exponent * 10) := by gcongr
        _ = (4 * significand + 2 : ℕ) * 10 * 10 ^ d.exponent := by ring
  have hdigits' : d.digits ≤ (4 * significand + 2) * 10 := by exact_mod_cast hdigits
  rw [Nat.pow_succ] at hmost
  rw [Nat.pow_add]
  omega

end Binary

end StridedSlice
