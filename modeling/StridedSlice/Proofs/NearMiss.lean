import StridedSlice.Proofs.Shortest
import Mathlib.Tactic.LinearCombination
/-!
# StridedSlice.Proofs.NearMiss

**Decimals that all but hit a middle** between two numbers of 32 bits. Such a middle is an odd
multiple `n` of a power of two, and a decimal is a multiple `d` of a power of ten, so the
question is how near `d` times the ratio of these powers comes to `n`. What the decimal is read
as may lie on the other side of the middle, or on it, only if the two differ by less than a part
in `2 ^ 26` of the power of two.

For each of the 254 binades the pairs that come so near are found with a basis of the pairs of
integers (`Basis`): Euclid's algorithm makes one whose two pairs come near themselves, and then
a pair that does is a combination of the two with small coefficients
(`Basis.exists_coefficients`). The few combinations are checked by computation. Those that are
not out of the question are read, and what they are read as lies on the right side
(`near_odd_multiple`).
-/

namespace StridedSlice

/-- What `n` lacks to `d` times `num / den`, in parts of `den`. -/
def offset (num den : Nat) (d n : Int) : Int := d * num - n * den

/-! ### Combinations of two pairs -/

/-- Two pairs of natural numbers, `(d₁, n₁)` and `(d₂, n₂)`, of which every pair of integers is
a combination. -/
structure Basis where
  d₁ : Nat
  n₁ : Nat
  d₂ : Nat
  n₂ : Nat
  /-- The determinant is one. -/
  unimodular : d₁ * n₂ = d₂ * n₁ + 1

namespace Basis

/-- The basis of the two units. -/
def units : Basis := ⟨1, 0, 0, 1, rfl⟩

/-- Adds a multiple of the second pair to the first. -/
def addToFirst (b : Basis) (q : Nat) : Basis where
  d₁ := b.d₁ + q * b.d₂
  n₁ := b.n₁ + q * b.n₂
  d₂ := b.d₂
  n₂ := b.n₂
  unimodular := by
    rw [Nat.add_mul, b.unimodular]
    ring

/-- Adds a multiple of the first pair to the second. -/
def addToSecond (b : Basis) (q : Nat) : Basis where
  d₁ := b.d₁
  n₁ := b.n₁
  d₂ := b.d₂ + q * b.d₁
  n₂ := b.n₂ + q * b.n₁
  unimodular := by
    rw [Nat.mul_add, b.unimodular]
    ring

/-- The coefficients that are looked at. -/
def coefficients : List Int := [-2, -1, 0, 1, 2]

/-- Both pairs of the basis come near, so near that a pair up to `bound` with an offset of at
most `1 / precision` has no other coefficients. -/
def Reaches (b : Basis) (num den bound precision : Nat) : Prop :=
  precision * (bound * (offset num den b.d₁ b.n₁).natAbs) + b.d₁ * den < 3 * (precision * den) ∧
    precision * (bound * (offset num den b.d₂ b.n₂).natAbs) + b.d₂ * den < 3 * (precision * den)

instance (b : Basis) (num den bound precision : Nat) :
    Decidable (b.Reaches num den bound precision) :=
  inferInstanceAs (Decidable (_ ∧ _))

/-- Euclid's algorithm: makes the offsets of the two pairs, of which the first is positive and
the second negative, smaller in turns, until both pairs come near. -/
def refine (num den bound precision : Nat) : Nat → Basis → Basis
  | 0, b => b
  | fuel + 1, b =>
      if b.Reaches num den bound precision then b
      else
        let above := b.d₁ * num - b.n₁ * den
        let below := b.n₂ * den - b.d₂ * num
        let b := b.addToFirst (above / below)
        if b.Reaches num den bound precision then b
        else refine num den bound precision fuel (b.addToSecond (below / (above % below)))

theorem mem_coefficients {den bound precision d' : Nat} {d o o' c : Int}
    (hreach : precision * (bound * o'.natAbs) + d' * den < 3 * (precision * den))
    (hd : d.natAbs ≤ bound) (ho : precision * o.natAbs ≤ den)
    (hc : (c * den).natAbs = (d' * o - d * o').natAbs) : c ∈ coefficients := by
  have hsum : c.natAbs * den ≤ d' * o.natAbs + d.natAbs * o'.natAbs := by
    have h := Int.natAbs_sub_le (d' * o) (d * o')
    rwa [← hc, Int.natAbs_mul, Int.natAbs_mul, Int.natAbs_mul, Int.natAbs_natCast,
      Int.natAbs_natCast] at h
  have hlt : precision * den * c.natAbs < precision * den * 3 := by
    calc precision * den * c.natAbs
        _ = precision * (c.natAbs * den) := by ring
        _ ≤ precision * (d' * o.natAbs + d.natAbs * o'.natAbs) := Nat.mul_le_mul_left _ hsum
        _ = precision * (d.natAbs * o'.natAbs) + d' * (precision * o.natAbs) := by ring
        _ ≤ precision * (bound * o'.natAbs) + d' * den := by gcongr
        _ < 3 * (precision * den) := hreach
        _ = precision * den * 3 := Nat.mul_comm ..
  have hsmall := Nat.lt_of_mul_lt_mul_left hlt
  simp only [coefficients, List.mem_cons, List.not_mem_nil, or_false]
  omega

/-- **Small coefficients**: a pair that comes near is one of few combinations. -/
theorem exists_coefficients {b : Basis} {num den bound precision : Nat}
    (hreach : b.Reaches num den bound precision) {d n : Int} (hd : d.natAbs ≤ bound)
    (hnear : precision * (offset num den d n).natAbs ≤ den) :
    ∃ i ∈ coefficients, ∃ j ∈ coefficients,
      d = i * b.d₁ + j * b.d₂ ∧ n = i * b.n₁ + j * b.n₂ := by
  have hdet : (b.d₁ : Int) * b.n₂ = b.d₂ * b.n₁ + 1 := by exact_mod_cast b.unimodular
  refine ⟨d * b.n₂ - n * b.d₂, mem_coefficients hreach.2 hd hnear ?_,
    b.d₁ * n - b.n₁ * d, mem_coefficients hreach.1 hd hnear ?_, ?_, ?_⟩
  · congr 1
    unfold offset
    ring
  · rw [← Int.natAbs_neg]
    congr 1
    unfold offset
    ring
  · linear_combination -d * hdet
  · linear_combination -n * hdet

end Basis

/-! ### The binades of 32 bits -/

/-- The least exponent of ten whose power is no less than half the unit of the binade `t`. -/
def gridExponent (t : Nat) : Int := (((t : Int) - 150) * 30103 + 99999) / 100000

/-- Numerator of the ratio of `10 ^ gridExponent t` to half the unit. -/
def gridNum (t : Nat) : Nat :=
  Nat.pow 5 (gridExponent t).toNat * Nat.pow 2 (gridExponent t - ((t : Int) - 150)).toNat

/-- Its denominator. -/
def gridDen (t : Nat) : Nat :=
  Nat.pow 5 (-gridExponent t).toNat * Nat.pow 2 (-(gridExponent t - ((t : Int) - 150))).toNat

/-- Of the two magnitudes beside a middle, the one on the side of the pair. -/
def sideOf (t : Nat) (d n : Int) : Nat :=
  (n / 2).toNat + t * 2 ^ 23 + if 0 < offset (gridNum t) (gridDen t) d n then 1 else 0

/-- A pair that is read as a number on its own side of the middle. The decimal is not one of a
coarser grid. -/
def Kept (t : Nat) (d n : Int) : Prop :=
  d % 10 ≠ 0 ∧
    (Binary.ofParts? d.toNat (gridExponent t)).map (fun y => (y.convert binary32).magnitude) =
      some (sideOf t d n)

instance (t : Nat) (d n : Int) : Decidable (Kept t d n) := inferInstanceAs (Decidable (_ ∧ _))

/-- A pair that is settled: it does not belong to the binade, is even, hits, does not come near,
or is kept. -/
def Resolved (t : Nat) (d n : Int) : Prop :=
  d < 0 ∨ n % 2 = 0 ∨ 2 ^ 25 ≤ n ∨ (t ≠ 0 ∧ n < 2 ^ 24) ∨
    gridDen t < 2 ^ 26 * (offset (gridNum t) (gridDen t) d n).natAbs ∨
    offset (gridNum t) (gridDen t) d n = 0 ∨ Kept t d n

instance (t : Nat) (d n : Int) : Decidable (Resolved t d n) :=
  inferInstanceAs (Decidable (_ ∨ _))

/-- The greatest multiple of the power of ten that belongs to the binade. -/
def gridBound (t : Nat) : Nat := 2 ^ 25 * gridDen t / gridNum t

/-- A basis shows that all pairs of a binade are resolved. -/
def Basis.Resolves (b : Basis) (t : Nat) : Prop :=
  b.Reaches (gridNum t) (gridDen t) (gridBound t) (2 ^ 26) ∧
    ∀ i ∈ coefficients, ∀ j ∈ coefficients,
      Resolved t (i * b.d₁ + j * b.d₂) (i * b.n₁ + j * b.n₂)

instance (b : Basis) (t : Nat) : Decidable (b.Resolves t) :=
  inferInstanceAs (Decidable (_ ∧ _))

/-- What is computed for each binade. Where the denominator is small, an offset that is not
zero is not near. -/
def Certified (t : Nat) : Prop :=
  gridNum t < 10 * gridDen t ∧
    (gridDen t < 2 ^ 26 ∨
      (Basis.refine (gridNum t) (gridDen t) (gridBound t) (2 ^ 26) 60 .units).Resolves t)

instance (t : Nat) : Decidable (Certified t) := inferInstanceAs (Decidable (_ ∧ _))

set_option maxRecDepth 10000 in
theorem certified : ∀ t < 254, Certified t := by
  decide +kernel

theorem gridDen_pos (t : Nat) : 0 < gridDen t :=
  Nat.mul_pos (Nat.pow_pos (by decide)) (Nat.pow_pos (by decide))

theorem gridNum_pos (t : Nat) : 0 < gridNum t :=
  Nat.mul_pos (Nat.pow_pos (by decide)) (Nat.pow_pos (by decide))

/-- The ratio of the two powers. A common factor is left out. -/
theorem gridNum_div_gridDen (t : Nat) :
    (gridNum t : ℚ) / gridDen t = 10 ^ gridExponent t / 2 ^ ((t : Int) - 150) := by
  have hfive := Binary.pow_toNat_div 5 (gridExponent t)
  have htwo := Binary.pow_toNat_div 2 (gridExponent t - ((t : Int) - 150))
  unfold gridNum gridDen
  rw [Nat.cast_mul, Nat.cast_mul, mul_div_mul_comm, Binary.ten_zpow_eq, mul_div_assoc,
    ← zpow_sub₀ two_ne_zero]
  exact congrArg₂ (· * ·) hfive htwo

/-- **The least exponent** of ten whose power is no less than half the unit of the binade. -/
theorem gridExponent_le {t : Nat} (ht : t < 254) {e : Int}
    (h : (2 : ℚ) ^ ((t : Int) - 150) ≤ 10 ^ e) : gridExponent t ≤ e := by
  by_contra hlt
  have hpow : (10 : ℚ) ^ e ≤ 10 ^ (gridExponent t - 1) :=
    zpow_le_zpow_right₀ (by norm_num) (by omega)
  have hmin : (gridNum t : ℚ) < 10 * gridDen t := by exact_mod_cast (certified t ht).1
  have hden : (0 : ℚ) < gridDen t := by exact_mod_cast gridDen_pos t
  have hunit : (0 : ℚ) < 2 ^ ((t : Int) - 150) := by positivity
  have hratio : (10 : ℚ) ^ gridExponent t / 2 ^ ((t : Int) - 150) < 10 := by
    rwa [← gridNum_div_gridDen, div_lt_iff₀ hden]
  rw [div_lt_iff₀ hunit] at hratio
  rw [zpow_sub_one₀ (by norm_num)] at hpow
  linarith

/-- The offset of a pair is the distance of the multiples, in parts of half the unit. -/
theorem offset_div_gridDen (t d n : Nat) :
    ((offset (gridNum t) (gridDen t) d n : Int) : ℚ) / gridDen t =
      (d * 10 ^ gridExponent t - n * 2 ^ ((t : Int) - 150)) / 2 ^ ((t : Int) - 150) := by
  have hden : (gridDen t : ℚ) ≠ 0 := by exact_mod_cast (gridDen_pos t).ne'
  have hunit : (2 : ℚ) ^ ((t : Int) - 150) ≠ 0 := by positivity
  rw [sub_div, mul_div_assoc, mul_div_assoc, div_self hunit, ← gridNum_div_gridDen]
  unfold offset
  push_cast
  field_simp

/-- A pair with a positive offset is above. -/
theorem offset_pos_iff (t d n : Nat) : 0 < offset (gridNum t) (gridDen t) d n ↔
    (n : ℚ) * 2 ^ ((t : Int) - 150) < d * 10 ^ gridExponent t := by
  have hden : (0 : ℚ) < gridDen t := by exact_mod_cast gridDen_pos t
  have hunit : (0 : ℚ) < 2 ^ ((t : Int) - 150) := by positivity
  rw [← Int.cast_pos (R := ℚ), ← div_pos_iff_of_pos_right hden, offset_div_gridDen,
    div_pos_iff_of_pos_right hunit, sub_pos]

/-- A pair without an offset hits. -/
theorem hits_of_offset_eq_zero {t d n : Nat}
    (h : offset (gridNum t) (gridDen t) d n = 0) :
    (d : ℚ) * 10 ^ gridExponent t = n * 2 ^ ((t : Int) - 150) := by
  have hunit : (2 : ℚ) ^ ((t : Int) - 150) ≠ 0 := by positivity
  have hoffset := offset_div_gridDen t d n
  rw [h, Int.cast_zero, zero_div, eq_comm, div_eq_zero_iff, sub_eq_zero] at hoffset
  exact hoffset.resolve_right hunit

/-- A pair that comes near has a small offset. -/
theorem offset_le_of_near {t d n : Nat}
    (hnear : |(d : ℚ) * 10 ^ gridExponent t - n * 2 ^ ((t : Int) - 150)| ≤
      2 ^ ((t : Int) - 150) / 2 ^ 26) :
    2 ^ 26 * (offset (gridNum t) (gridDen t) d n).natAbs ≤ gridDen t := by
  have hden : (0 : ℚ) < gridDen t := by exact_mod_cast gridDen_pos t
  have hunit : (0 : ℚ) < 2 ^ ((t : Int) - 150) := by positivity
  have hoffset := congrArg abs (offset_div_gridDen t d n)
  rw [abs_div, abs_of_pos hden, abs_div, abs_of_pos hunit] at hoffset
  have habs : |((offset (gridNum t) (gridDen t) d n : Int) : ℚ)| / gridDen t ≤ 1 / 2 ^ 26 := by
    rw [hoffset, div_le_iff₀ hunit]
    linarith
  rw [div_le_iff₀ hden] at habs
  have hcast : (2 ^ 26 * (offset (gridNum t) (gridDen t) d n).natAbs : ℚ) ≤ gridDen t := by
    rw [Nat.cast_natAbs, Int.cast_abs]
    linarith
  exact_mod_cast hcast

/-- **All but hitting a middle**: the decimals of a binade that come so near to an odd multiple
of half the unit hit it, or are kept. -/
theorem near_odd_multiple {t d n : Nat} (ht : t < 254) (hodd : n % 2 = 1) (hmost : n < 2 ^ 25)
    (hleast : t = 0 ∨ 2 ^ 24 ≤ n)
    (hnear : |(d : ℚ) * 10 ^ gridExponent t - n * 2 ^ ((t : Int) - 150)| ≤
      2 ^ ((t : Int) - 150) / 2 ^ 26) :
    (d : ℚ) * 10 ^ gridExponent t = n * 2 ^ ((t : Int) - 150) ∨ Kept t d n := by
  have hsmall := offset_le_of_near hnear
  rcases (certified t ht).2 with hfew | ⟨hreach, hresolved⟩
  · exact .inl (hits_of_offset_eq_zero (by omega))
  · have hbound : (d : Int).natAbs ≤ gridBound t := by
      have hle : (d * gridNum t : Int) ≤ n * gridDen t + gridDen t := by
        have hoff : (offset (gridNum t) (gridDen t) d n) ≤ gridDen t := by omega
        unfold offset at hoff
        linarith
      rw [gridBound, Int.natAbs_natCast, Nat.le_div_iff_mul_le (gridNum_pos t)]
      calc d * gridNum t
          _ ≤ (n + 1) * gridDen t := by
            rw [Nat.add_mul, Nat.one_mul]
            exact_mod_cast hle
          _ ≤ 2 ^ 25 * gridDen t := Nat.mul_le_mul_right _ hmost
    obtain ⟨i, hi, j, hj, hd, hn⟩ := Basis.exists_coefficients hreach hbound hsmall
    have h := hresolved i hi j hj
    rw [← hd, ← hn] at h
    -- Of the ways in which a pair is resolved, two are left.
    rcases h with h | h | h | h | h | h | h
    · omega
    · omega
    · omega
    · omega
    · omega
    · exact .inl (hits_of_offset_eq_zero h)
    · exact .inr h

end StridedSlice
