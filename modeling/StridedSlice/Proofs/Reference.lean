import StridedSlice.Slice
import Mathlib.Tactic.Ring
/-!
# StridedSlice.Proofs.Reference

The **reference model** of slicing: the plain loop over unbounded integers that a host
language runs. It shares nothing with `Slice.resolve`, which computes the same positions in
closed form on machine words.

* `Reference.adjust` gives a missing bound its default and brings a written one into range;
* `Reference.walk` yields `i`, `i + step`, … as long as the bound is not reached;
* `Reference.indices` puts the two together.

A walk is a map over `List.range n` as soon as `n` tells exactly which of its terms are
still before the bound (`walk_eq_map`), which is how a closed form is compared with it.
-/

namespace StridedSlice

/-- Whether the position `p` lies before the exclusive bound `stop` of a walk with the given
step. -/
def Before (step stop p : Int) : Prop := (0 < step ∧ p < stop) ∨ (step < 0 ∧ stop < p)

instance (step stop p : Int) : Decidable (Before step stop p) :=
  inferInstanceAs (Decidable (_ ∨ _))

theorem before_of_pos {step : Int} (h : 0 < step) {stop p : Int} :
    Before step stop p ↔ p < stop := by
  unfold Before
  omega

theorem before_of_neg {step : Int} (h : step < 0) {stop p : Int} :
    Before step stop p ↔ stop < p := by
  unfold Before
  omega

namespace Reference

/-- The bound of a walk through a sequence of `len` elements. A missing one takes its
default. A negative one has the length added; what then still lies outside the sequence
goes to the nearest place where a walk in the direction of the step can begin or end. -/
def adjust (step len default : Int) : Option Int → Int
  | none => default
  | some v =>
      if v < 0 then
        if v + len < 0 then (if step < 0 then -1 else 0) else v + len
      else if len ≤ v then (if step < 0 then len - 1 else len)
      else v

/-- The positions `i`, `i + step`, … as long as they are before `stop`. -/
def walk (step stop i : Int) : List Int :=
  if Before step stop i then i :: walk step stop (i + step) else []
termination_by if 0 < step then (stop - i).toNat else (i - stop).toNat
decreasing_by
  rename_i h
  unfold Before at h
  split <;> omega

/-- Where a walk begins: by default at the end of the sequence that it leaves. -/
def first (step len : Int) (start : Option Int) : Int :=
  adjust step len (if 0 < step then 0 else len - 1) start

/-- The bound of a walk: by default the end of the sequence that it goes to. -/
def bound (step len : Int) (stop : Option Int) : Int :=
  adjust step len (if 0 < step then len else -1) stop

/-- The positions that a slice selects; there are none to speak of for a zero step. -/
def indices (start stop step : Option Int) (len : Int) : Option (List Int) :=
  let step := step.getD 1
  if step = 0 then none else some (walk step (bound step len stop) (first step len start))

/-! ### Where bounds end up -/

theorem adjust_mem_up {step len default : Int} (hstep : 0 < step) (hlen : 0 ≤ len)
    (hdefault : 0 ≤ default ∧ default ≤ len) (bound : Option Int) :
    0 ≤ adjust step len default bound ∧ adjust step len default bound ≤ len := by
  cases bound with
  | none => exact hdefault
  | some v =>
      simp only [adjust, if_neg (Int.not_lt.mpr hstep.le)]
      split_ifs <;> omega

theorem adjust_mem_down {step len default : Int} (hstep : step < 0) (hlen : 0 ≤ len)
    (hdefault : -1 ≤ default ∧ default ≤ len - 1) (bound : Option Int) :
    -1 ≤ adjust step len default bound ∧ adjust step len default bound ≤ len - 1 := by
  cases bound with
  | none => exact hdefault
  | some v =>
      simp only [adjust, if_pos hstep]
      split_ifs <;> omega

/-- A bound inside the sequence stays where it is. The place right behind the sequence is one
for a walk that goes up. -/
theorem adjust_of_mem {step len v : Int} (default : Int) (hv : 0 ≤ v)
    (hlen : v < len ∨ 0 < step ∧ v = len) : adjust step len default (some v) = v := by
  simp only [adjust]
  split_ifs <;> omega

/-- Going up, a walk begins and ends in `0 … len`. -/
theorem bounds_up {step len : Int} (hstep : 0 < step) (hlen : 0 ≤ len) (start stop : Option Int) :
    (0 ≤ first step len start ∧ first step len start ≤ len) ∧
      0 ≤ bound step len stop ∧ bound step len stop ≤ len := by
  simp only [first, bound, if_pos hstep]
  exact ⟨adjust_mem_up hstep hlen ⟨le_rfl, hlen⟩ start,
    adjust_mem_up hstep hlen ⟨hlen, le_rfl⟩ stop⟩

/-- Going down, a walk begins and ends in `-1 … len - 1`. -/
theorem bounds_down {step len : Int} (hstep : step < 0) (hlen : 0 ≤ len)
    (start stop : Option Int) :
    (-1 ≤ first step len start ∧ first step len start ≤ len - 1) ∧
      -1 ≤ bound step len stop ∧ bound step len stop ≤ len - 1 := by
  simp only [first, bound, if_neg (Int.not_lt.mpr hstep.le)]
  exact ⟨adjust_mem_down hstep hlen (by omega) start,
    adjust_mem_down hstep hlen (by omega) stop⟩

/-! ### Walks in closed form -/

theorem walk_of_before {step stop i : Int} (h : Before step stop i) :
    walk step stop i = i :: walk step stop (i + step) := by
  rw [walk, if_pos h]

theorem walk_of_not_before {step stop i : Int} (h : ¬ Before step stop i) :
    walk step stop i = [] := by
  rw [walk, if_neg h]

/-- A walk whose first `n` terms, and no later ones, are before the bound consists of these
terms. -/
theorem walk_eq_map {step stop : Int} {n : Nat} {i : Int}
    (h : ∀ k : Nat, k < n ↔ Before step stop (i + k * step)) :
    walk step stop i = (List.range n).map fun k : Nat => i + k * step := by
  induction n generalizing i with
  | zero =>
      have h0 : ¬ Before step stop i := by simpa using (h 0).not
      exact walk_of_not_before h0
  | succ n ih =>
      have h0 : Before step stop i := by simpa using h 0
      -- One step later the walk has one term less, and the terms keep their places.
      have hnext : ∀ k : Nat, k < n ↔ Before step stop (i + step + k * step) := by
        intro k
        have hk := h (k + 1)
        rw [Nat.add_lt_add_iff_right] at hk
        rw [hk]
        congr! 1
        push_cast
        ring
      rw [walk_of_before h0, ih hnext, List.range_succ_eq_map, List.map_cons, List.map_map]
      congr 1
      · simp
      · refine List.map_congr_left fun k _ => ?_
        simp only [Function.comp_apply]
        push_cast
        ring

/-- A descending walk whose first step reaches the bound has at most one term, whatever the
step is. -/
theorem walk_of_overshoot {step stop i : Int} (hneg : step < 0) (h : i + step ≤ stop) :
    walk step stop i = if stop < i then [i] else [] := by
  by_cases hi : stop < i
  · have hstop : ¬ Before step stop (i + step) := by
      rw [before_of_neg hneg]
      omega
    rw [walk_of_before ((before_of_neg hneg).mpr hi), walk_of_not_before hstop, if_pos hi]
  · rw [walk_of_not_before fun hb => hi ((before_of_neg hneg).mp hb), if_neg hi]

end Reference

end StridedSlice
