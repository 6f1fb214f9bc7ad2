import StridedSlice.Proofs.InPlace
import StridedSlice.Proofs.Reading
/-!
# StridedSlice.Proofs.Bounds

**No access leaves the array.** A selection is resolved in one place and used in others, and
those who use it look at nothing but its fields. What they rely on is collected here: a store
may take its run of positions for a range of memory or go along a cursor, and a view may be
asked in any way, without a single index being outside.

An access outside is a fault of `InPlace` and of `Reading`, so a computation that ends in
another way has made none. The indices themselves are named as well.

* `Selection.StoredInside`: what a store through the selection touches;
* `View.ReadInside`: what a read of the view touches.
-/

namespace StridedSlice

variable {σ α : Type}

/-! ### Stores -/

/-- What a store through a selection touches is in the array. -/
structure Selection.StoredInside (n : Selection) (a : Array α) : Prop where
  /-- A run of positions without gaps is a range of the array, even if it is empty. -/
  range : n.isContiguous = true →
    (positionOf n.start : Int) = n.start.toInt ∧
      Checked.size (positionOf n.start + n.count) = .ok (positionOf n.start + n.count) ∧
      positionOf n.start + n.count ≤ a.size
  /-- The positions written are those that a cursor yields, whether as a range or one by
  one. -/
  targets : (InPlace.targets n).run a = .ok n.cursor.toList a
  positions : ∀ p ∈ n.cursor.toList, p < a.size
  /-- A sequence that is not refused has one value for each position. -/
  paired : ∀ {σ : Type} (values : Array σ),
    (InPlace.checkLength n (.sequence values) : InPlace α Unit).run a = .ok () a →
      n.cursor.toList.length = values.size

theorem Selection.Resolved.storedInside {n : Selection} {len : Nat} (h : n.Resolved len)
    {a : Array α} (hle : len ≤ a.size) : n.StoredInside a where
  range := by
    intro hone
    have hin := (h.toList_cursor_of_contiguous hone).2
    exact ⟨h.positionOf_start_of_contiguous hone, InPlace.checked_end h hone, hin.trans hle⟩
  targets := InPlace.run_targets h hle
  positions := fun _ hp => Nat.lt_of_lt_of_le (h.cursor_lt hp) hle
  paired := by
    intro σ values hcheck
    -- A sequence of another length would have been refused.
    by_contra hne
    rw [Cursor.length_toList] at hne
    have hrefused : (InPlace.checkLength n (.sequence values) : InPlace α Unit).run a =
        .error (.refused (.lengthMismatch n.count values.size)) a :=
      InPlace.run_checkLength_of_ne rfl (fun hsize => hne hsize.symm) a
    rw [hrefused] at hcheck
    cases hcheck

/-- A computation that does what an operation on the whole array does meets no fault. -/
theorem InPlace.outcome_ne_fault (a b : Array α) (result : Except SliceError (Array α)) :
    outcome a result ≠ .error .fault b := by
  intro hfault
  cases result with
  | ok written => cases hfault
  | error e => cases hfault

/-! ### Reads -/

/-- What a read of a view touches is in its array. -/
structure View.ReadInside (v : View α) : Prop where
  /-- An element that is asked for by its number is there, or there is no such number. -/
  get : ∀ i, (∃ x, Reading.get? v i = .ok x) ∧
    ∀ p, Checked.position? v.selection i = .ok (some p) → p < v.data.size
  /-- Wherever a walk has been taken from, it has met no fault, and the positions at its two
  ends are in the array. -/
  walk : ∀ ends, ∃ replies w, Traversal.run Reading.takeAt v.walk ends = .ok (replies, w) ∧
    w.data = v.data ∧ (∀ p, w.cursor.next.1 = some p → p < v.data.size) ∧
      ∀ p c, Checked.nextBack w.cursor = .ok (some p, c) → p < v.data.size

section Resolved

variable {n : Selection} {len : Nat} (h : n.Resolved len) {a : Array α}
include h

/-- A walk that has elements before it finds them in the array. -/
theorem Selection.Resolved.ends_lt {w : Walk α} {items : List α} (hw : n.Shows a w items) :
    (∀ p, w.cursor.next.1 = some p → p < a.size) ∧
      ∀ p c, Checked.nextBack w.cursor = .ok (some p, c) → p < a.size := by
  obtain ⟨q, hq, hitems⟩ := hw.follows
  have hin : ∀ p ∈ q, p < a.size := by
    intro p hp
    have hmem : a[p]? ∈ items.map some := by
      rw [hitems]
      exact List.mem_map_of_mem hp
    obtain ⟨v, -, hv⟩ := List.mem_map.mp hmem
    exact (Array.getElem?_eq_some_iff.mp hv.symm).1
  refine ⟨fun p hp => ?_, fun p c hp => ?_⟩
  · rw [(h.follows_next hq).1] at hp
    exact hin p (List.mem_of_head? hp)
  · obtain ⟨hchecked, hlast, -⟩ := h.follows_nextBack hq
    rw [hchecked, Except.ok.injEq] at hp
    rw [hp] at hlast
    exact hin p (List.mem_of_getLast? hlast.symm)

theorem View.readInside (hle : len ≤ a.size) : (View.mk a n).ReadInside := by
  obtain ⟨items, hw, hitems⟩ := h.exists_shows hle
  refine ⟨fun i => ⟨⟨_, (get?_eq h hitems i).1⟩, fun p hp => ?_⟩, fun ends => ?_⟩
  · rw [h.checked_position?, Except.ok.injEq] at hp
    exact Nat.lt_of_lt_of_le (h.position_lt hp) hle
  · obtain ⟨replies, w, left, hrun, -, hleft⟩ :=
      Traversal.run_simulates (h.takeAt_simulates a) _ _ ends hw
    exact ⟨replies, w, hrun, hleft.data, h.ends_lt hleft⟩

end Resolved

theorem Reading.view_ne_fault (a : Array α) (s : Slice) : view a s ≠ .error .fault := by
  rw [view_eq]
  intro hfault
  cases hview : View.ofSlice a s with
  | ok v => rw [hview] at hfault; cases hfault
  | error e => rw [hview] at hfault; cases hfault

/-! ### All accesses -/

/-- **No access leaves the array**, for every array, every slice and every source. The ranges
that are taken for stores and the positions that are written without a further check are
inside, and so are those that are read, in whatever order the ends of a walk are taken from.
No store and no read meets a fault. -/
theorem accesses_in_bounds (convert : σ → α) (a : Array α) (s : Slice) :
    (∀ n, s.resolve a.size = .ok n → n.StoredInside a ∧ (View.mk a n).ReadInside) ∧
      (∀ source b, (InPlace.assign convert s source).run a ≠ .error .fault b) ∧
      (∀ index p, Store.indexPosition? index a.size = some p → p < a.size) ∧
      (∀ index value b, (InPlace.assignAt convert index value).run a ≠ .error .fault b) ∧
      Reading.view a s ≠ .error .fault := by
  refine ⟨fun n hn => ?_, fun source b => ?_, fun index p => InPlace.indexPosition?_lt,
    fun index value b => ?_, Reading.view_ne_fault a s⟩
  · have h := Slice.resolved_of_resolve hn
    have hle : Slice.effectiveLength a.size ≤ a.size := Nat.min_le_left _ _
    exact ⟨h.storedInside hle, View.readInside h hle⟩
  · rw [InPlace.run_assign]
    exact InPlace.outcome_ne_fault a b _
  · rw [InPlace.run_assignAt]
    exact InPlace.outcome_ne_fault a b _

/-- The empty run behind the last element starts where the array ends. -/
theorem accesses_in_bounds_at_end :
    Slice.resolve ⟨some 3, none, none⟩ 3 = .ok ⟨3, 3, 1, 0⟩ ∧
      (Selection.mk 3 3 1 0).StoredInside #[1, 2, 3] ∧
      (View.mk #[1, 2, 3] ⟨3, 3, 1, 0⟩).ReadInside :=
  ⟨rfl, (accesses_in_bounds id (#[1, 2, 3] : Array Nat) ⟨some 3, none, none⟩).1 _ rfl⟩

end StridedSlice
