import StridedSlice.View
import StridedSlice.Proofs.Positions
/-!
# StridedSlice.Proofs.View

**What a view shows**: the elements at the selected positions, in the order of the walk. A
walk stops at the first position outside the array, and a resolved selection has none, so
every selected position is shown.
-/

namespace StridedSlice

namespace Walk

variable {α : Type}

/-- A walk whose positions all lie in the array yields the element at each of them. -/
theorem collect_next (n : Nat) (w : Walk α) (acc : Array α)
    (h : ∀ p ∈ w.cursor.toList, p < w.data.size) :
    (collect next n w acc).toList.map some =
      acc.toList.map some ++ (w.cursor.toList.take n).map (w.data[·]?) := by
  induction n generalizing w acc with
  | zero => simp [collect]
  | succ n ih =>
      obtain ⟨data, front, step, remaining⟩ := w
      cases remaining with
      | zero => simp [collect, next, Cursor.next, Cursor.toList, Cursor.listFrom]
      | succ r =>
          have hp : Selection.positionOf front < data.size := h _ (List.mem_cons_self ..)
          have hnext : next ⟨data, front, step, r + 1⟩ =
              (some data[Selection.positionOf front], ⟨data, front + step, step, r⟩) := by
            simp [next, Cursor.next, hp]
          have hrest : ∀ p ∈ (Cursor.mk (front + step) step r).toList, p < data.size :=
            fun p hmem => h p (List.mem_cons_of_mem _ hmem)
          rw [collect, hnext]
          dsimp only
          rw [ih _ _ hrest]
          simp [Cursor.toList, Cursor.listFrom, hp]

end Walk

namespace View

variable {α : Type}

/-- The elements of a view are those at the selected positions. -/
theorem map_some_toArray {v : View α} {len : Nat} (h : v.selection.Resolved len)
    (hle : len ≤ v.data.size) :
    v.toArray.toList.map some = v.selection.positions.toList.map (v.data[·]?) := by
  have hin : ∀ p ∈ v.walk.cursor.toList, p < v.walk.data.size := by
    intro p hp
    exact Nat.lt_of_lt_of_le (h.cursor_lt hp) hle
  have hall : v.walk.cursor.toList.take v.walk.remaining = v.selection.cursor.toList :=
    List.take_of_length_le (Cursor.length_toList _).le
  rw [toArray, Walk.toArray, Walk.collect_next _ _ _ hin, hall, v.selection.toList_positions]
  rfl

end View

end StridedSlice
