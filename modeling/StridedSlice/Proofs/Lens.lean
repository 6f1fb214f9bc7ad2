import StridedSlice.Proofs.InPlace
import StridedSlice.Proofs.View
/-!
# StridedSlice.Proofs.Lens

**Reads and stores of one slice are a lens.** What is read can be stored again without a
change, what is stored is what is read next, and of two stores only the second one counts.

A read walks the array with a cursor and a store may write it as one block, but both number
the selected positions alike: `View.getElem?_toArray` says what is read at a number,
`Store.write_selected` what is written there. With a store being known by its elements
(`Store.write_eq_of_getElem?`), each law is a comparison of two arrays at every position.

* `Store.write_toArray`: stores what was read;
* `View.toArray_write`: reads what was stored;
* `Store.write_write`: stores twice.

The laws are about the arrays that stores leave behind; at the end they are put in terms of
the stores in place.
-/

namespace StridedSlice

namespace View

variable {α : Type} {v : View α} {len : Nat} (h : v.selection.Resolved len)
  (hle : len ≤ v.data.size)
include h hle

/-- Collecting a view gives the elements that can be asked for one by one. -/
theorem getElem?_toArray (i : Nat) : v.toArray[i]? = v.get? i := by
  have hall : v.toArray[i]?.map some = (v.selection.position? i).map (v.data[·]?) := by
    rw [← Array.getElem?_toList, ← List.getElem?_map, map_some_toArray h hle,
      List.getElem?_map, v.selection.toList_positions, v.selection.getElem?_toList_cursor]
  unfold get?
  cases hp : v.selection.position? i with
  | none =>
      rw [hp] at hall
      exact Option.map_eq_none_iff.mp hall
  | some p =>
      rw [hp] at hall
      obtain ⟨x, hx, hdata⟩ := Option.map_eq_some_iff.mp hall
      exact hx.trans hdata

theorem size_toArray : v.toArray.size = v.selection.count := by
  have hlength := congrArg List.length (map_some_toArray h hle)
  rw [List.length_map, List.length_map, v.selection.toList_positions,
    Cursor.length_toList] at hlength
  exact hlength

end View

/-! ### The laws for whole arrays -/

section Resolved

variable {σ τ α : Type} {n : Selection} {len : Nat} (h : n.Resolved len) {a : Array α}
  (hle : len ≤ a.size)
include h hle

namespace Store

/-- A store is known by its elements: the selected positions have their values, and the
others are those of the array before. -/
theorem write_eq_of_getElem? {source : Source σ} (hfit : source.Fits n.count)
    {convert : σ → α} {b : Array α}
    (hin : ∀ i p v, n.position? i = some p → source.get? i = some v →
      b[p]? = some (convert v))
    (hout : ∀ p, (∀ i, n.position? i ≠ some p) → b[p]? = a[p]?) :
    write convert a n source = b := by
  refine Array.ext_getElem? fun p => ?_
  by_cases hp : ∃ i, n.position? i = some p
  · obtain ⟨i, hi⟩ := hp
    have hcount : i < n.count := (h.position?_eq_some_iff.mp hi).1
    obtain ⟨v, hv⟩ := Source.exists_get? hfit hcount
    rw [write_selected h hle hfit convert hi hv, hin i p v hi hv]
  · have hnone : ∀ i, n.position? i ≠ some p := fun i hi => hp ⟨i, hi⟩
    rw [write_unselected h hle hfit convert hnone, hout p hnone]

/-- What a view shows fits its selection. -/
theorem fits_toArray : (Source.sequence (View.mk a n).toArray).Fits n.count :=
  Source.fits_sequence (View.size_toArray (v := ⟨a, n⟩) h hle)

/-- Storing what was read changes nothing. -/
theorem write_toArray : write id a n (.sequence (View.mk a n).toArray) = a := by
  refine write_eq_of_getElem? h hle (fits_toArray h hle) (fun i p v hp hv => ?_) fun _ _ => rfl
  rw [Source.get?, View.getElem?_toArray (v := ⟨a, n⟩) h hle, View.get?, hp] at hv
  exact hv

/-- Of two stores to the same positions only the second counts. -/
theorem write_write {first : Source σ} {second : Source τ} (hfirst : first.Fits n.count)
    (hsecond : second.Fits n.count) (f : σ → α) (g : τ → α) :
    write g (write f a n first) n second = write g a n second := by
  have hsize : (write f a n first).size = a.size := size_write h hle hfirst f
  refine write_eq_of_getElem? h (hsize ▸ hle) hsecond
    (fun i p v => write_selected h hle hsecond g) fun p hp => ?_
  rw [write_unselected h hle hsecond g hp, write_unselected h hle hfirst f hp]

end Store

/-- What was stored is read again, converted, and in the same order. -/
theorem View.toArray_write {values : Array σ} (hsize : values.size = n.count)
    (convert : σ → α) :
    (View.mk (Store.write convert a n (.sequence values)) n).toArray = values.map convert := by
  have hfit : (Source.sequence values).Fits n.count := Source.fits_sequence hsize
  have hwritten : len ≤ (Store.write convert a n (.sequence values)).size := by
    rwa [Store.size_write h hle hfit]
  refine Array.ext_getElem? fun i => ?_
  rw [View.getElem?_toArray h hwritten, View.get?, Array.getElem?_map]
  by_cases hi : i < n.count
  · obtain ⟨p, hp⟩ := Selection.exists_position hi
    obtain ⟨v, hv⟩ := Source.exists_get? hfit hi
    have hget : values[i]? = some v := hv
    dsimp only
    rw [hp, Option.bind_some, Store.write_selected h hle hfit convert hp hv, hget]
    rfl
  · have hnone : n.position? i = none := Selection.position?_eq_none_iff.mpr (by omega)
    have hget : values[i]? = none := Array.getElem?_eq_none (by omega)
    dsimp only
    rw [hnone, hget]
    rfl

end Resolved

/-! ### The laws for stores in place -/

namespace InPlace

variable {σ τ α β : Type}

/-- The array that a computation leaves behind, however it ends. -/
def left : EStateM.Result Stop (Array α) β → Array α
  | .ok _ a => a
  | .error _ a => a

section Assign

variable {a : Array α} {s : Slice} {n : Selection} (h : s.resolve a.size = .ok n)
include h

/-- An assignment that is refused leaves no trace, and any other is overwritten by the next
one to the same slice. -/
theorem run_assign_left (f : σ → α) (g : τ → α) (first : Source σ) {second : Source τ}
    (hsecond : second.Fits n.count) :
    (assign g s second).run (left ((assign f s first).run a)) = (assign g s second).run a := by
  by_cases hfirst : first.Fits n.count
  · have hresolved : n.Resolved (Slice.effectiveLength a.size) := Slice.resolved_of_resolve h
    have hle : Slice.effectiveLength a.size ≤ a.size := Nat.min_le_left _ _
    have hwritten : s.resolve (Store.write f a n first).size = .ok n := by
      rwa [Store.size_write hresolved hle hfirst]
    rw [run_assign_of_fits h hfirst f, run_assign_of_fits h hsecond g]
    dsimp only [left]
    rw [run_assign_of_fits hwritten hsecond g,
      Store.write_write hresolved hle hfirst hsecond]
  · obtain ⟨len, hlen, hne⟩ := Source.not_fits_iff.mp hfirst
    rw [run_assign f, Store.assign_of_length_ne f h hlen hne]
    rfl

end Assign

/-- **The lens laws.** A slice without a zero step can be read from every array. Storing the
elements that were read back into the slice succeeds and leaves the array bit for bit as it
was. A sequence with one value for each selected position, of any type, can be stored, and
is what is then read, converted value by value and in the same order. After a store, whether
or not it succeeded, a second one that fits does the same as without it; so giving one value
twice is giving it once. -/
theorem read_store_lens (t : ElementType) (a : Array t.Value) {s : Slice}
    (h : s.step ≠ some 0) :
    ∃ n v, s.resolve a.size = .ok n ∧ View.ofSlice a s = .ok v ∧
      (assign (t.convert t) s (.sequence v.toArray)).run a = .ok () a ∧
      (∀ (source : ElementType) (values : Array source.Value), values.size = n.count →
        ∃ b w, (assign (source.convert t) s (.sequence values)).run a = .ok () b ∧
          View.ofSlice b s = .ok w ∧ w.toArray = values.map (source.convert t)) ∧
      (∀ (first second : ElementType) (x : Source first.Value) (y : Source second.Value),
        y.Fits n.count →
          ∃ b, (assign (second.convert t) s y).run a = .ok () b ∧
            (assign (second.convert t) s y).run
              (left ((assign (first.convert t) s x).run a)) = .ok () b) ∧
      ∀ (source : ElementType) (value : source.Value),
        ∃ b, (assign (source.convert t) s (.scalar value)).run a = .ok () b ∧
          (assign (source.convert t) s (.scalar value)).run b = .ok () b := by
  obtain ⟨n, hn, hresolved, -⟩ := Slice.exists_resolve a.size h
  have hle : Slice.effectiveLength a.size ≤ a.size := Nat.min_le_left _ _
  have hview (b : Array t.Value) (hb : b.size = a.size) : View.ofSlice b s = .ok ⟨b, n⟩ := by
    rw [View.ofSlice_eq, hb, hn]
    rfl
  refine ⟨n, ⟨a, n⟩, hn, hview a rfl, ?_, fun source values hsize => ?_,
    fun first second x y hy => ?_, fun source value => ?_⟩
  · have hid : t.convert t = id := funext fun v => ElementType.convert_self t v
    rw [hid, run_assign_of_fits hn (Store.fits_toArray hresolved hle) id,
      Store.write_toArray hresolved hle]
  · have hfit : (Source.sequence values).Fits n.count := Source.fits_sequence hsize
    refine ⟨_, _, run_assign_of_fits hn hfit _, hview _ ?_, ?_⟩
    · exact Store.size_write hresolved hle hfit _
    · exact View.toArray_write hresolved hle hsize _
  · refine ⟨_, run_assign_of_fits hn hy _, ?_⟩
    rw [run_assign_left hn _ _ x hy, run_assign_of_fits hn hy _]
  · have hfit : (Source.scalar value).Fits n.count := Source.fits_scalar value n.count
    have hrun := run_assign_of_fits hn hfit (source.convert t)
    have htwice := run_assign_left hn (source.convert t) (source.convert t) (.scalar value) hfit
    rw [hrun] at htwice
    exact ⟨_, hrun, htwice⟩

/-- Every second number is read from the back, one of them a signalling pattern that is not
a number, and stored again. -/
theorem read_store_lens_signalling :
    ∃ n v, Slice.resolve ⟨none, none, some (-2)⟩ 3 = .ok n ∧
      View.ofSlice #[⟨0x7f800001⟩, ⟨0x40000000⟩, ⟨0x80000000⟩] ⟨none, none, some (-2)⟩ =
        .ok v ∧
      v.toArray = #[⟨0x80000000⟩, ⟨0x7f800001⟩] ∧
      (assign (ElementType.float32.convert .float32) ⟨none, none, some (-2)⟩
        (.sequence v.toArray)).run #[⟨0x7f800001⟩, ⟨0x40000000⟩, ⟨0x80000000⟩] =
          .ok () #[⟨0x7f800001⟩, ⟨0x40000000⟩, ⟨0x80000000⟩] := by
  obtain ⟨n, v, hn, hv, hstore, -⟩ :=
    read_store_lens .float32 #[⟨0x7f800001⟩, ⟨0x40000000⟩, ⟨0x80000000⟩]
      (s := ⟨none, none, some (-2)⟩) (by decide)
  refine ⟨n, v, hn, hv, ?_, hstore⟩
  obtain rfl : ⟨#[⟨0x7f800001⟩, ⟨0x40000000⟩, ⟨0x80000000⟩], ⟨2, -1, -2, 2⟩⟩ = v :=
    Except.ok.inj hv
  rfl

end InPlace

end StridedSlice
