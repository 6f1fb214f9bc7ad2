import StridedSlice.Proofs.Lens
import StridedSlice.Proofs.Resume
/-!
# StridedSlice.Proofs.WriteBack

**What a load returned can be stored again.** A load gives scalars and an assignment takes
scalars, so the elements go through a second type on their way out and back in. The law for
this round trip (`Store.write_map_toArray`) needs nothing but that the way back undoes the way
out on the elements of the array, and `ElementType.ofScalar_toScalar` says that it does for
all of them but the numbers of 32 bits that are not numbers.
-/

namespace StridedSlice

/-- An assignment of scalars reads back the element that a load made a scalar of. -/
theorem ElementType.convert_scalar_toScalar {t : ElementType} {v : t.Value}
    (h : t.isNaN32 v = false) : ElementType.convert .scalar t (t.toScalar v) = v := by
  rw [convert_scalar, ofScalar_toScalar h]

/-- Storing what was read changes nothing, even if it was made into something else, as long
as that is converted back. -/
theorem Store.write_map_toArray {σ α : Type} {n : Selection} {len : Nat} (h : n.Resolved len)
    {a : Array α} (hle : len ≤ a.size) {f : α → σ} {convert : σ → α}
    (hback : ∀ v ∈ a, convert (f v) = v) :
    write convert a n (.sequence ((View.mk a n).toArray.map f)) = a := by
  have hsize : (View.mk a n).toArray.size = n.count := View.size_toArray (v := ⟨a, n⟩) h hle
  have hfit : (Source.sequence ((View.mk a n).toArray.map f)).Fits n.count :=
    Source.fits_sequence (Array.size_map.trans hsize)
  refine write_eq_of_getElem? h hle hfit (fun i p w hp hw => ?_) fun _ _ => rfl
  -- The value `w` is made from the element that was read at the very position `p`.
  rw [Source.get?, Array.getElem?_map, View.getElem?_toArray (v := ⟨a, n⟩) h hle, View.get?,
    hp] at hw
  obtain ⟨v, hv, rfl⟩ := Option.map_eq_some_iff.mp hw
  rw [hback v (Array.mem_of_getElem? hv)]
  exact hv

namespace Buffer

variable {b : Buffer} {s : Slice}

/-- A load that succeeds on a buffer without numbers of 32 bits that are not numbers gives
scalars that the same slice takes back without a change. -/
theorem apply_assign_load {n : Selection} (hn : s.resolve b.size = .ok n)
    (hnan : b.hasNaN32 = false) :
    b.apply (.assign s (.sequence ((View.mk b.data n).toArray.map
      b.dtype.elementType.toScalar))) = .ok (b, none) := by
  have hresolved : n.Resolved (Slice.effectiveLength b.size) := Slice.resolved_of_resolve hn
  have hle : Slice.effectiveLength b.size ≤ b.data.size := Nat.min_le_left _ _
  have hback : ∀ v ∈ b.data, ElementType.convert .scalar b.dtype.elementType
      (b.dtype.elementType.toScalar v) = v := by
    intro v hv
    exact ElementType.convert_scalar_toScalar
      (Bool.eq_false_iff.mpr (Array.any_eq_false'.mp hnan v hv))
  have hfit : (Source.sequence ((View.mk b.data n).toArray.map
      b.dtype.elementType.toScalar)).Fits n.count :=
    Source.fits_sequence (Array.size_map.trans
      (View.size_toArray (v := ⟨b.data, n⟩) hresolved hle))
  rw [apply_assign, Store.assign_of_fits _ hn hfit, Store.write_map_toArray hresolved hle hback]
  rfl

/-- **What was read can be written back.** An element of any type that becomes a scalar is read
back from it bit for bit, like an element that is stored among others of its type, unless it is
a number of 32 bits that is not a number. So on a buffer without these, a slice that has no zero
step can be loaded, and the scalars that the load returned can be assigned to the same slice:
both succeed, on the buffer as a whole as in place, and leave the buffer bit for bit as it
was. -/
theorem load_then_assign (hnan : b.hasNaN32 = false) (hstep : s.step ≠ some 0) :
    (∀ (t : ElementType) (v : t.Value), t.isNaN32 v = false →
        t.ofScalar (t.toScalar v) = v ∧ t.convert t v = v) ∧
      ∃ values, b.apply (.load s) = .ok (b, some values) ∧
        b.apply (.assign s (.sequence values)) = .ok (b, none) ∧
        (perform (.load s)).run b = .ok (some values) b ∧
        (perform (.assign s (.sequence values))).run b = .ok none b := by
  refine ⟨fun t v hv => ⟨ElementType.ofScalar_toScalar hv, ElementType.convert_self t v⟩, ?_⟩
  obtain ⟨n, hn, -⟩ := Slice.exists_resolve b.size hstep
  have hload : b.apply (.load s) =
      .ok (b, some ((View.mk b.data n).toArray.map b.dtype.elementType.toScalar)) := by
    rw [apply_load, hn]
    rfl
  have hassign := apply_assign_load hn hnan
  refine ⟨_, hload, hassign, ?_, ?_⟩
  · rw [run_perform, hload]
    rfl
  · rw [run_perform, hassign]
    rfl

/-- The least number of 32 bits, the negative zero and an infinity. -/
def extremes : Buffer := ⟨.float32, #[⟨0x00000001⟩, ⟨0x80000000⟩, ⟨0xff800000⟩]⟩

/-- Both ends of the buffer go through scalars, in the opposite order, and come back. -/
theorem load_then_assign_extremes :
    ∃ values, extremes.apply (.load ⟨none, none, some (-2)⟩) = .ok (extremes, some values) ∧
      values = #[.float ⟨0xfff0000000000000⟩, .float ⟨0x36a0000000000000⟩] ∧
      extremes.apply (.assign ⟨none, none, some (-2)⟩ (.sequence values)) =
        .ok (extremes, none) := by
  obtain ⟨-, values, hload, hassign, -⟩ :=
    load_then_assign (b := extremes) (s := ⟨none, none, some (-2)⟩) (by decide +kernel) (by decide)
  refine ⟨values, hload, ?_, hassign⟩
  have hn : Slice.resolve ⟨none, none, some (-2)⟩ extremes.size = .ok ⟨2, -1, -2, 2⟩ := rfl
  rw [apply_load, hn] at hload
  cases hload
  decide +kernel

end Buffer

end StridedSlice
