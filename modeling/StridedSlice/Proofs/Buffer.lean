import StridedSlice.Buffer
import StridedSlice.Proofs.InPlace
import StridedSlice.Proofs.View
/-!
# StridedSlice.Proofs.Buffer

**What an operation does to a buffer.** A store gives a buffer of the same type and length
and no values; a load gives the scalars at the selected positions and the same buffer.
Carried out in place, an operation that is refused leaves the buffer as it was
(`run_perform`).
-/

namespace StridedSlice

/-- What a mapped computation gives comes from a value that the computation gave. -/
theorem exists_of_map_eq_ok {ε α β : Type} {x : Except ε α} {f : α → β} {b : β}
    (h : x.map f = .ok b) : ∃ a, x = .ok a ∧ f a = b := by
  cases x with
  | error e => cases h
  | ok a => exact ⟨a, rfl, Except.ok.inj h⟩

namespace Operation

/-- Whether an operation returns values. -/
def isLoad : Operation → Bool
  | .load _ => true
  | .assign _ _ => false
  | .assignAt _ _ => false

end Operation

namespace Buffer

/-! ### One equation for each operation -/

theorem apply_assign (b : Buffer) (slice : Slice) (value : Source Scalar) :
    b.apply (.assign slice value) =
      (Store.assign (ElementType.convert .scalar b.dtype.elementType) b.data slice value).map
        fun data => (⟨b.dtype, data⟩, none) := by
  simp only [apply, applyTraced, Traced.result_bind, Traced.result_pure]
  rfl

theorem apply_assignAt (b : Buffer) (index : Int64) (value : Scalar) :
    b.apply (.assignAt index value) =
      (Store.assignAt (ElementType.convert .scalar b.dtype.elementType) b.data index value).map
        fun data => (⟨b.dtype, data⟩, none) := by
  simp only [apply, applyTraced, Traced.result_bind, Traced.result_pure]
  rfl

theorem apply_load (b : Buffer) (slice : Slice) :
    b.apply (.load slice) =
      (slice.resolve b.size).map fun n =>
        (b, some ((View.mk b.data n).toArray.map b.dtype.elementType.toScalar)) := by
  simp only [apply, applyTraced, size, Traced.result_bind, Traced.result_pure]
  change (View.ofSlice b.data slice).bind _ = _
  rw [View.ofSlice_eq]
  cases slice.resolve b.data.size <;> rfl

/-! ### What an operation leaves -/

/-- What is left of a store on the elements: a buffer of the same shape, and no values. -/
theorem shape_of_map_data {b after : Buffer} {values : Option (Array Scalar)}
    {result : Except SliceError (Array b.dtype.elementType.Value)}
    (hsize : ∀ data, result = .ok data → data.size = b.size)
    (h : (result.map fun data => ((⟨b.dtype, data⟩ : Buffer), none)) = .ok (after, values)) :
    values = none ∧ after.dtype = b.dtype ∧ after.size = b.size := by
  obtain ⟨data, hdata, hafter⟩ := exists_of_map_eq_ok h
  cases hafter
  exact ⟨rfl, rfl, hsize data hdata⟩

/-- A store returns no values and keeps the type and the length of the buffer. -/
theorem apply_store_ok {b after : Buffer} {o : Operation} {values : Option (Array Scalar)}
    (ho : o.isLoad = false) (h : b.apply o = .ok (after, values)) :
    values = none ∧ after.dtype = b.dtype ∧ after.size = b.size := by
  cases o with
  | assign slice value =>
      rw [apply_assign] at h
      exact shape_of_map_data (fun _ => Store.size_of_assign) h
  | assignAt index value =>
      rw [apply_assignAt] at h
      exact shape_of_map_data (fun _ => Store.size_of_assignAt) h
  | load slice => exact absurd ho (by simp [Operation.isLoad])

/-- The values that a slice selects, as scalars. -/
def Selects (b : Buffer) (slice : Slice) (values : Array Scalar) : Prop :=
  ∃ n, slice.resolve b.size = .ok n ∧
    values.toList.map some = n.positions.toList.map (b.scalars[·]?)

/-- There is one value for each selected position. -/
theorem Selects.exists_size_eq {b : Buffer} {slice : Slice} {values : Array Scalar}
    (h : b.Selects slice values) : ∃ n, slice.resolve b.size = .ok n ∧ values.size = n.count := by
  obtain ⟨n, hn, hvalues⟩ := h
  have hlength := congrArg List.length hvalues
  rw [List.length_map, List.length_map, Selection.toList_positions, Cursor.length_toList] at hlength
  exact ⟨n, hn, hlength⟩

/-- A load returns the selected scalars and leaves the buffer as it was. -/
theorem apply_load_ok {b after : Buffer} {slice : Slice} {values : Option (Array Scalar)}
    (h : b.apply (.load slice) = .ok (after, values)) :
    after = b ∧ ∃ vs, values = some vs ∧ b.Selects slice vs := by
  rw [apply_load] at h
  obtain ⟨n, hn, hafter⟩ := exists_of_map_eq_ok h
  have hresolved : n.Resolved (Slice.effectiveLength b.size) := Slice.resolved_of_resolve hn
  have hshown := View.map_some_toArray (v := ⟨b.data, n⟩) hresolved (Nat.min_le_left _ _)
  cases hafter
  refine ⟨rfl, _, rfl, n, hn, ?_⟩
  have hscalars := congrArg (List.map (Option.map b.dtype.elementType.toScalar)) hshown
  rw [List.map_map, List.map_map] at hscalars
  rw [Array.toList_map, List.map_map]
  refine hscalars.trans (List.map_congr_left fun p _ => ?_)
  simp [scalars]

/-- No operation changes the type or the length of a buffer. -/
theorem apply_shape {b after : Buffer} {o : Operation} {values : Option (Array Scalar)}
    (h : b.apply o = .ok (after, values)) : after.dtype = b.dtype ∧ after.size = b.size := by
  cases o with
  | assign slice value => exact (apply_store_ok rfl h).2
  | assignAt index value => exact (apply_store_ok rfl h).2
  | load slice =>
      obtain ⟨rfl, -⟩ := apply_load_ok h
      exact ⟨rfl, rfl⟩

/-! ### Operations in place -/

/-- How an operation ends in place: with the new buffer and the values, or with the
refusal and the old buffer. -/
def outcome (b : Buffer) : Except SliceError (Buffer × Option (Array Scalar)) →
    EStateM.Result Stop Buffer (Option (Array Scalar))
  | .ok (after, values) => .ok values after
  | .error e => .error (.refused e) b

/-- A store on the elements is one on the buffer. -/
theorem onData_of_outcome {b : Buffer} {x : InPlace b.dtype.elementType.Value Unit}
    {result : Except SliceError (Array b.dtype.elementType.Value)}
    (h : x.run b.data = InPlace.outcome b.data result) :
    b.onData x = b.outcome (result.map fun data => (⟨b.dtype, data⟩, none)) := by
  unfold onData
  rw [h]
  cases result <;> rfl

/-- **An operation in place** ends like the operation on the whole buffer, and leaves the
buffer as it was when it is refused. -/
theorem run_perform (b : Buffer) (o : Operation) :
    (perform o).run b = b.outcome (b.apply o) := by
  cases o with
  | assign slice value =>
      rw [apply_assign]
      exact onData_of_outcome (InPlace.run_assign _ slice value b.data)
  | assignAt index value =>
      rw [apply_assignAt]
      exact onData_of_outcome (InPlace.run_assignAt _ index value b.data)
  | load slice =>
      have hchecked := Checked.resolve_eq slice b.size
      rw [apply_load]
      cases hresolve : slice.resolve b.size with
      | error e =>
          rw [hresolve] at hchecked
          simp only [EStateM.run, perform, hchecked]
          rfl
      | ok n =>
          rw [hresolve] at hchecked
          simp only [EStateM.run, perform, hchecked]
          rfl

end Buffer

end StridedSlice
