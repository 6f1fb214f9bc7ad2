import StridedSlice.Proofs.InPlace
import StridedSlice.Proofs.LastWrite
/-!
# StridedSlice.Proofs.Paths

**The ways of storing agree.** A selection may be taken as one block or walked with a
cursor, one value may be given to all positions or as a sequence of copies of it, and a
store may be replaced by single stores, each at an index of its own. Each of them carries
out the plan of the store (`Store.plan`), and the array is the same in the end.

* `run_fill`, `run_copy`: a block is what a walk leaves behind;
* `Store.write_replicate`: one value and copies of it;
* `assignFirst`: single stores in order, with `run_assignFirst` for how far they have come
  in the plan.
-/

namespace StridedSlice

namespace Store

variable {σ α : Type} {n : Selection} {len : Nat} (h : n.Resolved len) {a : Array α}
  (hle : len ≤ a.size)

/-- A plan does not tell one value from copies of it. -/
theorem plan_replicate (convert : σ → α) (n : Selection) (v : σ) :
    plan convert n (.sequence (Array.replicate n.count v)) = plan convert n (.scalar v) := by
  simp [plan, Source.values]

theorem fits_replicate (n : Selection) (v : σ) :
    (Source.sequence (Array.replicate n.count v)).Fits n.count :=
  Source.fits_sequence Array.size_replicate

include h hle

theorem fill_eq_fillAlong (v : α) : fill a n v = fillAlong a n.cursor v := by
  have hwrite := write_eq_writeAll h hle (Source.fits_scalar v n.count) id
  rw [plan_scalar, ← fillAlong_eq_writeAll] at hwrite
  exact hwrite

theorem copy_eq_copyAlong {values : Array α} (hsize : values.size = n.count) :
    copy a n values = copyAlong a n.cursor values.toList := by
  have hwrite := write_eq_writeAll h hle (Source.fits_sequence hsize) id
  rwa [plan, Source.values, List.map_id, ← copyAlong_eq_writeAll, write, Array.map_id] at hwrite

theorem write_replicate (convert : σ → α) (v : σ) :
    write convert a n (.sequence (Array.replicate n.count v)) =
      write convert a n (.scalar v) := by
  rw [write_eq_writeAll h hle (fits_replicate n v),
    write_eq_writeAll h hle (Source.fits_scalar v n.count), plan_replicate]

end Store

namespace InPlace

variable {σ α : Type}

/-- The first `k` values of a source, one after the other, each stored at the index of its
position. -/
def assignFirst (convert : σ → α) (n : Selection) (given : Source σ) : Nat → InPlace α Unit
  | 0 => pure ()
  | k + 1 => do
      assignFirst convert n given k
      match n.position? k, given.get? k with
      | some p, some v => assignAt convert (Int64.ofNat p) v
      | _, _ => throw .fault

/-- A position inside the array can be used as an index. -/
theorem run_assignAt_ofNat (convert : σ → α) {a : Array α} {p : Nat} (hp : p < a.size)
    (hword : p ≤ maxLength) (v : σ) :
    (assignAt convert (Int64.ofNat p) v).run a = .ok () (a.setIfInBounds p (convert v)) := by
  rw [run_assignAt, Store.assignAt_eq, Store.indexPosition?_ofNat hp hword]
  rfl

section Resolved

variable {n : Selection} {len : Nat} (h : n.Resolved len) {a : Array α} (hle : len ≤ a.size)
include h hle

theorem run_fill (v : α) : (fill n v).run a = .ok () (Store.fillAlong a n.cursor v) := by
  have hin : ∀ p ∈ (n.cursor.toList.map fun p => (p, v)).map Prod.fst, p < a.size := by
    simp only [List.map_map, Function.comp_def, List.map_id']
    exact fun p hp => Nat.lt_of_lt_of_le (h.cursor_lt hp) hle
  rw [fill, run_bind_ok (run_targets h hle), run_putEach hin, Store.fillAlong_eq_writeAll]

/-- A block and a walk also agree on a sequence of another length. -/
theorem run_copy (values : Array α) :
    (copy n values).run a = .ok () (Store.copyAlong a n.cursor values.toList) := by
  have hin : ∀ p ∈ (n.cursor.toList.zip values.toList).map Prod.fst, p < a.size := by
    intro p hp
    obtain ⟨w, hw, rfl⟩ := List.mem_map.mp hp
    exact Nat.lt_of_lt_of_le (h.cursor_lt (List.of_mem_zip hw).1) hle
  rw [copy, run_bind_ok (run_targets h hle), run_putEach hin, Store.copyAlong_eq_writeAll]

/-- Single stores in order carry out the plan from its front: after `k` of them, the first
`k` writes of the plan are done. -/
theorem run_assignFirst (convert : σ → α) {given : Source σ} (hfit : given.Fits n.count)
    {k : Nat} (hk : k ≤ n.count) :
    (assignFirst convert n given k).run a =
      .ok () (Store.writeAll a ((Store.plan convert n given).take k)) := by
  induction k with
  | zero => rfl
  | succ k ih =>
      obtain ⟨p, hp⟩ := Selection.exists_position hk
      obtain ⟨v, hv⟩ := Source.exists_get? hfit hk
      have hlt : p < len := h.position_lt hp
      have hlen := h.len_le
      have hsize : p < (Store.writeAll a ((Store.plan convert n given).take k)).size := by
        rw [Store.size_writeAll]
        omega
      rw [assignFirst, run_bind_ok (ih (by omega)), hp, hv]
      dsimp only
      rw [run_assignAt_ofNat convert hsize (by omega), List.take_add_one,
        Store.getElem?_plan convert hp hv, Store.writeAll_append]
      rfl

/-- Storing all values one by one is storing them at once. -/
theorem run_assignFirst_count (convert : σ → α) {given : Source σ}
    (hfit : given.Fits n.count) :
    (assignFirst convert n given n.count).run a =
      .ok () (Store.write convert a n given) := by
  rw [run_assignFirst h hle convert hfit le_rfl, Store.write_eq_writeAll h hle hfit,
    List.take_of_length_le (Store.length_plan convert hfit).le]

end Resolved

/-- **All paths of a store agree**, for every array and every slice that is resolved against
it. To fill the selection, and to copy any sequence to it, leaves what a walk along its
cursor leaves that writes one position at a time, also where a selection of step one is
taken as a block; and the same holds of arrays as a whole. One value is stored like as many
copies of it. A store that succeeds is what single stores at the selected positions do in
order, and each of them succeeds. -/
theorem store_paths_agree (source target : ElementType) (a : Array target.Value) {s : Slice}
    {n : Selection} (h : s.resolve a.size = .ok n) :
    (∀ v, (fill n v).run a = .ok () (Store.fillAlong a n.cursor v) ∧
        Store.fill a n v = Store.fillAlong a n.cursor v) ∧
      (∀ values : Array target.Value,
        (copy n values).run a = .ok () (Store.copyAlong a n.cursor values.toList) ∧
          (values.size = n.count →
            Store.copy a n values = Store.copyAlong a n.cursor values.toList)) ∧
      (∀ v : source.Value, ∃ b,
        (assign (source.convert target) s (.scalar v)).run a = .ok () b ∧
          (assign (source.convert target) s
            (.sequence (Array.replicate n.count v))).run a = .ok () b) ∧
      ∀ (given : Source source.Value) (b : Array target.Value),
        (assign (source.convert target) s given).run a = .ok () b →
          (∀ k ≤ n.count, ∃ c, (assignFirst (source.convert target) n given k).run a =
              .ok () c) ∧
            (assignFirst (source.convert target) n given n.count).run a = .ok () b := by
  have hresolved : n.Resolved (Slice.effectiveLength a.size) := Slice.resolved_of_resolve h
  have hle : Slice.effectiveLength a.size ≤ a.size := Nat.min_le_left _ _
  refine ⟨fun v => ⟨run_fill hresolved hle v, Store.fill_eq_fillAlong hresolved hle v⟩,
    fun values => ⟨run_copy hresolved hle values, Store.copy_eq_copyAlong hresolved hle⟩,
    fun v => ⟨_, run_assign_of_fits h (Source.fits_scalar v n.count) _, ?_⟩,
    fun given b hassign => ?_⟩
  · rw [run_assign_of_fits h (Store.fits_replicate n v),
      Store.write_replicate hresolved hle]
  · by_cases hfit : given.Fits n.count
    · refine ⟨fun k hk => ⟨_, run_assignFirst hresolved hle _ hfit hk⟩, ?_⟩
      rw [← hassign, run_assign_of_fits h hfit, run_assignFirst_count hresolved hle _ hfit]
    · obtain ⟨len, hlen, hne⟩ := Source.not_fits_iff.mp hfit
      rw [run_assign, Store.assign_of_length_ne _ h hlen hne] at hassign
      cases hassign

/-- Two words of 16 bits go to the end of an array of bytes, as one block or one by one. -/
theorem store_paths_agree_narrowing :
    Slice.resolve ⟨some 1, none, none⟩ 3 = .ok ⟨1, 3, 1, 2⟩ ∧
      (assign (ElementType.convert (.int .int16) (.int .uint8)) ⟨some 1, none, none⟩
        (.sequence #[300#16, 65535#16])).run #[10#8, 20#8, 30#8] =
          .ok () #[10#8, 44#8, 255#8] ∧
      (assignFirst (ElementType.convert (.int .int16) (.int .uint8)) ⟨1, 3, 1, 2⟩
        (.sequence #[300#16, 65535#16]) 2).run #[10#8, 20#8, 30#8] =
          .ok () #[10#8, 44#8, 255#8] := by
  have hresolve : Slice.resolve ⟨some 1, none, none⟩ #[10#8, 20#8, 30#8].size =
      .ok ⟨1, 3, 1, 2⟩ := rfl
  have hwrite : Store.write (ElementType.convert (.int .int16) (.int .uint8))
      #[10#8, 20#8, 30#8] ⟨1, 3, 1, 2⟩ (.sequence #[300#16, 65535#16]) =
        #[10#8, 44#8, 255#8] := by decide +kernel
  have hfit : (Source.sequence #[300#16, 65535#16]).Fits 2 := Source.fits_sequence rfl
  have hassign := run_assign_of_fits hresolve hfit
    (ElementType.convert (.int .int16) (.int .uint8))
  rw [hwrite] at hassign
  obtain ⟨-, -, -, hsingle⟩ := store_paths_agree (.int .int16) (.int .uint8) _ hresolve
  exact ⟨hresolve, hassign, (hsingle _ _ hassign).2⟩

end InPlace

end StridedSlice
