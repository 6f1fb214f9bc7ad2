import StridedSlice.Store
import StridedSlice.Proofs.Positions
/-!
# StridedSlice.Proofs.Store

**What a store writes.** Every way of storing comes down to one list of writes
(`Store.plan`), each selected position with the value it is given, carried out in order
(`Store.writeAll`). Since no position is selected twice, the order does not matter: each
position ends up with its value, and every other one is untouched.

* `Store.write_eq_writeAll`: the block and the walk are both such a list;
* `Store.write_selected`, `Store.write_unselected`: what they leave behind.
-/

namespace StridedSlice

namespace Source

variable {σ : Type}

/-- Whether a source can be given to `count` positions. -/
def Fits (source : Source σ) (count : Nat) : Prop :=
  ∀ len, source.length? = some len → len = count

/-- The value for the `i`-th position. -/
def get? : Source σ → Nat → Option σ
  | .scalar v, _ => some v
  | .sequence vs, i => vs[i]?

/-- The values for `count` positions, in order. -/
def values (count : Nat) : Source σ → List σ
  | .scalar v => List.replicate count v
  | .sequence vs => vs.toList

/-- One value can be given to any number of positions. -/
theorem fits_scalar (v : σ) (count : Nat) : (Source.scalar v).Fits count := by
  rintro _ ⟨⟩

theorem fits_sequence {values : Array σ} {count : Nat} (h : values.size = count) :
    (Source.sequence values).Fits count := by
  rintro _ ⟨⟩
  exact h

/-- A source that does not fit is a sequence of another length. -/
theorem not_fits_iff {source : Source σ} {count : Nat} :
    ¬source.Fits count ↔ ∃ len, source.length? = some len ∧ len ≠ count := by
  simp [Fits]

theorem length_values {source : Source σ} {count : Nat} (h : source.Fits count) :
    (source.values count).length = count := by
  cases source with
  | scalar v => simp [values]
  | sequence vs => exact h vs.size rfl

theorem getElem?_values {source : Source σ} {count i : Nat} (hi : i < count) :
    (source.values count)[i]? = source.get? i := by
  cases source with
  | scalar v => simp [values, get?, hi]
  | sequence vs => simp [values, get?]

/-- A source that fits has a value for every position. -/
theorem exists_get? {source : Source σ} {count i : Nat} (h : source.Fits count)
    (hi : i < count) : ∃ v, source.get? i = some v := by
  have hlt : i < (source.values count).length := by rwa [length_values h]
  exact ⟨_, (getElem?_values hi).symm.trans (List.getElem?_eq_getElem hlt)⟩

end Source

namespace Store

variable {σ α : Type}

/-! ### Lists of writes -/

/-- Carries out writes in order. -/
def writeAll (a : Array α) (writes : List (Nat × α)) : Array α :=
  writes.foldl (fun a w => a.setIfInBounds w.1 w.2) a

@[simp] theorem writeAll_nil (a : Array α) : writeAll a [] = a := rfl

@[simp] theorem writeAll_cons (a : Array α) (w : Nat × α) (rest : List (Nat × α)) :
    writeAll a (w :: rest) = writeAll (a.setIfInBounds w.1 w.2) rest := rfl

@[simp] theorem size_writeAll (a : Array α) (writes : List (Nat × α)) :
    (writeAll a writes).size = a.size := by
  induction writes generalizing a with
  | nil => rfl
  | cons w rest ih => rw [writeAll_cons, ih, Array.size_setIfInBounds]

/-- A position that is not written keeps its element. -/
theorem getElem?_writeAll_of_not_mem {a : Array α} {writes : List (Nat × α)} {p : Nat}
    (h : p ∉ writes.map Prod.fst) : (writeAll a writes)[p]? = a[p]? := by
  induction writes generalizing a with
  | nil => rfl
  | cons w rest ih =>
      rw [List.map_cons, List.mem_cons, not_or] at h
      rw [writeAll_cons, ih h.2, Array.getElem?_setIfInBounds_ne fun hw => h.1 hw.symm]

/-- A position that is written once gets its value. -/
theorem getElem?_writeAll_of_mem {a : Array α} {writes : List (Nat × α)} {p : Nat} {v : α}
    (hnodup : (writes.map Prod.fst).Nodup) (hmem : (p, v) ∈ writes) (hp : p < a.size) :
    (writeAll a writes)[p]? = some v := by
  induction writes generalizing a with
  | nil => exact absurd hmem List.not_mem_nil
  | cons w rest ih =>
      rw [List.map_cons, List.nodup_cons] at hnodup
      rw [writeAll_cons]
      rcases List.mem_cons.mp hmem with rfl | hrest
      · -- No later write has the position of the first.
        rw [getElem?_writeAll_of_not_mem hnodup.1]
        exact Array.getElem?_setIfInBounds_self_of_lt hp
      · exact ih hnodup.2 hrest (by rwa [Array.size_setIfInBounds])

/-! ### Blocks and walks as lists of writes -/

theorem fillAlong_eq_writeAll (a : Array α) (c : Cursor) (v : α) :
    fillAlong a c v = writeAll a (c.toList.map fun p => (p, v)) := by
  rw [fillAlong, Cursor.foldl_eq_toList_foldl, writeAll, List.foldl_map]

theorem copyAlong_eq_writeAll (a : Array α) (c : Cursor) (values : List α) :
    copyAlong a c values = writeAll a (c.toList.zip values) := by
  induction values generalizing a c with
  | nil => simp [copyAlong]
  | cons v vs ih =>
      rcases hnext : c.next with ⟨_ | p, rest⟩
      · have hnil : c.toList = [] := by
          obtain ⟨front, step, _ | remaining⟩ := c
          · rfl
          · simp [Cursor.next] at hnext
        simp [copyAlong, hnext, hnil]
      · rw [Cursor.toList_next hnext, List.zip_cons_cons, writeAll_cons, ← ih]
        simp [copyAlong, hnext]

theorem getElem?_replaceBlock {a block : Array α} {first : Nat}
    (h : first + block.size ≤ a.size) (p : Nat) :
    (replaceBlock a first block)[p]? =
      if first ≤ p ∧ p < first + block.size then block[p - first]? else a[p]? := by
  have hfront : (a.extract 0 first).size = first := by
    rw [Array.size_extract]
    omega
  have hmid : (a.extract 0 first ++ block).size = first + block.size := by
    rw [Array.size_append, hfront]
  unfold replaceBlock
  rcases Nat.lt_or_ge p first with hlt | hge
  · rw [if_neg (by omega), Array.getElem?_append_left (by omega),
      Array.getElem?_append_left (by omega), Array.getElem?_extract, if_pos (by omega),
      Nat.zero_add]
  · rcases Nat.lt_or_ge p (first + block.size) with hin | hout
    · rw [if_pos ⟨hge, hin⟩, Array.getElem?_append_left (by omega),
        Array.getElem?_append_right (by omega), hfront]
    · rw [if_neg (by omega), Array.getElem?_append_right (by omega), hmid,
        Array.getElem?_extract]
      split_ifs with hp
      · congr 1
        omega
      · exact (Array.getElem?_eq_none (by omega)).symm

/-- A block is written like any other list of positions. -/
theorem replaceBlock_eq_writeAll {a block : Array α} {first : Nat}
    (h : first + block.size ≤ a.size) :
    replaceBlock a first block =
      writeAll a ((List.range' first block.size).zip block.toList) := by
  have hfst : ((List.range' first block.size).zip block.toList).map Prod.fst =
      List.range' first block.size := List.map_fst_zip (by simp)
  refine Array.ext_getElem? fun p => ?_
  rw [getElem?_replaceBlock h]
  by_cases hp : first ≤ p ∧ p < first + block.size
  · have hlt : p - first < block.size := by omega
    have hmem : (p, block[p - first]) ∈ (List.range' first block.size).zip block.toList := by
      refine List.mem_iff_getElem?.mpr ⟨p - first, ?_⟩
      rw [List.getElem?_zip_eq_some]
      refine ⟨?_, by simp [hlt]⟩
      rw [List.getElem?_range' hlt]
      congr 1
      omega
    have hnodup : (((List.range' first block.size).zip block.toList).map Prod.fst).Nodup := by
      rw [hfst]
      exact List.nodup_range'
    have hpa : p < a.size := by omega
    rw [if_pos hp, getElem?_writeAll_of_mem hnodup hmem hpa, Array.getElem?_eq_getElem hlt]
  · rw [if_neg hp, getElem?_writeAll_of_not_mem]
    rw [hfst, List.mem_range'_1]
    exact hp

theorem size_replaceBlock {a block : Array α} {first : Nat} (h : first + block.size ≤ a.size) :
    (replaceBlock a first block).size = a.size := by
  rw [replaceBlock_eq_writeAll h, size_writeAll]

/-- A block is found again where it was put. -/
theorem extract_replaceBlock {a block : Array α} {first : Nat}
    (h : first + block.size ≤ a.size) :
    (replaceBlock a first block).extract first (first + block.size) = block := by
  refine Array.ext_getElem? fun i => ?_
  rw [Array.getElem?_extract, size_replaceBlock h, getElem?_replaceBlock h]
  split_ifs with hi hin
  · congr 1
    omega
  · omega
  · exact (Array.getElem?_eq_none (by omega)).symm

/-! ### The plan of a store -/

/-- The writes of a store in the order of the walk. -/
def plan (convert : σ → α) (n : Selection) (source : Source σ) : List (Nat × α) :=
  n.cursor.toList.zip ((source.values n.count).map convert)

theorem map_fst_plan (convert : σ → α) {n : Selection} {source : Source σ}
    (hfit : source.Fits n.count) :
    (plan convert n source).map Prod.fst = n.cursor.toList := by
  refine List.map_fst_zip ?_
  rw [List.length_map, Source.length_values hfit, Cursor.length_toList]
  rfl

/-- What the `i`-th write of a plan is. -/
theorem getElem?_plan (convert : σ → α) {n : Selection} {source : Source σ} {i p : Nat} {v : σ}
    (hp : n.position? i = some p) (hv : source.get? i = some v) :
    (plan convert n source)[i]? = some (p, convert v) := by
  have hi : i < n.count := by
    by_contra hi
    rw [Selection.position?_eq_none_iff.mpr (Nat.le_of_not_lt hi)] at hp
    exact absurd hp (by simp)
  rw [plan, List.getElem?_zip_eq_some]
  refine ⟨(n.getElem?_toList_cursor i).trans hp, ?_⟩
  rw [List.getElem?_map, Source.getElem?_values hi, hv]
  rfl

theorem mem_plan (convert : σ → α) {n : Selection} {source : Source σ} {i p : Nat} {v : σ}
    (hp : n.position? i = some p) (hv : source.get? i = some v) :
    (p, convert v) ∈ plan convert n source :=
  List.mem_of_getElem? (getElem?_plan convert hp hv)

theorem length_plan (convert : σ → α) {n : Selection} {source : Source σ}
    (hfit : source.Fits n.count) : (plan convert n source).length = n.count := by
  rw [← List.length_map Prod.fst, map_fst_plan convert hfit, Cursor.length_toList]
  rfl

/-- A plan for a sequence pairs it with the positions. -/
theorem plan_sequence (convert : σ → α) (n : Selection) (values : Array σ) :
    plan convert n (.sequence values) = n.cursor.toList.zip (values.map convert).toList := by
  rw [plan, Source.values, Array.toList_map]

/-- A plan for one value gives it to every position. -/
theorem plan_scalar (convert : σ → α) (n : Selection) (v : σ) :
    plan convert n (.scalar v) = n.cursor.toList.map fun p => (p, convert v) := by
  have hlen : n.cursor.toList.length = n.count := Cursor.length_toList _
  rw [plan, Source.values, List.map_replicate, ← hlen, ← List.map_const']
  exact List.map_prod_left_eq_zip.symm

section Resolved

variable {n : Selection} {len : Nat} (h : n.Resolved len) {a : Array α} (hle : len ≤ a.size)
  {source : Source σ} (hfit : source.Fits n.count) (convert : σ → α)
include h hle hfit

/-- A block and a walk carry out the same plan. -/
theorem write_eq_writeAll : write convert a n source = writeAll a (plan convert n source) := by
  by_cases hone : n.isContiguous = true
  · -- A block starts at the first position, and so do the positions of the cursor.
    obtain ⟨hlist, hin⟩ := h.toList_cursor_of_contiguous hone
    cases source with
    | scalar v =>
        have hblock : Selection.positionOf n.start + (Array.replicate n.count (convert v)).size ≤
            a.size := by
          rw [Array.size_replicate]
          omega
        rw [write, fill, if_pos hone, replaceBlock_eq_writeAll hblock, plan, hlist]
        simp [Source.values]
    | sequence vs =>
        have hsize : vs.size = n.count := hfit vs.size rfl
        have hblock : Selection.positionOf n.start + (vs.map convert).size ≤ a.size := by
          rw [Array.size_map]
          omega
        rw [write, copy, if_pos hone, replaceBlock_eq_writeAll hblock, plan, hlist]
        simp [Source.values, hsize]
  · cases source with
    | scalar v => rw [write, fill, if_neg hone, fillAlong_eq_writeAll, plan_scalar]
    | sequence vs =>
        rw [write, copy, if_neg hone, copyAlong_eq_writeAll, plan, Source.values,
          Array.toList_map]

theorem size_write : (write convert a n source).size = a.size := by
  rw [write_eq_writeAll h hle hfit, size_writeAll]

/-- A selected position gets the value that is meant for it. -/
theorem write_selected {i p : Nat} {v : σ} (hp : n.position? i = some p)
    (hv : source.get? i = some v) : (write convert a n source)[p]? = some (convert v) := by
  have hnodup : ((plan convert n source).map Prod.fst).Nodup := by
    rw [map_fst_plan convert hfit]
    exact h.nodup_cursor
  have hpa : p < a.size := Nat.lt_of_lt_of_le (h.position_lt hp) hle
  rw [write_eq_writeAll h hle hfit]
  exact getElem?_writeAll_of_mem hnodup (mem_plan convert hp hv) hpa

/-- A position that is not selected keeps its element. -/
theorem write_unselected {p : Nat} (hp : ∀ i, n.position? i ≠ some p) :
    (write convert a n source)[p]? = a[p]? := by
  rw [write_eq_writeAll h hle hfit]
  refine getElem?_writeAll_of_not_mem ?_
  rw [map_fst_plan convert hfit, Selection.mem_toList_cursor_iff]
  rintro ⟨i, hi⟩
  exact hp i hi

end Resolved

/-! ### The three ways an assignment goes -/

section Assign

variable (convert : σ → α) {a : Array α} {s : Slice} {source : Source σ}

theorem assign_of_error {e : SliceError} (h : s.resolve a.size = .error e) :
    assign convert a s source = .error e := by
  rw [assign_eq, h]
  rfl

variable {n : Selection} (h : s.resolve a.size = .ok n)
include h

theorem assign_of_length_ne {len : Nat} (hlen : source.length? = some len)
    (hne : len ≠ n.count) :
    assign convert a s source = .error (.lengthMismatch n.count len) := by
  rw [assign_eq, h, hlen]
  exact if_neg hne

theorem assign_of_fits (hfit : source.Fits n.count) :
    assign convert a s source = .ok (write convert a n source) := by
  rw [assign_eq, h]
  cases hlen : source.length? with
  | none => rfl
  | some len => exact if_pos (hfit len hlen)

end Assign

/-- An assignment succeeds exactly when its slice resolves and its source fits. -/
theorem assign_eq_ok_iff {convert : σ → α} {a b : Array α} {s : Slice} {source : Source σ} :
    assign convert a s source = .ok b ↔
      ∃ n, s.resolve a.size = .ok n ∧ source.Fits n.count ∧ b = write convert a n source := by
  cases h : s.resolve a.size with
  | error e => simp [assign_of_error convert h]
  | ok n =>
      by_cases hfit : source.Fits n.count
      · simp [assign_of_fits convert h hfit, hfit, eq_comm]
      · obtain ⟨len, hlen, hne⟩ := Source.not_fits_iff.mp hfit
        simp [assign_of_length_ne convert h hlen hne, hfit]

theorem size_of_assign {convert : σ → α} {a b : Array α} {s : Slice} {source : Source σ}
    (h : assign convert a s source = .ok b) : b.size = a.size := by
  obtain ⟨n, hn, hfit, rfl⟩ := assign_eq_ok_iff.mp h
  exact size_write (Slice.resolved_of_resolve hn) (Nat.min_le_left _ _) hfit convert

/-- The assignment at an index in two steps: find the position, write. -/
theorem assignAt_eq (convert : σ → α) (a : Array α) (index : Int64) (value : σ) :
    assignAt convert a index value =
      match indexPosition? index a.size with
      | none => .error (.indexOutOfBounds index a.size)
      | some p => .ok (a.setIfInBounds p (convert value)) := by
  unfold assignAt assignAtTraced
  cases indexPosition? index a.size <;> rfl

theorem size_of_assignAt {convert : σ → α} {a b : Array α} {index : Int64} {value : σ}
    (h : assignAt convert a index value = .ok b) : b.size = a.size := by
  rw [assignAt_eq] at h
  cases hindex : indexPosition? index a.size with
  | none => simp [hindex] at h
  | some p =>
      rw [hindex, Except.ok.injEq] at h
      rw [← h, Array.size_setIfInBounds]

end Store

end StridedSlice
