import StridedSlice.Proofs.Run
/-!
# StridedSlice.Proofs.LastWrite

**The last write wins**, over whole runs. What a run makes of its buffer is told without the
buffer in between: every operation stands for a list of writes of scalars
(`Operation.writes`), a run for these lists one after the other, and the elements at the end
are the scalars that the script starts with after all these writes, converted at once.

* `Operation.Succeeds` and `Operation.writes` depend on the length of the buffer only;
* `Script.bufferBefore_iff` and `Script.stopsAt_iff` put a run in these terms;
* `Script.LastGiven` says, position by position, which scalar was the last, and
  `Script.getElem?_writesBefore_iff` that it is the one that stays.
-/

namespace StridedSlice

theorem ElementType.convert_scalar (t : ElementType) (v : Scalar) :
    ElementType.convert .scalar t v = t.ofScalar v := by
  by_cases h : ElementType.scalar = t
  · subst h
    rw [ElementType.convert_self]
    rfl
  · exact ElementType.convert_of_ne h v

/-! ### More about lists of writes -/

namespace Store

variable {σ α : Type}

theorem writeAll_append (a : Array α) (first second : List (Nat × α)) :
    writeAll a (first ++ second) = writeAll (writeAll a first) second := by
  rw [writeAll, List.foldl_append]
  rfl

/-- Writes may be converted one by one, or what they make of the array as a whole. -/
theorem map_writeAll (f : σ → α) (a : Array σ) (writes : List (Nat × σ)) :
    (writeAll a writes).map f = writeAll (a.map f) (writes.map (Prod.map id f)) := by
  induction writes generalizing a with
  | nil => rfl
  | cons w rest ih => rw [writeAll_cons, ih, Array.map_setIfInBounds]; rfl

/-- A position ends up alike in two arrays that are alike there. -/
theorem getElem?_writeAll_congr {a b : Array α} (writes : List (Nat × α)) {p : Nat}
    (hsize : a.size = b.size) (h : a[p]? = b[p]?) :
    (writeAll a writes)[p]? = (writeAll b writes)[p]? := by
  induction writes generalizing a b with
  | nil => exact h
  | cons w rest ih =>
      rw [writeAll_cons, writeAll_cons]
      refine ih (by simpa using hsize) ?_
      by_cases hp : w.1 = p
      · rw [hp, Array.getElem?_setIfInBounds_self, Array.getElem?_setIfInBounds_self, hsize]
      · rw [Array.getElem?_setIfInBounds_ne hp, Array.getElem?_setIfInBounds_ne hp, h]

/-- Writes to different positions may change places. -/
theorem writeAll_comm {a : Array α} {first second : List (Nat × α)}
    (h : ∀ p ∈ first.map Prod.fst, p ∉ second.map Prod.fst) :
    writeAll (writeAll a first) second = writeAll (writeAll a second) first := by
  refine Array.ext_getElem? fun p => ?_
  by_cases hp : p ∈ first.map Prod.fst
  · rw [getElem?_writeAll_of_not_mem (h p hp)]
    refine (getElem?_writeAll_congr first (size_writeAll a second).symm ?_)
    exact (getElem?_writeAll_of_not_mem (h p hp)).symm
  · rw [getElem?_writeAll_of_not_mem (a := writeAll a second) hp]
    refine getElem?_writeAll_congr second (size_writeAll a first) ?_
    exact getElem?_writeAll_of_not_mem hp

/-- A plan is one for the values as they are given, converted afterwards. -/
theorem plan_eq_map (convert : σ → α) (n : Selection) (source : Source σ) :
    plan convert n source = (plan id n source).map (Prod.map id convert) := by
  rw [plan, plan, List.map_id, List.zip_map_right]

/-- A single index stands for the position itself, or for the one as far from the end. -/
theorem indexPosition?_eq_some_iff {index : Int64} {len p : Nat} :
    indexPosition? index len = some p ↔
      p < len ∧ (index.toInt = p ∨ index.toInt = (p : Int) - len) := by
  have hneg : index < 0 ↔ index.toInt < 0 := Int64.lt_iff_toInt_lt
  unfold indexPosition?
  by_cases h : index.toInt < 0
  · rw [if_pos (hneg.mpr h)]
    split_ifs with hle
    · rw [Option.some.injEq]
      omega
    · simp only [false_iff]
      omega
  · rw [if_neg fun h' => h (hneg.mp h')]
    split_ifs with hlt
    · rw [Option.some.injEq]
      omega
    · simp only [false_iff]
      omega

theorem indexPosition?_eq_none_iff {index : Int64} {len : Nat} :
    indexPosition? index len = none ↔ ¬ (-(len : Int) ≤ index.toInt ∧ index.toInt < len) := by
  constructor
  · intro hnone hrange
    have hno (p : Nat) (hp : p < len) :
        ¬ (index.toInt = p ∨ index.toInt = (p : Int) - len) := by
      intro hindex
      rw [indexPosition?_eq_some_iff.mpr ⟨hp, hindex⟩] at hnone
      cases hnone
    by_cases hneg : index.toInt < 0
    · exact hno (index.toInt + len).toNat (by omega) (.inr (by omega))
    · exact hno index.toInt.toNat (by omega) (.inl (by omega))
  · intro hrange
    cases hp : indexPosition? index len with
    | none => rfl
    | some p =>
        obtain ⟨hlt, hindex⟩ := indexPosition?_eq_some_iff.mp hp
        omega

/-- A position can be used as an index, if it is a word. -/
theorem indexPosition?_ofNat {len p : Nat} (hp : p < len) (hword : p ≤ maxLength) :
    indexPosition? (Int64.ofNat p) len = some p :=
  indexPosition?_eq_some_iff.mpr ⟨hp, Or.inl (toInt_ofNat_of_le_maxLength hword)⟩

end Store

/-! ### What an operation writes -/

namespace Operation

/-- What an operation needs to succeed on a buffer of `len` elements. -/
def Succeeds (len : Nat) : Operation → Prop
  | .assign slice value => ∃ n, slice.resolve len = .ok n ∧ value.Fits n.count
  | .assignAt index _ => ∃ p, Store.indexPosition? index len = some p
  | .load slice => ∃ n, slice.resolve len = .ok n

/-- The scalars that an operation writes when it succeeds, with their positions. -/
def writes (len : Nat) : Operation → List (Nat × Scalar)
  | .assign slice value =>
      match slice.resolve len with
      | .ok n => Store.plan id n value
      | .error _ => []
  | .assignAt index value => ((Store.indexPosition? index len).map (·, value)).toList
  | .load _ => []

/-- An operation gives `x` to position `p` of a buffer of `len` elements: to a single
position, counted from either end, or to the `i`-th position of a slice, which takes the
`i`-th value of a sequence. -/
inductive Gives (len p : Nat) : Operation → Scalar → Prop
  | assign {slice : Slice} {value : Source Scalar} {n : Selection} {i : Nat} {x : Scalar} :
      slice.resolve len = .ok n → n.position? i = some p → value.get? i = some x →
        Gives len p (.assign slice value) x
  | assignAt {index : Int64} {x : Scalar} :
      p < len → index.toInt = p ∨ index.toInt = (p : Int) - len →
        Gives len p (.assignAt index x) x

variable {len p : Nat} {o : Operation} {x : Scalar}

theorem lt_of_gives (h : o.Gives len p x) : p < len := by
  cases h with
  | assign hn hp _ =>
      have hlt := (Slice.resolved_of_resolve hn).position_lt hp
      exact Nat.lt_of_lt_of_le hlt (Nat.min_le_left _ _)
  | assignAt hlt _ => exact hlt

theorem mem_writes_of_gives (h : o.Gives len p x) : (p, x) ∈ o.writes len := by
  cases h with
  | assign hn hp hx =>
      rw [writes, hn]
      exact Store.mem_plan id hp hx
  | assignAt hlt hindex =>
      rw [writes, Store.indexPosition?_eq_some_iff.mpr ⟨hlt, hindex⟩]
      exact List.mem_singleton.mpr rfl

/-- The positions that an operation writes are those that it gives something to. -/
theorem exists_gives_of_mem (h : o.Succeeds len) (hp : p ∈ (o.writes len).map Prod.fst) :
    ∃ x, o.Gives len p x := by
  cases o with
  | assign slice value =>
      obtain ⟨n, hn, hfit⟩ := h
      rw [writes, hn] at hp
      dsimp only at hp
      rw [Store.map_fst_plan id hfit, Selection.mem_toList_cursor_iff] at hp
      obtain ⟨i, hi⟩ := hp
      have hlt : i < n.count := by
        by_contra hge
        rw [Selection.position?_eq_none_iff.mpr (Nat.le_of_not_lt hge)] at hi
        cases hi
      obtain ⟨x, hx⟩ := Source.exists_get? hfit hlt
      exact ⟨x, .assign hn hi hx⟩
  | assignAt index value =>
      obtain ⟨q, hq⟩ := h
      rw [writes, hq] at hp
      obtain rfl : p = q := List.mem_singleton.mp hp
      obtain ⟨hlt, hindex⟩ := Store.indexPosition?_eq_some_iff.mp hq
      exact ⟨value, .assignAt hlt hindex⟩
  | load slice => exact absurd hp List.not_mem_nil

theorem nodup_writes (h : o.Succeeds len) : ((o.writes len).map Prod.fst).Nodup := by
  cases o with
  | assign slice value =>
      obtain ⟨n, hn, hfit⟩ := h
      rw [writes, hn]
      dsimp only
      rw [Store.map_fst_plan id hfit]
      exact (Slice.resolved_of_resolve hn).nodup_cursor
  | assignAt index value =>
      obtain ⟨q, hq⟩ := h
      rw [writes, hq]
      exact List.nodup_singleton q
  | load slice => exact List.nodup_nil

end Operation

/-! ### Operations on a buffer of converted scalars -/

namespace Buffer

theorem size_ofScalars (dtype : DType) (values : Array Scalar) :
    (ofScalars dtype values).size = values.size := Array.size_map

/-- Converted scalars after converted writes are the scalars after the writes, converted. -/
theorem writeAll_ofScalars (dtype : DType) (values : Array Scalar)
    (writes : List (Nat × Scalar)) :
    (⟨dtype, Store.writeAll (values.map dtype.elementType.ofScalar)
      (writes.map (Prod.map id (ElementType.convert .scalar dtype.elementType)))⟩ : Buffer) =
      ofScalars dtype (Store.writeAll values writes) := by
  have hconvert : ElementType.convert .scalar dtype.elementType = dtype.elementType.ofScalar :=
    funext (ElementType.convert_scalar _)
  rw [hconvert, ← Store.map_writeAll]
  rfl

/-- Whether an operation succeeds depends on nothing but the length of the buffer. -/
theorem exists_apply_ok_iff {b : Buffer} {o : Operation} :
    (∃ result, b.apply o = .ok result) ↔ o.Succeeds b.size := by
  cases o with
  | assign slice value =>
      rw [apply_assign]
      constructor
      · rintro ⟨result, h⟩
        obtain ⟨data, hdata, -⟩ := exists_of_map_eq_ok h
        obtain ⟨n, hn, hfit, -⟩ := Store.assign_eq_ok_iff.mp hdata
        exact ⟨n, hn, hfit⟩
      · rintro ⟨n, hn, hfit⟩
        rw [Store.assign_of_fits _ hn hfit]
        exact ⟨_, rfl⟩
  | assignAt index value =>
      rw [apply_assignAt, Store.assignAt_eq]
      show _ ↔ ∃ p, Store.indexPosition? index b.data.size = some p
      cases Store.indexPosition? index b.data.size with
      | none => simp [Except.map]
      | some p => simp [Except.map]
  | load slice =>
      rw [apply_load]
      show _ ↔ ∃ n, slice.resolve b.size = .ok n
      cases slice.resolve b.size with
      | error e => simp [Except.map]
      | ok n => simp [Except.map]

/-- An operation that succeeds carries out its writes, as if on the scalars. -/
theorem apply_ofScalars {dtype : DType} {values : Array Scalar} {o : Operation}
    {after : Buffer} {read : Option (Array Scalar)}
    (h : (ofScalars dtype values).apply o = .ok (after, read)) :
    after = ofScalars dtype (Store.writeAll values (o.writes values.size)) := by
  have hsize : (values.map dtype.elementType.ofScalar).size = values.size := Array.size_map
  cases o with
  | assign slice value =>
      rw [ofScalars, apply_assign] at h
      obtain ⟨data, hdata, hafter⟩ := exists_of_map_eq_ok h
      obtain ⟨n, hn, hfit, rfl⟩ := Store.assign_eq_ok_iff.mp hdata
      dsimp only at hn hafter
      rw [Store.write_eq_writeAll (Slice.resolved_of_resolve hn) (Nat.min_le_left _ _) hfit,
        Store.plan_eq_map, writeAll_ofScalars] at hafter
      rw [hsize] at hn
      rw [Operation.writes, hn]
      exact (congrArg Prod.fst hafter).symm
  | assignAt index value =>
      rw [ofScalars, apply_assignAt, Store.assignAt_eq] at h
      obtain ⟨data, hdata, hafter⟩ := exists_of_map_eq_ok h
      dsimp only at hdata hafter
      rw [hsize] at hdata
      rw [Operation.writes]
      cases hindex : Store.indexPosition? index values.size with
      | none => rw [hindex] at hdata; cases hdata
      | some p =>
          rw [hindex] at hdata
          cases hdata
          cases hafter
          exact writeAll_ofScalars dtype values [(p, value)]
  | load slice => exact (apply_load_ok h).1

end Buffer

/-! ### Runs as lists of writes -/

namespace Script

/-- The writes of the operations before position `k`, in order. -/
def writesBefore (s : Script) (k : Nat) : List (Nat × Scalar) :=
  (s.operations.take k).flatMap (Operation.writes s.data.size)

/-- The scalars after these writes. -/
def valuesBefore (s : Script) (k : Nat) : Array Scalar := Store.writeAll s.data (s.writesBefore k)

variable {s : Script}

@[simp] theorem size_valuesBefore (s : Script) (k : Nat) :
    (s.valuesBefore k).size = s.data.size := Store.size_writeAll _ _

theorem valuesBefore_succ {k : Nat} {o : Operation} (ho : s.operations[k]? = some o) :
    s.valuesBefore (k + 1) = Store.writeAll (s.valuesBefore k) (o.writes s.data.size) := by
  rw [valuesBefore, writesBefore, List.take_add_one, ho, List.flatMap_append,
    Store.writeAll_append]
  simp [valuesBefore, writesBefore]

/-- **Runs as lists of writes.** A position is reached exactly when all operations before it
succeed, and the buffer is then that of the scalars after their writes. -/
theorem bufferBefore_iff {k : Nat} {b : Buffer} :
    s.bufferBefore k = some b ↔
      k ≤ s.operations.length ∧ (∀ o ∈ s.operations.take k, o.Succeeds s.data.size) ∧
        b = .ofScalars s.dtype (s.valuesBefore k) := by
  induction k generalizing b with
  | zero => simp [bufferBefore, valuesBefore, writesBefore, eq_comm]
  | succ k ih =>
      have hsize : (Buffer.ofScalars s.dtype (s.valuesBefore k)).size = s.data.size := by
        rw [Buffer.size_ofScalars, size_valuesBefore]
      constructor
      · intro h
        obtain ⟨b', o, read, hb', ho, happly⟩ := exists_of_bufferBefore_succ h
        obtain ⟨hle, hsucceeds, rfl⟩ := ih.mp hb'
        have hlast : o.Succeeds s.data.size := by
          rw [← hsize]
          exact Buffer.exists_apply_ok_iff.mp ⟨_, happly⟩
        refine ⟨(List.getElem?_eq_some_iff.mp ho).1, ?_, ?_⟩
        · intro o' ho'
          rw [List.take_add_one, ho, List.mem_append] at ho'
          rcases ho' with hbefore | hthis
          · exact hsucceeds o' hbefore
          · rw [Option.toList_some, List.mem_singleton] at hthis
            exact hthis ▸ hlast
        · rw [Buffer.apply_ofScalars happly, size_valuesBefore, ← valuesBefore_succ ho]
      · rintro ⟨hlt, hsucceeds, rfl⟩
        have ho : s.operations[k]? = some s.operations[k] := List.getElem?_eq_getElem hlt
        rw [List.take_add_one, ho, Option.toList_some] at hsucceeds
        have hb' : s.bufferBefore k = some (.ofScalars s.dtype (s.valuesBefore k)) :=
          ih.mpr ⟨Nat.le_of_succ_le hlt,
            fun o hmem => hsucceeds o (List.mem_append_left _ hmem), rfl⟩
        have hlast : s.operations[k].Succeeds s.data.size :=
          hsucceeds _ (List.mem_append_right _ (List.mem_singleton.mpr rfl))
        rw [← hsize] at hlast
        obtain ⟨⟨after, read⟩, happly⟩ := Buffer.exists_apply_ok_iff.mpr hlast
        rw [bufferBefore_succ hb' ho happly, Buffer.apply_ofScalars happly, size_valuesBefore,
          ← valuesBefore_succ ho]

/-- Where a script stops, in the same terms. -/
theorem stopsAt_iff {k : Nat} {b : Buffer} :
    s.StopsAt k b ↔
      k ≤ s.operations.length ∧ (∀ o ∈ s.operations.take k, o.Succeeds s.data.size) ∧
        b = .ofScalars s.dtype (s.valuesBefore k) ∧
        ∀ o, s.operations[k]? = some o → ¬ o.Succeeds s.data.size := by
  have hfails : ∀ {b : Buffer}, s.bufferBefore k = some b → ∀ o,
      (∃ e, b.apply o = .error e) ↔ ¬ o.Succeeds s.data.size := by
    intro b hb o
    rw [← (shape_of_bufferBefore hb).2, ← Buffer.exists_apply_ok_iff]
    cases b.apply o <;> simp
  constructor
  · rintro ⟨hbefore, h⟩
    obtain ⟨hle, hsucceeds, hb⟩ := bufferBefore_iff.mp hbefore
    exact ⟨hle, hsucceeds, hb, fun o ho => (hfails hbefore o).mp (h o ho)⟩
  · rintro ⟨hle, hsucceeds, hb, h⟩
    have hbefore := bufferBefore_iff.mpr ⟨hle, hsucceeds, hb⟩
    exact ⟨hbefore, fun o ho => (hfails hbefore o).mpr (h o ho)⟩

/-- The outcome has the buffer of the place where the script stops. -/
theorem run_buffer {k : Nat} {b : Buffer} (h : s.StopsAt k b) : s.run.buffer = b :=
  (h.unique (Run.Sound.execute s).stopsAt).2.symm

theorem run_buffer_of_stopsAt {k : Nat} {b : Buffer} (h : s.StopsAt k b) :
    s.run.buffer = .ofScalars s.dtype (s.valuesBefore k) :=
  (run_buffer h).trans (stopsAt_iff.mp h).2.2.1

/-! ### The last write -/

/-- The scalar that position `p` has from the operations before position `k`: what the last of
them gave to it that gave anything, or what it started with. -/
inductive LastGiven (s : Script) (k p : Nat) : Scalar → Prop
  | given {j : Nat} {o : Operation} {x : Scalar} :
      j < k → s.operations[j]? = some o → o.Gives s.data.size p x →
      (∀ i o' y, j < i → i < k → s.operations[i]? = some o' → ¬ o'.Gives s.data.size p y) →
        LastGiven s k p x
  | kept {x : Scalar} :
      s.data[p]? = some x →
      (∀ i o' y, i < k → s.operations[i]? = some o' → ¬ o'.Gives s.data.size p y) →
        LastGiven s k p x

/-- One operation more: it gave the last scalar itself, or left it as it was. -/
theorem lastGiven_succ_iff {k p : Nat} {x : Scalar} {o : Operation}
    (ho : s.operations[k]? = some o) :
    s.LastGiven (k + 1) p x ↔
      o.Gives s.data.size p x ∨ (∀ y, ¬ o.Gives s.data.size p y) ∧ s.LastGiven k p x := by
  constructor
  · intro h
    cases h with
    | given hj hop hgives hlater =>
        rename_i j op
        rcases Nat.lt_succ_iff_lt_or_eq.mp hj with hlt | rfl
        · exact Or.inr ⟨fun y => hlater k o y hlt (Nat.lt_succ_self k) ho,
            .given hlt hop hgives fun i o' y hji hik => hlater i o' y hji (Nat.lt_succ_of_lt hik)⟩
        · rw [hop, Option.some.injEq] at ho
          exact Or.inl (ho ▸ hgives)
    | kept hx hnone =>
        exact Or.inr ⟨fun y => hnone k o y (Nat.lt_succ_self k) ho,
          .kept hx fun i o' y hik => hnone i o' y (Nat.lt_succ_of_lt hik)⟩
  · -- The new operation is the only one that the conditions on later ones do not cover yet.
    rintro (hgives | ⟨hnone, hlast⟩)
    · exact .given (Nat.lt_succ_self k) ho hgives fun i o' y hki hik => by omega
    · have hcover : ∀ i o' y, i < k + 1 → ¬ i < k → s.operations[i]? = some o' →
          ¬ o'.Gives s.data.size p y := by
        intro i o' y hik hnot ho'
        obtain rfl : i = k := by omega
        rw [ho, Option.some.injEq] at ho'
        exact ho' ▸ hnone y
      cases hlast with
      | given hj hop hgives hlater =>
          refine .given (Nat.lt_succ_of_lt hj) hop hgives fun i o' y hji hik => ?_
          by_cases hlt : i < k
          · exact hlater i o' y hji hlt
          · exact hcover i o' y hik hlt
      | kept hx hbefore =>
          refine .kept hx fun i o' y hik => ?_
          by_cases hlt : i < k
          · exact hbefore i o' y hlt
          · exact hcover i o' y hik hlt

/-- **The last write stays.** -/
theorem getElem?_valuesBefore_iff {k p : Nat} {x : Scalar} (hle : k ≤ s.operations.length)
    (hsucceeds : ∀ o ∈ s.operations.take k, o.Succeeds s.data.size) :
    (s.valuesBefore k)[p]? = some x ↔ s.LastGiven k p x := by
  induction k generalizing x with
  | zero =>
      have hzero : s.valuesBefore 0 = s.data := by simp [valuesBefore, writesBefore]
      rw [hzero]
      constructor
      · exact fun hx => .kept hx fun i o' y hi => absurd hi (Nat.not_lt_zero i)
      · intro h
        cases h with
        | given hj _ _ _ => exact absurd hj (Nat.not_lt_zero _)
        | kept hx _ => exact hx
  | succ k ih =>
      have ho : s.operations[k]? = some s.operations[k] := List.getElem?_eq_getElem hle
      rw [List.take_add_one, ho, Option.toList_some] at hsucceeds
      have hlast : s.operations[k].Succeeds s.data.size :=
        hsucceeds _ (List.mem_append_right _ (List.mem_singleton.mpr rfl))
      have ih' := fun x => ih (x := x) (Nat.le_of_succ_le hle)
        fun o hmem => hsucceeds o (List.mem_append_left _ hmem)
      rw [valuesBefore_succ ho, lastGiven_succ_iff ho]
      by_cases hp : p ∈ (s.operations[k].writes s.data.size).map Prod.fst
      · obtain ⟨y, hy⟩ := Operation.exists_gives_of_mem hlast hp
        have hvalue := fun {z} (hz : s.operations[k].Gives s.data.size p z) =>
          Store.getElem?_writeAll_of_mem (Operation.nodup_writes hlast)
            (Operation.mem_writes_of_gives hz)
            (a := s.valuesBefore k) (by rw [size_valuesBefore]; exact Operation.lt_of_gives hz)
        constructor
        · intro hx
          rw [hvalue hy, Option.some.injEq] at hx
          exact Or.inl (hx ▸ hy)
        · rintro (hx | ⟨hnone, -⟩)
          · exact hvalue hx
          · exact absurd hy (hnone y)
      · have hnone : ∀ y, ¬ s.operations[k].Gives s.data.size p y := fun y hy =>
          hp (List.mem_map_of_mem (Operation.mem_writes_of_gives hy))
        rw [Store.getElem?_writeAll_of_not_mem hp, ih']
        constructor
        · exact fun h => Or.inr ⟨hnone, h⟩
        · rintro (h | ⟨-, h⟩)
          · exact absurd h (hnone x)
          · exact h

/-! ### What has no influence -/

/-- Loads write nothing. -/
theorem flatMap_writes_filter (len : Nat) (operations : List Operation) :
    (operations.filter fun o => !o.isLoad).flatMap (Operation.writes len) =
      operations.flatMap (Operation.writes len) := by
  induction operations with
  | nil => rfl
  | cons o rest ih =>
      rw [List.flatMap_cons, ← ih]
      cases o with
      | assign slice value => rfl
      | assignAt index value => rfl
      | load slice => rfl

/-- Without its loads, and without the operation that failed and those after it, a script
makes the same buffer. -/
theorem run_buffer_stores {k : Nat} {b : Buffer} (h : s.StopsAt k b) :
    { s with operations := (s.operations.take k).filter fun o => !o.isLoad }.run.buffer =
      s.run.buffer := by
  obtain ⟨-, hsucceeds, -, -⟩ := stopsAt_iff.mp h
  let stores : Script :=
    { s with operations := (s.operations.take k).filter fun o => !o.isLoad }
  have hstops : stores.StopsAt stores.operations.length
      (.ofScalars s.dtype (stores.valuesBefore stores.operations.length)) := by
    refine stopsAt_iff.mpr ⟨le_rfl, ?_, rfl, ?_⟩
    · intro o ho
      rw [List.take_length] at ho
      exact hsucceeds o (List.mem_of_mem_filter ho)
    · intro o ho
      rw [List.getElem?_eq_none le_rfl] at ho
      cases ho
  have hvalues : stores.valuesBefore stores.operations.length = s.valuesBefore k := by
    rw [valuesBefore, writesBefore, List.take_length, valuesBefore, writesBefore,
      flatMap_writes_filter]
  rw [run_buffer_of_stopsAt h, run_buffer_of_stopsAt hstops, hvalues]

/-- Two neighbours that succeed and share no position may change places. -/
theorem run_buffer_swap {k : Nat} {b : Buffer} (h : s.StopsAt k b)
    {front back : List Operation} {first second : Operation}
    (hoperations : s.operations = front ++ first :: second :: back) (hk : front.length + 2 ≤ k)
    (hdisjoint : ∀ p x y, first.Gives s.data.size p x → ¬ second.Gives s.data.size p y) :
    { s with operations := front ++ second :: first :: back }.run.buffer = s.run.buffer := by
  obtain ⟨hle, hsucceeds, -, hfails⟩ := stopsAt_iff.mp h
  obtain ⟨m, rfl⟩ : ∃ m, k = front.length + (m + 2) := ⟨k - front.length - 2, by omega⟩
  -- Up to the place where the script stops, both have the same operations but for the swap.
  have htake : ∀ a c : Operation, (front ++ a :: c :: back).take (front.length + (m + 2)) =
      front ++ a :: c :: back.take m := by
    intro a c
    rw [List.take_length_add_append]
    rfl
  have hget : ∀ a c : Operation, (front ++ a :: c :: back)[front.length + (m + 2)]? =
      back[m]? := by
    intro a c
    rw [List.getElem?_append_right (Nat.le_add_right _ _), Nat.add_sub_cancel_left]
    rfl
  rw [hoperations, htake] at hsucceeds
  rw [hoperations, hget] at hfails
  have hfirst : first.Succeeds s.data.size := hsucceeds _ (by simp)
  have hsecond : second.Succeeds s.data.size := hsucceeds _ (by simp)
  let swapped : Script := { s with operations := front ++ second :: first :: back }
  have hstops : swapped.StopsAt (front.length + (m + 2))
      (.ofScalars s.dtype (swapped.valuesBefore (front.length + (m + 2)))) := by
    refine stopsAt_iff.mpr ⟨?_, ?_, rfl, ?_⟩
    · rw [hoperations] at hle
      simpa [swapped] using hle
    · intro o ho
      rw [htake] at ho
      refine hsucceeds o ?_
      simp only [List.mem_append, List.mem_cons] at ho ⊢
      tauto
    · intro o ho
      rw [hget] at ho
      exact hfails o ho
  have hapart : ∀ p ∈ (second.writes s.data.size).map Prod.fst,
      p ∉ (first.writes s.data.size).map Prod.fst := by
    intro p hp hp'
    obtain ⟨y, hy⟩ := Operation.exists_gives_of_mem hsecond hp
    obtain ⟨x, hx⟩ := Operation.exists_gives_of_mem hfirst hp'
    exact hdisjoint p x y hx hy
  have hvalues : swapped.valuesBefore (front.length + (m + 2)) =
      s.valuesBefore (front.length + (m + 2)) := by
    rw [valuesBefore, writesBefore, htake, valuesBefore, writesBefore, hoperations, htake]
    simp only [List.flatMap_append, List.flatMap_cons, Store.writeAll_append]
    rw [Store.writeAll_comm hapart]
  rw [run_buffer_of_stopsAt h, run_buffer_of_stopsAt hstops, hvalues]

/-- **The last write wins.** A script stops at one position `k`. Every element of the buffer
at the end is the conversion of the one scalar that was given to its position last, by an
operation before `k` or by the script itself. So loads, the operation that fails and the ones
after it do not matter, nor does the order of two neighbours that share no position. -/
theorem last_write_wins (s : Script) :
    (∃ k b, s.StopsAt k b) ∧
      ∀ k b, s.StopsAt k b →
        (∃ data : Array s.dtype.elementType.Value,
          s.run.buffer = ⟨s.dtype, data⟩ ∧ data.size = s.data.size ∧
            ∀ p < s.data.size, ∃ x, (∀ y, s.LastGiven k p y ↔ y = x) ∧
              data[p]? = some (s.dtype.elementType.ofScalar x)) ∧
        { s with operations := (s.operations.take k).filter fun o => !o.isLoad }.run.buffer =
          s.run.buffer ∧
        ∀ front first second back, s.operations = front ++ first :: second :: back →
          front.length + 2 ≤ k →
          (∀ p x y, first.Gives s.data.size p x → ¬ second.Gives s.data.size p y) →
            { s with operations := front ++ second :: first :: back }.run.buffer =
              s.run.buffer := by
  refine ⟨⟨_, _, (Run.Sound.execute s).stopsAt⟩, fun k b h => ⟨?_, run_buffer_stores h, ?_⟩⟩
  · obtain ⟨hle, hsucceeds, -, -⟩ := stopsAt_iff.mp h
    refine ⟨(s.valuesBefore k).map s.dtype.elementType.ofScalar, run_buffer_of_stopsAt h,
      by rw [Array.size_map, size_valuesBefore], fun p hp => ?_⟩
    rw [← size_valuesBefore s k] at hp
    have hx : (s.valuesBefore k)[p]? = some (s.valuesBefore k)[p] := Array.getElem?_eq_getElem hp
    refine ⟨(s.valuesBefore k)[p], fun y => ?_, ?_⟩
    · rw [← getElem?_valuesBefore_iff hle hsucceeds, hx, Option.some.injEq, eq_comm]
    · rw [Array.getElem?_map, hx, Option.map_some]
  · intro front first second back hoperations hk hdisjoint
    exact run_buffer_swap h hoperations hk hdisjoint

end Script

end StridedSlice
