import StridedSlice.Proofs.Contiguous
import StridedSlice.Proofs.Lens
import Mathlib.Data.List.Perm.Lattice
/-!
# StridedSlice.Proofs.Partition

**Slices that partition a sequence.** Two families of slices share out all positions of a
sequence, each position to one of them: the two sides of a bound, `:k` and `k:`, and the
residue classes of a stride, `0::m`, `1::m` up to `m-1::m`. Storing through all slices of such
a family writes every position once.

Stores are put together as lists of writes. `InPlace.Writes` says that a computation carries
out a given list on every array of a length; lists are appended when computations are run one
after the other, and `Store.getElem?_writeAll_of_perm` reads the array off a list that has each
position once.
-/

namespace StridedSlice

/-! ### Computations as lists of writes -/

namespace Store

variable {α : Type}

/-- Where writes have each position of an array once, in whatever order, each of them stays. -/
theorem getElem?_writeAll_of_perm {a : Array α} {writes : List (Nat × α)}
    (h : (writes.map Prod.fst).Perm (List.range a.size)) {p : Nat} {v : α}
    (hmem : (p, v) ∈ writes) : (writeAll a writes)[p]? = some v := by
  have hnodup : (writes.map Prod.fst).Nodup := h.nodup_iff.mpr List.nodup_range
  have hp : p ∈ List.range a.size := h.mem_iff.mp (List.mem_map_of_mem hmem)
  exact getElem?_writeAll_of_mem hnodup hmem (List.mem_range.mp hp)

/-- Values written to all positions in order make up the array. -/
theorem writeAll_range_zip {a values : Array α} (h : values.size = a.size) :
    writeAll a ((List.range' 0 values.size).zip values.toList) = values := by
  rw [← replaceBlock_eq_writeAll (by omega), replaceBlock]
  simp [h]

end Store

namespace InPlace

variable {σ α ι : Type} {len : Nat}

/-- A computation that carries out the same writes on every array of `len` elements. -/
def Writes (len : Nat) (x : InPlace α Unit) (writes : List (Nat × α)) : Prop :=
  ∀ a : Array α, a.size = len → x.run a = .ok () (Store.writeAll a writes)

namespace Writes

/-- Computations one after the other carry out the writes of both. -/
theorem andThen {x y : InPlace α Unit} {first second : List (Nat × α)} (hx : Writes len x first)
    (hy : Writes len y second) : Writes len (do x; y) (first ++ second) := by
  intro a ha
  rw [run_bind_ok (hx a ha), hy _ ((Store.size_writeAll a first).trans ha),
    Store.writeAll_append]

/-- A loop carries out the writes of all its rounds. -/
theorem forM {x : ι → InPlace α Unit} {writes : ι → List (Nat × α)} {order : List ι}
    (h : ∀ i ∈ order, Writes len (x i) (writes i)) :
    Writes len (order.forM x) (order.flatMap writes) := by
  induction order with
  | nil => exact fun a _ => rfl
  | cons i rest ih =>
      exact andThen (h i List.mem_cons_self) (ih fun j hj => h j (List.mem_cons_of_mem i hj))

end Writes

theorem writes_assign {s : Slice} {n : Selection} {source : Source σ}
    (h : s.resolve len = .ok n) (hfit : source.Fits n.count) (convert : σ → α) :
    Writes len (assign convert s source) (Store.plan convert n source) := by
  rintro a rfl
  rw [run_assign_of_fits h hfit,
    Store.write_eq_writeAll (Slice.resolved_of_resolve h) (Nat.min_le_left _ _) hfit]

theorem writes_assignAt {index : Int64} {p : Nat} (h : Store.indexPosition? index len = some p)
    (convert : σ → α) (v : σ) : Writes len (assignAt convert index v) [(p, convert v)] := by
  rintro a rfl
  rw [run_assignAt, Store.assignAt_eq, h]
  rfl

end InPlace

/-! ### The two sides of a bound -/

namespace Slice

variable {len : Nat} (hlen : len ≤ maxLength)
include hlen

/-- What comes before a bound and what comes after it meet at one place. -/
theorem exists_resolve_sides (k : Int64) :
    ∃ front back split, Slice.resolve ⟨none, some k, none⟩ len = .ok front ∧
      Slice.resolve ⟨some k, none, none⟩ len = .ok back ∧ split ≤ len ∧
      front.cursor.toList = List.range' 0 split ∧
      back.cursor.toList = List.range' split (len - split) := by
  obtain ⟨front, hfront, -, hfirst⟩ := exists_resolve_unstepped hlen none (some k)
  obtain ⟨back, hback, -, hsecond⟩ := exists_resolve_unstepped hlen (some k) none
  obtain ⟨⟨hlow, hhigh⟩, -⟩ :=
    Reference.bounds_up one_pos (Int.natCast_nonneg len) (some k.toInt) none
  refine ⟨front, back, _, hfront, hback, Int.toNat_le.mpr hhigh, ?_, ?_⟩
  · rw [hfirst, Option.map_some, Reference.bound_unstepped]
    show List.range' 0 (Reference.first 1 len (some k.toInt) - 0).toNat = _
    rw [sub_zero]
  · rw [hsecond]
    show List.range' _ ((len : Int) - Reference.first 1 len (some k.toInt)).toNat = _
    congr 1
    omega

/-- The positions before a place in the sequence. -/
theorem exists_resolve_before {c : Nat} (hc : c ≤ len) :
    ∃ n, Slice.resolve ⟨some 0, some (Int64.ofNat c), none⟩ len = .ok n ∧
      n.cursor.toList = List.range' 0 c := by
  obtain ⟨n, hn, -, hpositions⟩ := exists_resolve_unstepped hlen (some 0) (some (Int64.ofNat c))
  have hword := toInt_ofNat_of_le_maxLength (hc.trans hlen)
  refine ⟨n, hn, hpositions.trans ?_⟩
  rw [Option.map_some, Option.map_some, hword, Int64.toInt_zero, Reference.bound_unstepped,
    Reference.first_of_mem one_pos (by omega), Reference.first_of_mem one_pos (by omega),
    sub_zero]
  rfl

/-- The positions from a place in the sequence on. -/
theorem exists_resolve_from {c : Nat} (hc : c ≤ len) :
    ∃ n, Slice.resolve ⟨some (Int64.ofNat c), none, none⟩ len = .ok n ∧
      n.cursor.toList = List.range' c (len - c) := by
  obtain ⟨n, hn, -, hpositions⟩ := exists_resolve_unstepped hlen (some (Int64.ofNat c)) none
  have hword := toInt_ofNat_of_le_maxLength (hc.trans hlen)
  have hbound : Reference.bound 1 len none = len := rfl
  refine ⟨n, hn, hpositions.trans ?_⟩
  rw [Option.map_some, Option.map_none, hword, hbound,
    Reference.first_of_mem one_pos (by omega), Int.toNat_natCast, Int.toNat_sub]

end Slice

/-- A sequence of positions falls into those before a place, the place itself, and those
behind it. -/
theorem range'_around {len c : Nat} (hc : c < len) :
    List.range' 0 c ++ c :: List.range' (c + 1) (len - (c + 1)) = List.range len := by
  have hrest : c :: List.range' (c + 1) (len - (c + 1)) = List.range' (0 + c) (len - c) := by
    rw [← List.range'_succ, Nat.zero_add]
    congr 1
    omega
  rw [hrest, List.range'_append_1, Nat.add_sub_cancel' hc.le, List.range_eq_range']

namespace InPlace

variable {σ τ υ α : Type} {len c : Nat}

/-- Three stores, before a place, at it and behind it, make up the array. -/
theorem run_assign_around {front back : Selection}
    (hfront : Slice.resolve ⟨some 0, some (Int64.ofNat c), none⟩ len = .ok front)
    (hback : Slice.resolve ⟨some (Int64.ofNat (c + 1)), none, none⟩ len = .ok back)
    (hpositions : front.cursor.toList ++ c :: back.cursor.toList = List.range len)
    (hindex : Store.indexPosition? (Int64.ofNat c) len = some c)
    {low : Array σ} (hlow : low.size = front.count) {high : Array υ}
    (hhigh : high.size = back.count) (value : τ) (f : σ → α) (g : τ → α) (h : υ → α)
    {a : Array α} (ha : a.size = len) :
    (do
        assign f ⟨some 0, some (Int64.ofNat c), none⟩ (.sequence low)
        assignAt g (Int64.ofNat c) value
        assign h ⟨some (Int64.ofNat (c + 1)), none, none⟩ (.sequence high)).run a =
      .ok () (low.map f ++ #[g value] ++ high.map h) := by
  have hsize : (low.map f ++ #[g value] ++ high.map h).size = a.size := by
    have hlength := congrArg List.length hpositions
    simp only [List.length_append, List.length_cons, Selection.length_toList_cursor,
      List.length_range] at hlength
    simp only [Array.size_append, Array.size_map, List.size_toArray, List.length_singleton]
    omega
  have hwrites := (writes_assign hfront (Source.fits_sequence hlow) f).andThen
    ((writes_assignAt hindex g value).andThen
      (writes_assign hback (Source.fits_sequence hhigh) h))
  -- The three plans in a row have all positions in order, each with an element of the result.
  have hplan : Store.plan f front (.sequence low) ++
      ([(c, g value)] ++ Store.plan h back (.sequence high)) =
        (List.range' 0 (low.map f ++ #[g value] ++ high.map h).size).zip
          (low.map f ++ #[g value] ++ high.map h).toList := by
    rw [hsize, ha, ← List.range_eq_range', ← hpositions, Array.toList_append,
      Array.toList_append, List.append_assoc, List.zip_append, Store.plan_sequence,
      Store.plan_sequence]
    · rfl
    · rw [Selection.length_toList_cursor, Array.length_toList, Array.size_map, hlow]
  rw [hwrites a ha, hplan, Store.writeAll_range_zip hsize]

end InPlace

/-- **The two sides of a bound** share out a sequence. Of the positions of a sequence whose
length selections distinguish, `:k` selects the first ones and `k:` all that follow, whatever
the bound is. So a place in the middle splits every store to the whole array in three: the
sequences for the positions before it and behind it and the value for the place itself can all
be stored, every position is selected for one of them, and the array is made up of what they
are converted to. -/
theorem sides_partition {len : Nat} (hlen : len ≤ maxLength) :
    (∀ k : Int64, ∃ front back, Slice.resolve ⟨none, some k, none⟩ len = .ok front ∧
        Slice.resolve ⟨some k, none, none⟩ len = .ok back ∧
        front.positions.toList ++ back.positions.toList = List.range len) ∧
      ∀ (target before place behind : ElementType) (a : Array target.Value) (c : Nat)
        (low : Array before.Value) (value : place.Value) (high : Array behind.Value),
        a.size = len → c < len → low.size = c → high.size = len - c - 1 →
          (∃ front back, Slice.resolve ⟨some 0, some (Int64.ofNat c), none⟩ len = .ok front ∧
            Slice.resolve ⟨some (Int64.ofNat (c + 1)), none, none⟩ len = .ok back ∧
            front.positions.toList ++ c :: back.positions.toList = List.range len) ∧
          (do
              InPlace.assign (before.convert target) ⟨some 0, some (Int64.ofNat c), none⟩
                (.sequence low)
              InPlace.assignAt (place.convert target) (Int64.ofNat c) value
              InPlace.assign (behind.convert target) ⟨some (Int64.ofNat (c + 1)), none, none⟩
                (.sequence high)).run a =
            .ok () (low.map (before.convert target) ++ #[place.convert target value] ++
              high.map (behind.convert target)) := by
  refine ⟨fun k => ?_, fun target before place behind a c low value high ha hc hlow hhigh => ?_⟩
  · obtain ⟨front, back, split, hfront, hback, hsplit, hfirst, hsecond⟩ :=
      Slice.exists_resolve_sides hlen k
    refine ⟨front, back, hfront, hback, ?_⟩
    rw [front.toList_positions, back.toList_positions, hfirst, hsecond, List.range_eq_range']
    have happend := List.range'_append_1 (s := 0) (m := split) (n := len - split)
    rwa [Nat.zero_add, Nat.add_sub_cancel' hsplit] at happend
  · obtain ⟨front, hfront, hfirst⟩ := Slice.exists_resolve_before hlen hc.le
    obtain ⟨back, hback, hsecond⟩ := Slice.exists_resolve_from hlen (c := c + 1) hc
    have hindex : Store.indexPosition? (Int64.ofNat c) len = some c :=
      Store.indexPosition?_ofNat hc (hc.le.trans hlen)
    have hpositions : front.cursor.toList ++ c :: back.cursor.toList = List.range len := by
      rw [hfirst, hsecond, range'_around hc]
    have hcount : front.count = c := by
      rw [← front.length_toList_cursor, hfirst, List.length_range']
    have hcount' : back.count = len - c - 1 := by
      rw [← back.length_toList_cursor, hsecond, List.length_range', Nat.sub_add_eq]
    refine ⟨⟨front, back, hfront, hback, ?_⟩, ?_⟩
    · rw [front.toList_positions, back.toList_positions, hpositions]
    · exact InPlace.run_assign_around hfront hback hpositions hindex (hlow.trans hcount.symm)
        (hhigh.trans hcount'.symm) value _ _ _ ha

/-- A word goes to an array of bytes, between two sequences of other types. -/
theorem sides_partition_middle :
    (do
        InPlace.assign (ElementType.bool.convert (.int .uint8)) ⟨some 0, some 1, none⟩
          (.sequence #[true])
        InPlace.assignAt ((ElementType.int .int16).convert (.int .uint8)) 1 300#16
        InPlace.assign (ElementType.float64.convert (.int .uint8)) ⟨some 2, none, none⟩
          (.sequence #[⟨0x4000000000000000⟩, ⟨0x4008000000000000⟩])).run
            #[10#8, 20#8, 30#8, 40#8] = .ok () #[1#8, 44#8, 2#8, 3#8] := by
  have hstored := ((sides_partition (show 4 ≤ maxLength by decide)).2 (.int .uint8) .bool
    (.int .int16) .float64 #[10#8, 20#8, 30#8, 40#8] 1 #[true] 300#16
    #[⟨0x4000000000000000⟩, ⟨0x4008000000000000⟩] rfl (by decide) rfl rfl).2
  have hvalues : #[true].map (ElementType.bool.convert (.int .uint8)) ++
      #[(ElementType.int .int16).convert (.int .uint8) 300#16] ++
        #[⟨0x4000000000000000⟩, ⟨0x4008000000000000⟩].map
          (ElementType.float64.convert (.int .uint8)) = #[1#8, 44#8, 2#8, 3#8] := by
    decide +kernel
  rw [hvalues] at hstored
  exact hstored

/-! ### The residue classes of a stride -/

namespace Slice

/-- Every position at a distance of `stride` from the one before, beginning with `first`. -/
def residue (stride first : Nat) : Slice :=
  ⟨some (Int64.ofNat first), none, some (Int64.ofNat stride)⟩

variable {len m r : Nat} (hlen : len ≤ maxLength) (hm : 0 < m) (hm' : m ≤ maxLength)
  (hr : r < m)
include hlen hm hm' hr

/-- The bounds of the slice `r::m`. Only a class without positions begins behind the end, and
its first bound is then brought back to it. -/
theorem exists_resolve_residue_bounds :
    ∃ n, (residue m r).resolve len = .ok n ∧ n.Resolved len ∧ n.step.toInt = m ∧
      n.start.toInt = min (r : Int) len ∧ n.stop.toInt = len := by
  have hstride : (Int64.ofNat m).toInt = m := toInt_ofNat_of_le_maxLength hm'
  have hfirst : (Int64.ofNat r).toInt = r := toInt_ofNat_of_le_maxLength (hr.le.trans hm')
  have hwritten : (residue m r).writtenStep = m := hstride
  have hpos : (0 : Int) < m := by omega
  have hne : (residue m r).step ≠ some 0 := by
    rw [ne_eq, ← writtenStep_eq_zero_iff, hwritten]
    omega
  obtain ⟨n, hn, hresolved, hstep, hstart, hstop⟩ := exists_resolve len hne
  have heff : effectiveLength len = len := Nat.min_eq_left hlen
  rw [heff] at hresolved hstart hstop
  rw [hwritten] at hstep hstart hstop
  refine ⟨n, hn, hresolved, hstep.trans (max_eq_left (by omega)), hstart.trans ?_,
    hstop.trans ?_⟩
  · rw [residue, Option.map_some, hfirst, Reference.first_of_pos hpos, if_neg (by omega)]
  · rw [Reference.bound, if_pos hpos]
    rfl

/-- The slice `r::m` selects the positions that leave the remainder `r`, each as the one that
its quotient counts. -/
theorem exists_resolve_residue :
    ∃ n, (residue m r).resolve len = .ok n ∧
      ∀ i p, n.position? i = some p ↔ p < len ∧ r = p % m ∧ i = p / m := by
  obtain ⟨n, hn, hresolved, hstep, hstart, hstop⟩ :=
    exists_resolve_residue_bounds hlen hm hm' hr
  have hpos : (0 : Int) < m := by omega
  refine ⟨n, hn, fun i p => ?_⟩
  rw [hresolved.position?_eq_some_iff, hresolved.lt_count_iff, before_of_pos (hstep ▸ hpos),
    Selection.term, hstep, hstart, hstop]
  have hterm : (0 : Int) ≤ i * m := by positivity
  constructor
  · rintro ⟨hlt, hp⟩
    -- A first position behind the end would leave nothing before the bound.
    have hsum : (r : Int) + m * i = p := by
      rw [mul_comm]
      omega
    obtain ⟨hquot, hrem⟩ := (Nat.div_mod_unique hm).mpr ⟨by exact_mod_cast hsum, hr⟩
    exact ⟨by omega, hrem.symm, hquot.symm⟩
  · rintro ⟨hlt, hrem, hquot⟩
    have hsum : (r : Int) + m * i = p := by
      rw [hrem, hquot]
      exact_mod_cast Nat.mod_add_div p m
    rw [mul_comm] at hsum
    omega

end Slice

section Residues

variable {len m : Nat} {n : Nat → Selection}
  (hn : ∀ r < m, (Slice.residue m r).resolve len = .ok (n r))
  (hposition : ∀ r < m, ∀ i p, (n r).position? i = some p ↔ p < len ∧ r = p % m ∧ i = p / m)
  {order : List Nat} (horder : order.Perm (List.range m))
include hn hposition horder

/-- The classes share out all positions, in whatever order they are taken. -/
theorem residues_perm (hm : 0 < m) :
    (order.flatMap fun r => (n r).cursor.toList).Perm (List.range len) := by
  have hlt : ∀ r ∈ order, r < m := fun r hr => List.mem_range.mp (horder.mem_iff.mp hr)
  have hmem : ∀ r ∈ order, ∀ p, p ∈ (n r).cursor.toList ↔ p < len ∧ r = p % m := by
    intro r hr p
    rw [Selection.mem_toList_cursor_iff]
    simp only [hposition r (hlt r hr), exists_and_left, exists_eq, and_true]
  have hclasses : (order.flatMap fun r => (n r).cursor.toList).Nodup := by
    refine List.nodup_flatMap.mpr ⟨fun r hr => ?_, ?_⟩
    · exact (Slice.resolved_of_resolve (hn r (hlt r hr))).nodup_cursor
    · -- A position has one remainder, so no two classes have it.
      refine (horder.nodup_iff.mpr List.nodup_range).imp_of_mem fun {r t} hr ht hne p hp hp' => ?_
      exact hne (((hmem r hr p).mp hp).2.trans ((hmem t ht p).mp hp').2.symm)
  refine (List.perm_ext_iff_of_nodup hclasses List.nodup_range).mpr fun p => ?_
  rw [List.mem_flatMap, List.mem_range]
  constructor
  · rintro ⟨r, hr, hp⟩
    exact ((hmem r hr p).mp hp).1
  · intro hp
    have hr : p % m ∈ order := horder.mem_iff.mpr (List.mem_range.mpr (Nat.mod_lt p hm))
    exact ⟨p % m, hr, (hmem _ hr p).mpr ⟨hp, rfl⟩⟩

/-- One sequence for each class, stored in any order, gives every position its value. -/
theorem exists_run_residues (hm : 0 < m) {σ : Nat → Type} {α : Type} (f : (r : Nat) → σ r → α)
    {values : (r : Nat) → Array (σ r)} (hsize : ∀ r < m, (values r).size = (n r).count)
    {a : Array α} (ha : a.size = len) :
    ∃ b, (order.forM fun r =>
          InPlace.assign (f r) (Slice.residue m r) (.sequence (values r))).run a = .ok () b ∧
      b.size = len ∧
      ∀ p < len, ∃ v, (values (p % m))[p / m]? = some v ∧ b[p]? = some (f (p % m) v) := by
  have hlt : ∀ r ∈ order, r < m := fun r hr => List.mem_range.mp (horder.mem_iff.mp hr)
  have hfit : ∀ r ∈ order, (Source.sequence (values r)).Fits (n r).count :=
    fun r hr => Source.fits_sequence (hsize r (hlt r hr))
  have hwrites : InPlace.Writes len
      (order.forM fun r => InPlace.assign (f r) (Slice.residue m r) (.sequence (values r)))
      (order.flatMap fun r => Store.plan (f r) (n r) (.sequence (values r))) :=
    .forM fun r hr => InPlace.writes_assign (hn r (hlt r hr)) (hfit r hr) (f r)
  refine ⟨_, hwrites a ha, (Store.size_writeAll _ _).trans ha, fun p hp => ?_⟩
  have hr : p % m < m := Nat.mod_lt p hm
  have hat : (n (p % m)).position? (p / m) = some p :=
    (hposition _ hr _ p).mpr ⟨hp, rfl, rfl⟩
  have hcounted := ((Slice.resolved_of_resolve (hn _ hr)).position?_eq_some_iff.mp hat).1
  have horder' : p % m ∈ order := horder.mem_iff.mpr (List.mem_range.mpr hr)
  obtain ⟨v, hv⟩ := Source.exists_get? (hfit _ horder') hcounted
  -- The writes of all rounds have each position once, so none of them is overwritten.
  have hpositions : ((order.flatMap fun r =>
      Store.plan (f r) (n r) (.sequence (values r))).map Prod.fst).Perm (List.range a.size) := by
    rw [List.map_flatMap, ha]
    refine (List.Perm.of_eq ?_).trans (residues_perm hn hposition horder hm)
    exact List.flatMap_congr fun r hr => Store.map_fst_plan (f r) (hfit r hr)
  refine ⟨v, hv, Store.getElem?_writeAll_of_perm hpositions ?_⟩
  exact List.mem_flatMap.mpr ⟨_, horder', Store.mem_plan (f (p % m)) hat hv⟩

end Residues

/-- **The residue classes of a stride** share out a sequence. Of the slices `0::m`, `1::m` up
to `m-1::m`, only the one for its remainder selects a position, as the one that its quotient
counts, so all of them together select as many positions as there are. One sequence for each
class can be stored, in any order of the classes: every position is then selected once, and
holds the value that its remainder and its quotient say. -/
theorem residues_partition {len m : Nat} (hlen : len ≤ maxLength) (hm : 0 < m)
    (hm' : m ≤ maxLength) :
    ∃ n : Nat → Selection,
      (∀ r < m, (Slice.residue m r).resolve len = .ok (n r)) ∧
      (∀ r < m, ∀ i p, (n r).position? i = some p ↔ p < len ∧ r = p % m ∧ i = p / m) ∧
      ((List.range m).map fun r => (n r).count).sum = len ∧
      ∀ order : List Nat, order.Perm (List.range m) →
        (order.flatMap fun r => (n r).positions.toList).Perm (List.range len) ∧
        ∀ (target : ElementType) (source : Nat → ElementType) (a : Array target.Value)
          (values : (r : Nat) → Array (source r).Value), a.size = len →
            (∀ r < m, (values r).size = (n r).count) →
              ∃ b, (order.forM fun r =>
                    InPlace.assign ((source r).convert target) (Slice.residue m r)
                      (.sequence (values r))).run a = .ok () b ∧
                b.size = len ∧
                ∀ p < len, ∃ v, (values (p % m))[p / m]? = some v ∧
                  b[p]? = some ((source (p % m)).convert target v) := by
  choose! n hresolve using fun r (hr : r < m) => Slice.exists_resolve_residue hlen hm hm' hr
  have hn : ∀ r < m, (Slice.residue m r).resolve len = .ok (n r) :=
    fun r hr => (hresolve r hr).1
  have hposition : ∀ r < m, ∀ i p,
      (n r).position? i = some p ↔ p < len ∧ r = p % m ∧ i = p / m :=
    fun r hr => (hresolve r hr).2
  refine ⟨n, hn, hposition, ?_, fun order horder =>
    ⟨?_, fun target source a values ha hsize => ?_⟩⟩
  · have hlength := (residues_perm hn hposition (List.Perm.refl (List.range m)) hm).length_eq
    rw [List.length_flatMap, List.length_range] at hlength
    simpa only [Selection.length_toList_cursor] using hlength
  · simp only [Selection.toList_positions]
    exact residues_perm hn hposition horder hm
  · exact exists_run_residues hn hposition horder hm (fun r => (source r).convert target) hsize ha

/-- The words for the even positions of five, and those for the odd ones. -/
def alternating (r : Nat) : Array (ElementType.int .int16).Value :=
  if r = 0 then #[300#16, 1#16, 2#16] else #[4#16, 5#16]

/-- Words of 16 bits are stored in bytes, first the odd ones and then the even ones. -/
theorem residues_partition_alternating :
    ∃ b, ([1, 0].forM fun r =>
        InPlace.assign ((ElementType.int .int16).convert (.int .uint8)) (Slice.residue 2 r)
          (.sequence (alternating r))).run #[0#8, 0#8, 0#8, 0#8, 0#8] = .ok () b ∧
      b = #[44#8, 4#8, 1#8, 5#8, 2#8] := by
  obtain ⟨n, hn, -, -, hstore⟩ :=
    residues_partition (show 5 ≤ maxLength by decide) (show 0 < 2 by decide) (by decide)
  have heven : n 0 = ⟨0, 5, 2, 3⟩ := (Except.ok.inj (hn 0 (by decide))).symm
  have hodd : n 1 = ⟨1, 5, 2, 2⟩ := (Except.ok.inj (hn 1 (by decide))).symm
  have hsize : ∀ r < 2, (alternating r).size = (n r).count := by
    intro r hr
    obtain rfl | rfl : r = 0 ∨ r = 1 := by omega
    · rw [heven]
      rfl
    · rw [hodd]
      rfl
  obtain ⟨b, hrun, -⟩ := (hstore [1, 0] (by decide)).2 (.int .uint8) (fun _ => .int .int16)
    #[0#8, 0#8, 0#8, 0#8, 0#8] alternating rfl hsize
  refine ⟨b, hrun, ?_⟩
  have hvalues : InPlace.left (([1, 0].forM fun r =>
      InPlace.assign ((ElementType.int .int16).convert (.int .uint8)) (Slice.residue 2 r)
        (.sequence (alternating r))).run #[0#8, 0#8, 0#8, 0#8, 0#8]) =
          #[44#8, 4#8, 1#8, 5#8, 2#8] := by
    decide +kernel
  rw [hrun] at hvalues
  exact hvalues

end StridedSlice
