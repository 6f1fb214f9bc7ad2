import StridedSlice.Proofs.Traversal
/-!
# StridedSlice.Proofs.Reslicing

**Selections written as slices again.** A selection can be handed on as a slice: in its own
direction with the bounds that it has, or in the opposite one, from its last position down to
its first. In both cases a bound of `-1`, which a selection has before the first position, is
left out, because written down it would be the last position.

Neither slice is adjusted when it is resolved, because its bounds are where a walk in its
direction can be (`Reference.adjust_of_mem`) and its step can be negated
(`Slice.exists_resolve_stepped`). What it selects is then read off `Selection.Resolved`:

* the bounds and the step determine a selection (`Selection.Resolved.eq_of_fields`);
* a progression from the last term with the opposite step has the same terms
  (`Selection.GoesBack.toList_cursor`);
* a traversal of it is a traversal of the selection with the ends exchanged
  (`Selection.Resolved.run_mirrored`).
-/

namespace StridedSlice

/-! ### Slices that need no adjustment -/

namespace Slice

/-- A step that can be negated is kept. -/
theorem exists_resolve_stepped (start stop : Option Int64) (step : Int64) (len : Nat)
    (hne : step.toInt ≠ 0) (hmin : -(2 ^ 63 - 1) ≤ step.toInt) :
    ∃ n, Slice.resolve ⟨start, stop, some step⟩ len = .ok n ∧
      n.Resolved (effectiveLength len) ∧ n.step.toInt = step.toInt ∧
      n.start.toInt =
        Reference.first step.toInt (effectiveLength len) (start.map Int64.toInt) ∧
      n.stop.toInt =
        Reference.bound step.toInt (effectiveLength len) (stop.map Int64.toInt) := by
  have hwritten : writtenStep ⟨start, stop, some step⟩ = step.toInt := rfl
  have hstep : (⟨start, stop, some step⟩ : Slice).step ≠ some 0 := by
    rw [ne_eq, ← writtenStep_eq_zero_iff, hwritten]
    exact hne
  obtain ⟨n, hn, hresolved, hkept, hstart, hstop⟩ := exists_resolve len hstep
  rw [hwritten] at hkept hstart hstop
  exact ⟨n, hn, hresolved, hkept.trans (max_eq_left hmin), hstart, hstop⟩

/-- The step of a resolved slice can be negated. -/
theorem le_step_of_resolve {s : Slice} {len : Nat} {n : Selection} (h : s.resolve len = .ok n) :
    -(2 ^ 63 - 1) ≤ n.step.toInt := by
  obtain ⟨n', hn', -, hstep, -⟩ := exists_resolve len (step_ne_zero_of_resolve h)
  obtain rfl : n = n' := Except.ok.inj (h.symm.trans hn')
  rw [hstep]
  exact le_max_right _ _

theorem toInt_neg_step_of_resolve {s : Slice} {len : Nat} {n : Selection}
    (h : s.resolve len = .ok n) : (-n.step).toInt = -n.step.toInt := by
  have hmin := le_step_of_resolve h
  have hword := fitsWord_toInt n.step
  refine toInt_neg_of_fits ?_
  unfold FitsWord at *
  omega

end Slice

/-! ### In the same direction -/

namespace Selection

/-- A selection written as a slice. -/
def toSlice (n : Selection) : Slice :=
  ⟨some n.start, if n.stop = -1 then none else some n.stop, some n.step⟩

/-- Selections with the same bounds and the same step are equal, because these tell how many
terms are counted. -/
theorem Resolved.eq_of_fields {n m : Selection} {len len' : Nat} (hn : n.Resolved len)
    (hm : m.Resolved len') (hstart : n.start.toInt = m.start.toInt)
    (hstop : n.stop.toInt = m.stop.toInt) (hstep : n.step.toInt = m.step.toInt) : n = m := by
  have hcount : n.count = m.count := by
    refine eq_of_forall_lt_iff fun i => ?_
    rw [hn.lt_count_iff, hm.lt_count_iff, term, term, hstart, hstop, hstep]
  obtain ⟨start, stop, step, count⟩ := n
  obtain ⟨start', stop', step', count'⟩ := m
  obtain rfl : start = start' := Int64.toInt_inj.mp hstart
  obtain rfl : stop = stop' := Int64.toInt_inj.mp hstop
  obtain rfl : step = step' := Int64.toInt_inj.mp hstep
  rw [show count = count' from hcount]

namespace Resolved

variable {n : Selection} {len : Nat} (h : n.Resolved len)
include h

/-- Only a descending selection begins before the first position. -/
theorem start_eq_neg_one_iff :
    n.start.toInt = -1 ↔ ¬(0 < n.step.toInt ∨ 0 ≤ n.start.toInt) := by
  have hbounds := h.bounds
  omega

/-- Where a selection begins before the first position there is nothing left to select. -/
theorem count_eq_zero_of_start (hstart : n.start.toInt = -1) : n.count = 0 := by
  have hbounds := h.bounds
  have hfirst := h.lt_count_iff 0
  rw [before_of_neg (by omega), term] at hfirst
  omega

/-- The stop of a selection, written or left out, is resolved to itself. -/
theorem bound_toSlice :
    Reference.bound n.step.toInt len (n.toSlice.stop.map Int64.toInt) = n.stop.toInt := by
  have hbounds := h.bounds
  have hlast : n.stop = -1 ↔ n.stop.toInt = -1 := Int64.toInt_inj.symm
  unfold toSlice
  by_cases hstop : n.stop = -1
  · -- Left out, the stop is the one of a descending slice without any.
    have hneg := hlast.mp hstop
    rw [if_pos hstop, hneg, Option.map_none, Reference.bound, if_neg (by omega)]
    rfl
  · have hwritten := hlast.not.mp hstop
    rw [if_neg hstop, Option.map_some, Reference.bound]
    exact Reference.adjust_of_mem _ (by omega) (by omega)

end Resolved

/-- A selection comes back if its start does: the step and the stop do in any case. -/
theorem resolve_toSlice_iff {s : Slice} {len : Nat} {n : Selection}
    (h : s.resolve len = .ok n) :
    n.toSlice.resolve len = .ok n ↔
      Reference.first n.step.toInt (Slice.effectiveLength len) (some n.start.toInt) =
        n.start.toInt := by
  have hn := Slice.resolved_of_resolve h
  obtain ⟨m, hm, hresolved, hstep, hstart, hstop⟩ :=
    Slice.exists_resolve_stepped n.toSlice.start n.toSlice.stop n.step len hn.step_ne_zero
      (Slice.le_step_of_resolve h)
  rw [hn.bound_toSlice] at hstop
  have hwritten : n.toSlice.resolve len = .ok m := hm
  rw [hwritten, Except.ok.injEq]
  constructor
  · rintro rfl
    exact hstart.symm
  · intro hback
    exact hresolved.eq_of_fields hn (hstart.trans hback) hstop hstep

/-- A selection that begins at a position, or behind the last one, comes back. -/
theorem resolve_toSlice_of_start {s : Slice} {len : Nat} {n : Selection}
    (h : s.resolve len = .ok n) (hstart : 0 ≤ n.start.toInt) :
    n.toSlice.resolve len = .ok n := by
  have hbounds := (Slice.resolved_of_resolve h).bounds
  rw [resolve_toSlice_iff h]
  exact Reference.adjust_of_mem _ hstart (by omega)

/-- A start before the first position would be the last position when it is written. -/
theorem resolve_toSlice_iff_of_start {s : Slice} {len : Nat} {n : Selection}
    (h : s.resolve len = .ok n) (hstart : n.start.toInt = -1) :
    n.toSlice.resolve len = .ok n ↔ len = 0 := by
  have hbounds := (Slice.resolved_of_resolve h).bounds
  have heff : Slice.effectiveLength len = 0 ↔ len = 0 := by
    unfold Slice.effectiveLength maxLength
    omega
  rw [resolve_toSlice_iff h, hstart]
  simp only [Reference.first, Reference.adjust]
  split_ifs <;> omega

end Selection

/-- **Resolving is idempotent.** The selection of a slice without a zero step is written as a
slice again, and resolved against the same length it is the same selection in all its fields,
whenever it goes up or begins at a position. The only other selections begin before the first
position. They are empty, and only without any elements do they come back. -/
theorem Slice.resolve_idempotent (s : Slice) (len : Nat) (h : s.step ≠ some 0) :
    ∃ n, s.resolve len = .ok n ∧
      (0 < n.step.toInt ∨ 0 ≤ n.start.toInt → n.toSlice.resolve len = .ok n) ∧
      (n.start.toInt = -1 ↔ ¬(0 < n.step.toInt ∨ 0 ≤ n.start.toInt)) ∧
      (n.start.toInt = -1 → n.count = 0 ∧ (n.toSlice.resolve len = .ok n ↔ len = 0)) := by
  obtain ⟨n, hn, hresolved, -⟩ := Slice.exists_resolve len h
  have hbounds := hresolved.bounds
  refine ⟨n, hn, fun hstart => ?_, hresolved.start_eq_neg_one_iff, fun hstart => ?_⟩
  · exact Selection.resolve_toSlice_of_start hn (by omega)
  · exact ⟨hresolved.count_eq_zero_of_start hstart,
      Selection.resolve_toSlice_iff_of_start hn hstart⟩

/-- The least step and a stop far before the sequence, on more elements than a selection
distinguishes. -/
theorem Slice.resolve_idempotent_extreme :
    (Slice.mk (some (-2)) (some Int64.minValue) (some Int64.minValue)).step ≠ some 0 ∧
      ∃ n, Slice.resolve ⟨some (-2), some Int64.minValue, some Int64.minValue⟩
          18446744073709551615 = .ok n ∧
        n.toSlice = ⟨some 9223372036854775805, none, some (-9223372036854775807)⟩ ∧
        n.toSlice.resolve 18446744073709551615 = .ok n := by
  have hstep : (Slice.mk (some (-2)) (some Int64.minValue) (some Int64.minValue)).step ≠
      some 0 := by decide
  obtain ⟨n, hn, hfixed, -⟩ := Slice.resolve_idempotent _ 18446744073709551615 hstep
  obtain rfl : n = ⟨9223372036854775805, -1, -9223372036854775807, 1⟩ :=
    Except.ok.inj (hn.symm.trans rfl)
  exact ⟨hstep, _, hn, rfl, hfixed (.inr (by decide))⟩

/-! ### In the opposite direction -/

/-- The slice from the position `last` back to the position `first` of a selection with the
given step. It stops one place beyond `first`; before position `0` there is no place to
write. -/
def Slice.backwards (first last : Nat) (step : Int64) : Slice :=
  ⟨some (Int64.ofNat last),
    if 0 < step then (if first = 0 then none else some (Int64.ofNat (first - 1)))
    else some (Int64.ofNat (first + 1)),
    some (-step)⟩

namespace Selection

/-- What the fields of `r` are if it goes back from the last term of `n` to its first. -/
structure GoesBack (r n : Selection) : Prop where
  step : r.step.toInt = -n.step.toInt
  start : r.start.toInt = n.term (n.count - 1)
  stop : r.stop.toInt = if 0 < n.step.toInt then n.start.toInt - 1 else n.start.toInt + 1

namespace GoesBack

variable {n r : Selection} (h : r.GoesBack n)
include h

/-- Going back, the terms are those of the progression, numbered from the last one. -/
theorem term_eq (hcount : 0 < n.count) (i : Nat) :
    r.term i = n.start.toInt + ((n.count : Int) - 1 - i) * n.step.toInt := by
  have hlast : ((n.count - 1 : Nat) : Int) = (n.count : Int) - 1 := by omega
  rw [term, h.start, h.step, term, hlast]
  ring

theorem count_eq {len len' : Nat} (hn : n.Resolved len) (hr : r.Resolved len')
    (hcount : 0 < n.count) : r.count = n.count := by
  refine eq_of_forall_lt_iff fun i => ?_
  rw [hr.lt_count_iff, h.term_eq hcount, h.step, h.stop]
  -- A term is before the stop unless it is beyond the first one.
  rcases hn.bounds with ⟨hup, -⟩ | ⟨hdown, -⟩
  · have hinside := mul_nonneg_iff_of_pos_right (b := (n.count : Int) - 1 - i) hup
    rw [before_of_neg (by omega), if_pos hup]
    omega
  · have hinside := mul_nonneg_iff_of_pos_right (b := (n.count : Int) - 1 - i)
      (c := -n.step.toInt) (by omega)
    rw [Int.mul_neg] at hinside
    rw [before_of_pos (by omega), if_neg (by omega)]
    omega

/-- Going back, the positions are listed in the opposite order. -/
theorem toList_cursor {len len' : Nat} (hn : n.Resolved len) (hr : r.Resolved len')
    (hcount : 0 < n.count) : r.cursor.toList = n.cursor.toList.reverse := by
  rw [hr.toList_cursor, hn.toList_cursor, h.count_eq hn hr hcount]
  refine List.ext_getElem (by simp) fun i hi hi' => ?_
  have hlt : i < n.count := by simpa using hi
  have hterm : r.term i = n.term (n.count - 1 - i) := by
    have hindex : ((n.count - 1 - i : Nat) : Int) = (n.count : Int) - 1 - i := by omega
    rw [h.term_eq hcount, term, hindex]
  simp [hterm]

end GoesBack

end Selection

namespace Slice

/-- The stop of a slice that goes back is one place beyond the first position. -/
theorem bound_backwards {first len : Nat} (last : Nat) {step : Int64} (hne : step.toInt ≠ 0)
    (hfirst : first < len) (hlen : len ≤ maxLength) :
    Reference.bound (-step.toInt) len ((backwards first last step).stop.map Int64.toInt) =
      if 0 < step.toInt then (first : Int) - 1 else first + 1 := by
  have hpos : 0 < step ↔ 0 < step.toInt := Int64.lt_iff_toInt_lt
  unfold backwards Reference.bound
  by_cases hup : 0 < step.toInt
  · rw [if_pos (hpos.mpr hup), if_pos hup, if_neg (by omega)]
    cases first with
    | zero => rfl
    | succ p =>
        rw [if_neg (Nat.succ_ne_zero p), Option.map_some, Nat.add_sub_cancel,
          toInt_ofNat_of_le_maxLength (by omega), Reference.adjust_of_mem _ (by omega) (by omega)]
        omega
  · rw [if_neg (hpos.not.mpr hup), if_neg hup, if_pos (by omega), Option.map_some,
      toInt_ofNat_of_le_maxLength (by omega), Reference.adjust_of_mem _ (by omega) (by omega)]
    omega

/-- The slice back through a selection is resolved as it is written. -/
theorem exists_resolve_backwards {s : Slice} {len : Nat} {n : Selection}
    (h : s.resolve len = .ok n) (hcount : 0 < n.count) :
    ∃ first last r, n.position? 0 = some first ∧ n.last? = some last ∧
      (backwards first last n.step).resolve len = .ok r ∧
      r.Resolved (effectiveLength len) ∧ r.GoesBack n := by
  have hn := resolved_of_resolve h
  have hlen := hn.len_le
  have hne := hn.step_ne_zero
  have hneg := toInt_neg_step_of_resolve h
  have hmax := (fitsWord_toInt n.step).2
  obtain ⟨first, hfirst, hfirstLt, hfirstTerm, -⟩ := hn.position_exact hcount
  obtain ⟨last, hlast, hlastLt, hlastTerm, -⟩ :=
    hn.position_exact (show n.count - 1 < n.count by omega)
  have hstart : (first : Int) = n.start.toInt := by simpa using hfirstTerm
  obtain ⟨r, hr, hresolved, hrstep, hrstart, hrstop⟩ :=
    exists_resolve_stepped (backwards first last n.step).start (backwards first last n.step).stop
      (-n.step) len (by omega) (by omega)
  rw [hneg] at hrstep hrstart hrstop
  refine ⟨first, last, r, hfirst, ?_, hr, hresolved, hrstep, hrstart.trans ?_, hrstop.trans ?_⟩
  · rw [n.last?_eq, if_neg (by omega), hlast]
  · show Reference.adjust _ _ _ (some (Int64.ofNat last).toInt) = _
    rw [toInt_ofNat_of_le_maxLength (by omega), Reference.adjust_of_mem _ (by omega) (by omega)]
    exact hlastTerm
  · rw [bound_backwards last hne hfirstLt hlen, hstart]

end Slice

/-! ### Taking from the back -/

namespace Traversal

/-- The same request at the other end. -/
def Request.mirrored : Request → Request
  | .next => .nextBack
  | .nextBack => .next
  | .skipNext k => .skipNextBack k
  | .skipNextBack k => .skipNext k
  | .length => .length
  | .sizeHint => .sizeHint

/-- A run of changed requests is a run of a changed answer. -/
theorem run_map {σ ρ β : Type} (answer : σ → ρ → Except Stop (β × σ)) (change : ρ → ρ) (s : σ)
    (requests : List ρ) :
    run answer s (requests.map change) = run (fun s r => answer s (change r)) s requests := by
  induction requests generalizing s with
  | nil => rfl
  | cons r rest ih => simp only [List.map_cons, run, ih]

/-- A queue in the opposite order answers at one end as the queue does at the other. -/
theorem Queue.ask_reverse (q : List Nat) (request : Request) :
    ask q.reverse request.mirrored = (ask q request).map fun a => (a.1, a.2.reverse) := by
  cases request with
  | next | nextBack | length | sizeHint => simp [ask, Request.mirrored, Except.map]
  | skipNext k => simp [ask, Request.mirrored, Except.map, ← List.reverse_drop]
  | skipNextBack k => simp [ask, Request.mirrored, Except.map, List.drop_reverse]

theorem Queue.ask_simulates_mirrored :
    Simulates (fun q q' => q' = q.reverse) ask fun q request => ask q request.mirrored := by
  rintro q _ request rfl
  obtain ⟨reply, rest, hask⟩ := exists_ask q request
  refine ⟨reply, rest, rest.reverse, hask, ?_, rfl⟩
  show ask q.reverse request.mirrored = _
  rw [ask_reverse, hask]
  rfl

end Traversal

namespace Selection.Resolved

variable {n : Selection} {len : Nat} (h : n.Resolved len)
include h

/-- Positions that are collected from the back come in the opposite order, until there are no
more. -/
theorem collect_nextBack {done left : Nat} (hleft : done + left ≤ n.count) (asked : Nat)
    (acc : Array Nat) :
    (Cursor.collect Cursor.nextBack asked (n.cursorFrom done left) acc).toList =
      acc.toList ++ (n.positionsFrom done left).reverse.take asked := by
  induction asked generalizing left acc with
  | zero => simp [Cursor.collect]
  | succ asked ih =>
      cases left with
      | zero => simp [Cursor.collect, Cursor.nextBack, cursorFrom]
      | succ left =>
          rw [Cursor.collect, h.nextBack_cursorFrom hleft]
          dsimp only
          rw [ih (by omega), n.positionsFrom_concat]
          simp

theorem toList_takeBack (asked : Nat) :
    (n.cursor.takeBack asked).toList = n.cursor.toList.reverse.take asked := by
  have hcollect := h.collect_nextBack (Nat.zero_add n.count).le asked #[]
  rwa [n.cursorFrom_zero, h.positionsFrom_eq_toList_cursor] at hcollect

/-- Two traversals of the same positions in opposite orders answer alike, if one of them is
asked at the other end each time. -/
theorem run_mirrored {r : Selection} {len' : Nat} (hr : r.Resolved len')
    (hlist : n.cursor.toList = r.cursor.toList.reverse)
    (requests : List Traversal.Request) :
    ∃ replies c c', Traversal.run Cursor.ask r.cursor requests = .ok (replies, c) ∧
      Traversal.run Cursor.ask n.cursor (requests.map Traversal.Request.mirrored) =
        .ok (replies, c') := by
  have hqueues : n.positionsFrom 0 n.count = (r.positionsFrom 0 r.count).reverse := by
    rw [h.positionsFrom_eq_toList_cursor, hr.positionsFrom_eq_toList_cursor, hlist]
  obtain ⟨replies, c, _, hc, hqueue, -⟩ :=
    Traversal.run_simulates hr.ask_simulates _ _ requests r.follows_cursor
  obtain ⟨replies', c', _, hc', hqueue', -⟩ :=
    Traversal.run_simulates h.ask_simulates _ _ (requests.map Traversal.Request.mirrored)
      n.follows_cursor
  -- The two queues give the same replies, so the traversals that follow them do.
  obtain ⟨_, _, _, hreplies, hreplies', -⟩ :=
    Traversal.run_simulates Traversal.Queue.ask_simulates_mirrored _ _ requests hqueues
  rw [Traversal.run_map] at hqueue'
  cases hqueue.symm.trans hreplies
  cases hqueue'.symm.trans hreplies'
  exact ⟨replies, c, c', hc, hc'⟩

end Selection.Resolved

/-- **A slice reversed is a slice**, for every slice that selects something. The slice from
its last position back to its first one, with the opposite step, selects the same positions in
the opposite order. That is what the slice itself yields from the back: positions that are
collected there come in that order, and every traversal of the one answers as a traversal of
the other that is asked at the other end. -/
theorem Slice.resolve_backwards {s : Slice} {len : Nat} {n : Selection}
    (h : s.resolve len = .ok n) (hcount : 0 < n.count) :
    ∃ first last r, n.position? 0 = some first ∧ n.last? = some last ∧
      (backwards first last n.step).resolve len = .ok r ∧
      r.positions.toList = n.positions.toList.reverse ∧
      (∀ asked, (n.cursor.takeBack asked).toList = n.positions.toList.reverse.take asked) ∧
      ∀ requests, ∃ replies c c',
        Traversal.run Cursor.ask r.cursor requests = .ok (replies, c) ∧
          Traversal.run Cursor.ask n.cursor (requests.map Traversal.Request.mirrored) =
            .ok (replies, c') := by
  have hn := resolved_of_resolve h
  obtain ⟨first, last, r, hfirst, hlast, hresolve, hr, hback⟩ :=
    exists_resolve_backwards h hcount
  have hlist := hback.toList_cursor hn hr hcount
  refine ⟨first, last, r, hfirst, hlast, hresolve, ?_, fun asked => ?_, ?_⟩
  · rw [r.toList_positions, n.toList_positions, hlist]
  · rw [n.toList_positions, hn.toList_takeBack]
  · exact hn.run_mirrored hr (by rw [hlist, List.reverse_reverse])

/-- Every third position from the first one on, and back to it: the slice back has no stop. -/
theorem Slice.resolve_backwards_to_first :
    Slice.resolve ⟨none, none, some 3⟩ 11 = .ok ⟨0, 11, 3, 4⟩ ∧
      backwards 0 9 3 = ⟨some 9, none, some (-3)⟩ ∧
      ∃ r, (backwards 0 9 3).resolve 11 = .ok r ∧ r.positions.toList = [9, 6, 3, 0] := by
  have hresolve : Slice.resolve ⟨none, none, some 3⟩ 11 = .ok ⟨0, 11, 3, 4⟩ := rfl
  obtain ⟨first, last, r, hfirst, hlast, hr, hpositions, -⟩ :=
    Slice.resolve_backwards hresolve (by decide)
  obtain rfl : first = 0 := Option.some.inj (hfirst.symm.trans rfl)
  obtain rfl : last = 9 := Option.some.inj (hlast.symm.trans rfl)
  exact ⟨hresolve, rfl, r, hr, hpositions.trans rfl⟩

end StridedSlice
