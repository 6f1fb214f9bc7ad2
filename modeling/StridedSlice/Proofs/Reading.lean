import StridedSlice.Reading
import StridedSlice.Proofs.Traversal
import StridedSlice.Proofs.View
/-!
# StridedSlice.Proofs.Reading

**All reads of a view read one list.** A view can be asked for an element by its number, its
elements can be collected in either direction, and a walk can be taken from at both ends in
any order. Random access multiplies and a walk adds up, but all of them find the elements of
one list in their places, and none of them leaves the array.

* `End.takeFrom` takes elements from the ends of a list, `End.run_takeFrom` says that each is
  taken once;
* `Selection.Shows` relates a walk to the list of the elements that it has before it. The step
  at either end is `Selection.Resolved.shows_next` and `shows_nextBack`, and a run or a
  collection is an induction over such steps;
* `View.ReadAs` is the agreement of all reads with a list.

What is proved about `Reading` holds of `View` and `Walk` as well, because they agree.
-/

namespace StridedSlice

variable {α : Type}

/-! ### The two ends of a list -/

/-- An end that elements are taken from. -/
inductive End
  | front
  | back
  deriving DecidableEq

namespace End

/-- Takes an element from an end of a list. -/
def takeFrom (items : List α) : End → Except Stop (Option α × List α)
  | .front => .ok (items.head?, items.tail)
  | .back => .ok (items.getLast?, items.dropLast)

/-- What was taken at one of the ends, in the order in which it was taken. -/
def takenAt (e : End) (ends : List End) (replies : List (Option α)) : List α :=
  (ends.zip replies).filterMap fun taken => if taken.1 = e then taken.2 else none

theorem takenAt_cons_self (e : End) (ends : List End) (reply : Option α)
    (replies : List (Option α)) :
    takenAt e (e :: ends) (reply :: replies) = reply.toList ++ takenAt e ends replies := by
  cases reply <;> simp [takenAt]

theorem takenAt_cons_of_ne {e e' : End} (h : e' ≠ e) (ends : List End) (reply : Option α)
    (replies : List (Option α)) :
    takenAt e (e' :: ends) (reply :: replies) = takenAt e ends replies := by
  simp [takenAt, h]

/-- **Each element is taken once**: what was taken in front, what is left, and what was taken
at the back, in the opposite order, make up the list. One is taken each time, until there are
no more. -/
theorem run_takeFrom (items : List α) (ends : List End) :
    ∃ replies left, Traversal.run takeFrom items ends = .ok (replies, left) ∧
      takenAt .front ends replies ++ left ++ (takenAt .back ends replies).reverse = items ∧
      left.length = items.length - ends.length := by
  -- What the first of the ends takes is missing from the list that the others take from.
  induction ends generalizing items with
  | nil => exact ⟨[], items, rfl, List.append_nil _, rfl⟩
  | cons e rest ih =>
      cases e with
      | front =>
          obtain ⟨replies, left, hrun, hall, hleft⟩ := ih items.tail
          refine ⟨items.head? :: replies, left, Traversal.run_cons rfl hrun, ?_, ?_⟩
          · rw [takenAt_cons_self, takenAt_cons_of_ne (by decide), List.append_assoc,
              List.append_assoc, ← List.append_assoc _ left, hall,
              Traversal.Queue.head?_append_tail]
          · rw [hleft, List.length_tail, List.length_cons]
            omega
      | back =>
          obtain ⟨replies, left, hrun, hall, hleft⟩ := ih items.dropLast
          refine ⟨items.getLast? :: replies, left, Traversal.run_cons rfl hrun, ?_, ?_⟩
          · have hlast : items.getLast?.toList.reverse = items.getLast?.toList := by
              cases items.getLast? <;> rfl
            rw [takenAt_cons_self, takenAt_cons_of_ne (by decide), List.reverse_append, hlast,
              ← List.append_assoc, hall, Traversal.Queue.dropLast_append_getLast?]
          · rw [hleft, List.length_dropLast, List.length_cons]
            omega

end End

/-! ### Walks that may fail -/

namespace Reading

/-- A view is made under checks as it is without them. -/
theorem view_eq (a : Array α) (s : Slice) :
    view a s = (View.ofSlice a s).mapError Stop.refused := by
  rw [view, Checked.resolve_eq, View.ofSlice_eq]
  cases s.resolve a.size <;> rfl

/-- Takes an element from an end of a walk. -/
def takeAt (w : Walk α) : End → Except Stop (Option α × Walk α)
  | .front => next w
  | .back => nextBack w

/-- Where an array has an element at a position, or there is no position to look at, reading
gives what is there. -/
theorem fetch?_eq {a : Array α} {p : Option Nat} {x : Option α}
    (h : x.map some = p.map (a[·]?)) : fetch? a p = .ok x := by
  cases p with
  | none =>
      rw [Option.map_none, Option.map_eq_none_iff] at h
      rw [h]
      rfl
  | some p =>
      obtain ⟨v, rfl, hv⟩ := Option.map_eq_some_iff.mp h
      obtain ⟨hp, rfl⟩ := Array.getElem?_eq_some_iff.mp hv.symm
      rw [fetch?, fetch, dif_pos hp]
      rfl

theorem eq_bind_of_map_some {a : Array α} {p : Option Nat} {x : Option α}
    (h : x.map some = p.map (a[·]?)) : x = p.bind (a[·]?) := by
  cases p with
  | none => exact Option.map_eq_none_iff.mp h
  | some p =>
      obtain ⟨v, rfl, hv⟩ := Option.map_eq_some_iff.mp h
      exact hv

/-- Taking elements of a list one after the other collects them. What relates walks and lists
is arbitrary, so that the list may be the elements from either end. -/
theorem collect_eq {takeOne : Walk α → Except Stop (Option α × Walk α)}
    {R : Walk α → List α → Prop}
    (step : ∀ w items, R w items → ∃ w', takeOne w = .ok (items.head?, w') ∧ R w' items.tail)
    {fuel : Nat} {w : Walk α} {items : List α} (hw : R w items) (hfuel : items.length ≤ fuel)
    (acc : Array α) : collect takeOne fuel w acc = .ok (acc ++ items.toArray) := by
  induction fuel generalizing w items acc with
  | zero =>
      rw [List.eq_nil_of_length_eq_zero (Nat.le_zero.mp hfuel), Array.append_empty]
      rfl
  | succ fuel ih =>
      obtain ⟨w', htake, hw'⟩ := step w items hw
      rw [collect, htake, Checked.ok_bind]
      cases items with
      | nil => rw [Array.append_empty]; rfl
      | cons v rest =>
          have hrest : rest.length ≤ fuel := Nat.le_of_succ_le_succ hfuel
          dsimp only [List.head?_cons]
          rw [ih hw' hrest, List.tail_cons, List.toArray_cons, ← Array.append_assoc,
            Array.append_singleton]

/-- A collection that cannot fail does not. -/
theorem collect_ok (takeOne : Walk α → Option α × Walk α) (fuel : Nat) (w : Walk α)
    (acc : Array α) :
    collect (fun w => .ok (takeOne w)) fuel w acc = .ok (Walk.collect takeOne fuel w acc) := by
  induction fuel generalizing w acc with
  | zero => rfl
  | succ fuel ih =>
      rw [collect, Checked.ok_bind, Walk.collect]
      rcases takeOne w with ⟨_ | v, w'⟩
      · rfl
      · exact ih w' (acc.push v)

/-- A collection under checks and one without them, whose steps agree, end with all elements
that are there. -/
theorem collects {checked : Walk α → Except Stop (Option α × Walk α)}
    {plain : Walk α → Option α × Walk α} {R : Walk α → List α → Prop}
    (step : ∀ w items, R w items →
      ∃ w', checked w = .ok (items.head?, w') ∧ plain w = (items.head?, w') ∧ R w' items.tail)
    {fuel : Nat} {w : Walk α} {items : List α} (hw : R w items)
    (hfuel : items.length ≤ fuel) :
    collect checked fuel w #[] = .ok items.toArray ∧
      Walk.collect plain fuel w #[] = items.toArray := by
  have hchecked : collect checked fuel w #[] = .ok (#[] ++ items.toArray) := by
    refine collect_eq (fun w items hw => ?_) hw hfuel #[]
    obtain ⟨w', hstep, -, hw'⟩ := step w items hw
    exact ⟨w', hstep, hw'⟩
  -- The plain steps are checked ones that never fail.
  have hplain : collect (fun w => .ok (plain w)) fuel w #[] = .ok (#[] ++ items.toArray) := by
    refine collect_eq (fun w items hw => ?_) hw hfuel #[]
    obtain ⟨w', -, hstep, hw'⟩ := step w items hw
    exact ⟨w', congrArg Except.ok hstep, hw'⟩
  rw [Array.empty_append] at hchecked hplain
  rw [collect_ok] at hplain
  exact ⟨hchecked, Except.ok.inj hplain⟩

end Reading

/-! ### One step of a walk -/

theorem Walk.next_eq (w : Walk α) :
    w.next = (w.cursor.next.1.bind (w.data[·]?), ⟨w.data, w.cursor.next.2⟩) := by
  rw [Walk.next]
  rcases w.cursor.next with ⟨_ | p, c⟩ <;> rfl

theorem Walk.nextBack_eq (w : Walk α) :
    w.nextBack = (w.cursor.nextBack.1.bind (w.data[·]?), ⟨w.data, w.cursor.nextBack.2⟩) := by
  rw [Walk.nextBack]
  rcases w.cursor.nextBack with ⟨_ | p, c⟩ <;> rfl

/-- A walk whose positions are followed by a queue, and the elements at these positions. -/
structure Selection.Shows (n : Selection) (a : Array α) (w : Walk α) (items : List α) :
    Prop where
  data : w.data = a
  follows : ∃ q, n.Follows w.cursor q ∧ items.map some = q.map (a[·]?)

namespace Selection.Resolved

variable {n : Selection} {len : Nat} (h : n.Resolved len)
include h

theorem follows_next {c : Cursor} {q : List Nat} (hc : n.Follows c q) :
    c.next.1 = q.head? ∧ n.Follows c.next.2 q.tail := by
  obtain ⟨reply, c', q', hask, hqueue, hfollows⟩ := h.ask_simulates c q .next hc
  cases hqueue
  rw [Cursor.ask, Except.ok.injEq, Prod.mk.injEq, Traversal.Reply.position.injEq] at hask
  rw [hask.1, hask.2]
  exact ⟨rfl, hfollows⟩

theorem follows_nextBack {c : Cursor} {q : List Nat} (hc : n.Follows c q) :
    Checked.nextBack c = .ok c.nextBack ∧ c.nextBack.1 = q.getLast? ∧
      n.Follows c.nextBack.2 q.dropLast := by
  have hchecked : Checked.nextBack c = .ok c.nextBack := by
    obtain ⟨done, left, hleft, rfl, -⟩ := hc
    exact h.checked_nextBack hleft
  obtain ⟨reply, c', q', hask, hqueue, hfollows⟩ := h.ask_simulates c q .nextBack hc
  cases hqueue
  rw [Cursor.ask, hchecked, Except.map, Except.ok.injEq, Prod.mk.injEq,
    Traversal.Reply.position.injEq] at hask
  rw [hask.1, hask.2]
  exact ⟨hchecked, rfl, hfollows⟩

/-- Random access reaches a term without overflow, like a cursor that has passed nothing. -/
theorem checked_position? (i : Nat) : Checked.position? n i = .ok (n.position? i) := by
  unfold Checked.position? position?
  by_cases hi : i < n.count
  · have hi' : 0 + i < n.count := by omega
    have hstart : n.start = Int64.ofInt (n.term 0) := by simp [term]
    have hadvance := h.checked_advance hi'
    rw [← hstart] at hadvance
    rw [if_pos hi, if_pos hi, h.checked_distance hi', Checked.ok_bind, hadvance,
      Checked.ok_bind, n.start_add_mul, Nat.zero_add]
    rfl
  · rw [if_neg hi, if_neg hi]
    rfl

/-- **One step at the front**: a walk gives the first of the elements that it has before it,
checks or not, and has the others before it. -/
theorem shows_next {a : Array α} {w : Walk α} {items : List α} (hw : n.Shows a w items) :
    ∃ w', Reading.next w = .ok (items.head?, w') ∧ w.next = (items.head?, w') ∧
      n.Shows a w' items.tail := by
  obtain ⟨data, cursor⟩ := w
  obtain ⟨rfl, q, hq, hitems⟩ := hw
  obtain ⟨hp, hrest⟩ := h.follows_next hq
  have hhead : items.head?.map some = cursor.next.1.map (data[·]?) := by
    rw [hp, ← List.head?_map, hitems, List.head?_map]
  refine ⟨⟨data, cursor.next.2⟩, ?_, ?_, rfl, q.tail, hrest, ?_⟩
  · show (do return (← Reading.fetch? data cursor.next.1, _)) = _
    rw [Reading.fetch?_eq hhead]
    rfl
  · rw [Walk.next_eq, Reading.eq_bind_of_map_some hhead]
  · rw [List.map_tail, hitems, List.map_tail]

/-- **One step at the back.** -/
theorem shows_nextBack {a : Array α} {w : Walk α} {items : List α} (hw : n.Shows a w items) :
    ∃ w', Reading.nextBack w = .ok (items.getLast?, w') ∧ w.nextBack = (items.getLast?, w') ∧
      n.Shows a w' items.dropLast := by
  obtain ⟨data, cursor⟩ := w
  obtain ⟨rfl, q, hq, hitems⟩ := hw
  obtain ⟨hchecked, hp, hrest⟩ := h.follows_nextBack hq
  have hlast : items.getLast?.map some = cursor.nextBack.1.map (data[·]?) := by
    rw [hp, ← List.getLast?_map, hitems, List.getLast?_map]
  refine ⟨⟨data, cursor.nextBack.2⟩, ?_, ?_, rfl, q.dropLast, hrest, ?_⟩
  · rw [Reading.nextBack, hchecked, Checked.ok_bind]
    dsimp only
    rw [Reading.fetch?_eq hlast]
    rfl
  · rw [Walk.nextBack_eq, Reading.eq_bind_of_map_some hlast]
  · rw [List.map_dropLast, hitems, List.map_dropLast]

/-- At the back, a walk has its elements before it in the opposite order. -/
theorem shows_nextBack_reverse {a : Array α} {w : Walk α} {items : List α}
    (hw : n.Shows a w items.reverse) :
    ∃ w', Reading.nextBack w = .ok (items.head?, w') ∧ w.nextBack = (items.head?, w') ∧
      n.Shows a w' items.tail.reverse := by
  have hstep := h.shows_nextBack hw
  rwa [List.getLast?_reverse, List.dropLast_reverse] at hstep

/-- A walk is taken from as the list of its elements is. -/
theorem takeAt_simulates (a : Array α) :
    Traversal.Simulates (n.Shows a) Reading.takeAt End.takeFrom := by
  intro w items e hw
  cases e with
  | front =>
      obtain ⟨w', hnext, -, hw'⟩ := h.shows_next hw
      exact ⟨items.head?, w', items.tail, hnext, rfl, hw'⟩
  | back =>
      obtain ⟨w', hnextBack, -, hw'⟩ := h.shows_nextBack hw
      exact ⟨items.getLast?, w', items.dropLast, hnextBack, rfl, hw'⟩

/-- The elements at the selected positions, which are all there. -/
theorem exists_shows {a : Array α} (hle : len ≤ a.size) :
    ∃ items, n.Shows a (View.mk a n).walk items ∧
      items.map some = n.cursor.toList.map (a[·]?) := by
  have hitems := View.map_some_toArray (v := ⟨a, n⟩) h hle
  rw [n.toList_positions] at hitems
  refine ⟨_, ⟨rfl, n.cursor.toList, ?_, hitems⟩, hitems⟩
  rw [← h.positionsFrom_eq_toList_cursor]
  exact n.follows_cursor

end Selection.Resolved

/-- The size hint of a walk is exact. -/
theorem Selection.Shows.sizeHint {n : Selection} {a : Array α} {w : Walk α} {items : List α}
    (hw : n.Shows a w items) : w.cursor.sizeHint = (items.length, some items.length) := by
  obtain ⟨q, ⟨done, left, -, hcursor, rfl⟩, hitems⟩ := hw.follows
  have hlength := congrArg List.length hitems
  rw [List.length_map, List.length_map, n.length_positionsFrom] at hlength
  rw [hcursor, hlength]
  rfl

/-! ### All reads of a view -/

/-- All reads of a view are reads of one list. -/
structure View.ReadAs (v : View α) (items : List α) : Prop where
  size : v.size = items.length
  get : ∀ i, Reading.get? v i = .ok items[i]? ∧ v.get? i = items[i]?
  toArray : Reading.toArray v = .ok items.toArray ∧ v.toArray = items.toArray
  toReversedArray :
    Reading.toReversedArray v = .ok items.reverse.toArray ∧
      v.toReversedArray = items.reverse.toArray
  /-- Both ends of a walk are those of the list, in whatever order they are taken from. The
  walk knows how many elements are left, and each of them is taken once. -/
  ends : ∀ ends, ∃ replies w left,
    Traversal.run Reading.takeAt v.walk ends = .ok (replies, w) ∧
      Traversal.run End.takeFrom items ends = .ok (replies, left) ∧
      w.cursor.sizeHint = (left.length, some left.length) ∧
      End.takenAt .front ends replies ++ left ++ (End.takenAt .back ends replies).reverse =
        items ∧
      left.length = items.length - ends.length

namespace View

theorem ReadAs.size_toArray {v : View α} {items : List α} (h : v.ReadAs items) :
    v.toArray.size = v.size := by
  rw [h.toArray.2, List.size_toArray, h.size]

section Resolved

variable {n : Selection} {len : Nat} (h : n.Resolved len) {a : Array α} {items : List α}
  (hitems : items.map some = n.cursor.toList.map (a[·]?))

include hitems in
/-- The elements have the numbers of their positions. -/
theorem map_some_getElem? (i : Nat) :
    items[i]?.map some = (n.position? i).map (a[·]?) := by
  rw [← List.getElem?_map, hitems, List.getElem?_map, n.getElem?_toList_cursor]

include h

include hitems in
theorem get?_eq (i : Nat) :
    Reading.get? ⟨a, n⟩ i = .ok items[i]? ∧ (View.mk a n).get? i = items[i]? := by
  have hget := map_some_getElem? hitems i
  refine ⟨?_, (Reading.eq_bind_of_map_some hget).symm⟩
  rw [Reading.get?, h.checked_position?, Checked.ok_bind]
  exact Reading.fetch?_eq hget

/-- A view shows the elements at its positions. -/
theorem readAs (hitems : items.map some = n.cursor.toList.map (a[·]?))
    (hw : n.Shows a (View.mk a n).walk items) : (View.mk a n).ReadAs items := by
  have hsize : n.count = items.length := by
    have hlength := congrArg List.length hitems
    rw [List.length_map, List.length_map, Cursor.length_toList] at hlength
    exact hlength.symm
  refine ⟨hsize, get?_eq h hitems, ?_, ?_, fun ends => ?_⟩
  · exact Reading.collects (fun _ _ => h.shows_next) hw hsize.ge
  · have hback : n.Shows a (View.mk a n).walk items.reverse.reverse := by
      rwa [List.reverse_reverse]
    exact Reading.collects (fun _ _ => h.shows_nextBack_reverse) hback
      (List.length_reverse.trans hsize.symm).le
  · obtain ⟨replies, w, left, hrun, hlist, hleft⟩ :=
      Traversal.run_simulates (h.takeAt_simulates a) _ _ ends hw
    obtain ⟨replies', left', hlist', honce, hlength⟩ := End.run_takeFrom items ends
    cases hlist.symm.trans hlist'
    exact ⟨replies, w, left, hrun, hlist, hleft.sizeHint, honce, hlength⟩

end Resolved

/-- Whoever is handed the view of a slice has a list that it shows, and a walk that is about to
show it. -/
theorem exists_readAs {a : Array α} {s : Slice} {v : View α} (hv : ofSlice a s = .ok v) :
    ∃ items len, v.selection.Resolved len ∧ v.selection.Shows a v.walk items ∧
      v.ReadAs items := by
  rw [ofSlice_eq] at hv
  cases hn : s.resolve a.size with
  | error e => rw [hn] at hv; cases hv
  | ok n =>
      rw [hn] at hv
      cases hv
      have h := Slice.resolved_of_resolve hn
      obtain ⟨items, hw, hitems⟩ := h.exists_shows (Nat.min_le_left _ _)
      exact ⟨items, _, h, hw, readAs h hitems hw⟩

/-- **All reads of a view agree**, for every array and every slice. A zero step is refused. Any
other slice makes a view of the elements at its positions, in their order, and all reads of
the view are reads of these elements: by number, in either direction, and from both ends of a
walk. The reads of a machine that checks every index and every word are the same. -/
theorem reads_agree (a : Array α) (s : Slice) :
    (s.step = some 0 →
        ofSlice a s = .error .zeroStep ∧ Reading.view a s = .error (.refused .zeroStep)) ∧
      (s.step ≠ some 0 →
        ∃ n items, s.resolve a.size = .ok n ∧ ofSlice a s = .ok ⟨a, n⟩ ∧
          Reading.view a s = .ok ⟨a, n⟩ ∧
          items.map some = (List.range n.count).map (fun i => (n.position? i).bind (a[·]?)) ∧
          (View.mk a n).ReadAs items) := by
  refine ⟨fun hzero => ?_, fun hstep => ?_⟩
  · have herror : s.resolve a.size = .error .zeroStep :=
      Slice.resolve_eq_error_iff.mpr ⟨hzero, rfl⟩
    rw [Reading.view_eq, ofSlice_eq, herror]
    exact ⟨rfl, rfl⟩
  · obtain ⟨n, hn, h, -⟩ := Slice.exists_resolve a.size hstep
    obtain ⟨items, hw, hitems⟩ := h.exists_shows (Nat.min_le_left _ _)
    refine ⟨n, items, hn, ?_, ?_, ?_, readAs h hitems hw⟩
    · rw [ofSlice_eq, hn]
      rfl
    · rw [Reading.view_eq, ofSlice_eq, hn]
      rfl
    · have hnumbered := congrArg (List.map (·.bind (a[·]?))) h.map_some_positionsFrom
      rw [List.map_map, List.map_map, h.positionsFrom_eq_toList_cursor] at hnumbered
      exact hitems.trans hnumbered

/-- Two elements from the back of a sequence, the later one first. -/
theorem reads_agree_from_back :
    Slice.resolve ⟨some (-2), some (-6), some (-3)⟩ 10 = .ok ⟨8, 4, -3, 2⟩ ∧
      (View.mk #[0, 1, 2, 3, 4, 5, 6, 7, 8, 9] ⟨8, 4, -3, 2⟩).ReadAs [8, 5] := by
  obtain ⟨n, items, hn, -, -, hitems, hread⟩ :=
    (reads_agree #[0, 1, 2, 3, 4, 5, 6, 7, 8, 9] ⟨some (-2), some (-6), some (-3)⟩).2
      (by decide)
  obtain rfl : n = ⟨8, 4, -3, 2⟩ := Except.ok.inj (hn.symm.trans rfl)
  obtain rfl : items = [8, 5] := List.map_injective_iff.mpr (Option.some_injective _) hitems
  exact ⟨hn, hread⟩

end View

end StridedSlice
