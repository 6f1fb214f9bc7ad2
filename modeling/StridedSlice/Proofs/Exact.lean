import StridedSlice.Proofs.Traversal
/-!
# StridedSlice.Proofs.Exact

**Index arithmetic is exact.** The engine computes on words, and a machine that looks for
overflow sees some of what can go wrong: sums, differences, products, negations and quotients
(`Checked`). It does not see a number that changes as it is taken for a word or for a size,
nor a sum that is meant to wrap. `Exact` is the same arithmetic with all of these as faults. It
agrees with the engine on every input, so whatever the engine computes on the way is the exact
integer.

* `signed`, `unsigned` and `length` carry numbers between words and sizes;
* `resolve`, `position?` and `last?` follow `Slice.resolve` and the accessors of a selection;
* `next`, `skipNext`, `nextBack` and `skipNextBack` follow the operations of a cursor. The front
  may wrap only as the last position is taken, when it is not read again.

A cursor that has passed some positions is at a term of the progression, and all terms that are
still to come are positions. `Selection.Resolved.exact_move` is the one step of the arithmetic
that all operations of a cursor share: from one such term to a later one.
-/

namespace StridedSlice

namespace Exact

/-- The word for a size. -/
def signed (n : Nat) : Except Stop Int64 := Checked.word n

/-- The size that a word stands for. -/
def unsigned (w : Int64) : Except Stop Nat :=
  if 0 ≤ w.toInt then .ok w.toInt.toNat else .error .fault

/-- A number of positions, which is one that a signed word can hold. -/
def length (n : Nat) : Except Stop Nat := do
  let _ ← signed n
  Checked.size n

/-- The number of positions from `near` on and before `far` at a distance of `stride`. -/
def countBetween (near far stride : Int64) : Except Stop Nat :=
  if near < far then do
    let quotient ← Checked.div (← Checked.sub (← Checked.sub far near) 1) stride
    length ((← unsigned quotient) + 1)
  else
    return 0

/-- The number of positions of a selection, from its bounds and its step. -/
def count (n : Selection) : Except Stop Nat :=
  if 0 < n.step then countBetween n.start n.stop n.step
  else do countBetween n.stop n.start (← Checked.neg n.step)

/-- Resolves a slice against a sequence of `len` elements. The bounds are those of `Checked`,
which carries no number from one kind to another on the way to them. -/
def resolve (s : Slice) (len : Nat) : Except Stop Selection := do
  let n ← Checked.resolve s len
  let _ ← signed (Slice.effectiveLength len)
  return { n with count := ← count n }

/-- The word that lies `n` steps behind another. -/
def move (front step : Int64) (n : Nat) : Except Stop Int64 := do
  Checked.add front (← Checked.mul (← signed n) step)

/-- The `i`-th selected position. -/
def position? (n : Selection) (i : Nat) : Except Stop (Option Nat) :=
  if i < n.count then do
    return some (← unsigned (← move n.start n.step i))
  else
    return none

/-- The last selected position. -/
def last? (n : Selection) : Except Stop (Option Nat) :=
  match n.count with
  | 0 => return none
  | last + 1 => position? n last

/-- The front of a cursor one step further, where `left` positions are left. -/
def advance (front step : Int64) (left : Nat) : Except Stop Int64 :=
  if left = 0 then return front + step else Checked.add front step

/-- Takes the position at the front of a cursor. -/
def next (c : Cursor) : Except Stop (Option Nat × Cursor) :=
  match c.remaining with
  | 0 => return (none, c)
  | n + 1 => do
      let front ← advance c.front c.step n
      return (some (← unsigned c.front), ⟨front, c.step, n⟩)

/-- Drops `n` positions at the front of a cursor and takes the one after them. -/
def skipNext (c : Cursor) (n : Nat) : Except Stop (Option Nat × Cursor) :=
  if c.remaining ≤ n then
    return (none, c.exhaust)
  else do
    next ⟨← move c.front c.step n, c.step, c.remaining - n⟩

/-- Takes the position at the back of a cursor. -/
def nextBack (c : Cursor) : Except Stop (Option Nat × Cursor) :=
  match c.remaining with
  | 0 => return (none, c)
  | n + 1 => do
      return (some (← unsigned (← move c.front c.step n)), { c with remaining := n })

/-- Drops `n` positions at the back of a cursor, one after the other, and takes the one
before them. -/
def skipNextBack (c : Cursor) : Nat → Except Stop (Option Nat × Cursor)
  | 0 => nextBack c
  | n + 1 => do
      match ← nextBack c with
      | (none, c) => return (none, c)
      | (some _, c) => skipNextBack c n

/-- A cursor as it would run in exact arithmetic. -/
def ask (c : Cursor) : Traversal.Request → Except Stop (Traversal.Reply × Cursor)
  | .next => (next c).map fun r => (.position r.1, r.2)
  | .nextBack => (nextBack c).map fun r => (.position r.1, r.2)
  | .skipNext n => (skipNext c n).map fun r => (.position r.1, r.2)
  | .skipNextBack n => (skipNextBack c n).map fun r => (.position r.1, r.2)
  | .length => (Checked.length c).map fun n => (.length n, c)
  | .sizeHint => .ok (.bounds c.sizeHint, c)

/-! ### Numbers that change their kind -/

theorem signed_eq {n : Nat} (h : n ≤ maxLength) : signed n = .ok (Int64.ofNat n) := by
  have hfits : FitsWord (n : Int) := by
    unfold maxLength at h
    unfold FitsWord
    omega
  rw [signed, Checked.word_eq hfits, Int64.ofInt_eq_ofNat]

theorem unsigned_eq {w : Int64} (h : 0 ≤ w.toInt) :
    unsigned w = .ok (Selection.positionOf w) := by
  rw [unsigned, if_pos h, Selection.positionOf_of_nonneg h]

theorem length_eq {n : Nat} (h : n ≤ maxLength) : length n = .ok n := by
  have hsize : n < UInt64.size := by
    unfold maxLength at h
    unfold UInt64.size
    omega
  rw [length, signed_eq h, Checked.ok_bind, Checked.size, if_pos hsize]

/-! ### Resolving -/

theorem quotient_nonneg {a b : Int64} (ha : 0 ≤ a.toInt) (hb : 0 < b.toInt) :
    0 ≤ (a / b).toInt := by
  have hne : b ≠ -1 := by
    rintro rfl
    exact absurd hb (by decide)
  rw [Int64.toInt_div_of_ne_right _ _ hne]
  exact Int.tdiv_nonneg ha hb.le

/-- There are no more positions in a span than its length, which is a word. -/
theorem countIn_le {span stride : Int64} (hspan : 0 < span.toInt) (hstride : 0 < stride.toInt) :
    Selection.countIn span stride ≤ maxLength := by
  have hcount := Selection.countIn_eq hspan hstride
  have hle : (span.toInt - 1) / stride.toInt ≤ span.toInt - 1 :=
    Int.ediv_le_self _ (by omega)
  have hword := (fitsWord_toInt span).2
  unfold maxLength
  omega

theorem countBetween_eq {near far stride : Int64} (hfits : FitsWord (far.toInt - near.toInt))
    (hstride : 0 < stride.toInt) :
    countBetween near far stride =
      .ok (if near < far then Selection.countIn (far - near) stride else 0) := by
  unfold countBetween
  by_cases h : near < far
  · have hlt : near.toInt < far.toInt := Int64.lt_iff_toInt_lt.mp h
    have hspan : (far - near).toInt = far.toInt - near.toInt := toInt_sub_of_fits hfits
    have hpos : 0 < (far - near).toInt := by omega
    have hless : (far - near - 1).toInt = (far - near).toInt - 1 := toInt_sub_one hpos.le
    have hone : FitsWord ((far - near).toInt - (1 : Int64).toInt) := by
      rw [Int64.toInt_one, ← hless]
      exact fitsWord_toInt _
    rw [if_pos h, if_pos h, Checked.sub_eq hfits, Checked.ok_bind, Checked.sub_eq hone,
      Checked.ok_bind, Checked.div_eq (by omega) hstride, Checked.ok_bind,
      unsigned_eq (quotient_nonneg (by omega) hstride), Checked.ok_bind]
    exact length_eq (countIn_le hpos hstride)
  · rw [if_neg h, if_neg h]
    rfl

/-- The count that a resolved slice has is the one that its bounds and its step give. -/
theorem count_eq {n : Selection} {len : Nat} (h : n.Resolved len)
    (hneg : FitsWord (-n.step.toInt)) : count n = .ok n.count := by
  have hup : 0 < n.step ↔ 0 < n.step.toInt := Int64.lt_iff_toInt_lt
  unfold count
  rcases h.bounds with ⟨hpos, -⟩ | ⟨hdown, -⟩
  · have hspan := h.fits_span_up hpos
    rw [if_pos (hup.mpr hpos), countBetween_eq hspan hpos]
    congr 1
    refine eq_of_forall_lt_iff fun i => ?_
    rw [Selection.lt_spanCount_iff hspan hpos, h.lt_count_iff, before_of_pos hpos]
    unfold Selection.term
    omega
  · have hspan := h.fits_span_down hdown
    have hstride : (-n.step).toInt = -n.step.toInt := toInt_neg_of_fits hneg
    have hnot : ¬ 0 < n.step := fun h' => absurd (hup.mp h') (by omega)
    rw [if_neg hnot, Checked.neg_eq hneg, Checked.ok_bind, countBetween_eq hspan (by omega)]
    congr 1
    refine eq_of_forall_lt_iff fun i => ?_
    rw [Selection.lt_spanCount_iff hspan (by omega), h.lt_count_iff, before_of_neg hdown,
      hstride, Int.mul_neg]
    unfold Selection.term
    omega

/-- **Resolving is exact**, and a refusal is its only other outcome. -/
theorem resolve_eq (s : Slice) (len : Nat) :
    resolve s len = (s.resolve len).mapError Stop.refused := by
  unfold resolve
  rw [Checked.resolve_eq]
  cases hresolve : s.resolve len with
  | error e => rfl
  | ok n =>
      have hresolved := Slice.resolved_of_resolve hresolve
      obtain ⟨n', hn', -, hstep, -⟩ :=
        Slice.exists_resolve len (Slice.step_ne_zero_of_resolve hresolve)
      obtain rfl : n = n' := Except.ok.inj (hresolve.symm.trans hn')
      have hneg : FitsWord (-n.step.toInt) := by
        have hword := (fitsWord_toInt n.step).2
        unfold FitsWord
        omega
      show (do let _ ← signed _; return { n with count := ← count n }) = Except.ok n
      rw [signed_eq hresolved.len_le, Checked.ok_bind, count_eq hresolved hneg, Checked.ok_bind]
      rfl

end Exact

/-! ### Positions and cursors -/

/-- Two cursors in one state, and a traversal can be in it. -/
def Selection.InStep (n : Selection) (c c' : Cursor) : Prop := c = c' ∧ ∃ q, n.Follows c q

namespace Selection.Resolved

variable {n : Selection} {len : Nat} (h : n.Resolved len) {done left : Nat}
include h

/-- **One step of the arithmetic**: from a term to a later one, both of them positions. -/
theorem exact_move {k : Nat} (hk : done + k < n.count) :
    Exact.move (Int64.ofInt (n.term done)) n.step k =
      .ok (Int64.ofInt (n.term (done + k))) := by
  have hlen := h.len_le
  have hcount := h.count_le
  rw [Exact.move, Exact.signed_eq (by omega), Checked.ok_bind, h.checked_distance hk,
    Checked.ok_bind, h.checked_advance hk]

/-- A term that is counted is a size. -/
theorem unsigned_term {i : Nat} (hi : i < n.count) :
    Exact.unsigned (Int64.ofInt (n.term i)) = .ok (n.term i).toNat := by
  have hnonneg : 0 ≤ (Int64.ofInt (n.term i)).toInt := by
    rw [h.toInt_ofInt_term hi]
    exact h.term_nonneg hi
  rw [Exact.unsigned_eq hnonneg, h.positionOf_ofInt_term hi]

theorem exact_position? (i : Nat) : Exact.position? n i = .ok (n.position? i) := by
  unfold Exact.position? position?
  by_cases hi : i < n.count
  · have hstart : n.start = Int64.ofInt (n.term 0) := by simp [term]
    have hmove : Exact.move (Int64.ofInt (n.term 0)) n.step i =
        .ok (Int64.ofInt (n.term (0 + i))) := h.exact_move (by omega)
    rw [← hstart, Nat.zero_add] at hmove
    rw [if_pos hi, if_pos hi, hmove, Checked.ok_bind, h.unsigned_term hi, Checked.ok_bind,
      h.positionOf_term hi]
    rfl
  · rw [if_neg hi, if_neg hi]
    rfl

theorem exact_last? : Exact.last? n = .ok n.last? := by
  unfold Exact.last? last?
  cases n.count with
  | zero => rfl
  | succ last => exact h.exact_position? last

/-- The front moves on to the next term, exactly as long as a position is left. -/
theorem exact_advance (hleft : done + (left + 1) ≤ n.count) :
    Exact.advance (Int64.ofInt (n.term done)) n.step left =
      .ok (Int64.ofInt (n.term (done + 1))) := by
  unfold Exact.advance
  split_ifs with hlast
  · have hwrap : Int64.ofInt (n.term done) + n.step = Int64.ofInt (n.term (done + 1)) := by
      simpa using n.ofInt_term_add done 1
    rw [hwrap]
    rfl
  · have hone : Checked.add (Int64.ofInt (n.term done)) (Int64.ofNat 1 * n.step) =
        .ok (Int64.ofInt (n.term (done + 1))) := h.checked_advance (by omega)
    simpa using hone

theorem exact_next (hleft : done + left ≤ n.count) :
    Exact.next (n.cursorFrom done left) = .ok (n.cursorFrom done left).next := by
  cases left with
  | zero => rfl
  | succ left =>
      rw [h.next_cursorFrom hleft, cursorFrom, Exact.next]
      dsimp only
      rw [h.exact_advance hleft, Checked.ok_bind, h.unsigned_term (by omega), Checked.ok_bind]
      rfl

theorem exact_nextBack (hleft : done + left ≤ n.count) :
    Exact.nextBack (n.cursorFrom done left) = Checked.nextBack (n.cursorFrom done left) := by
  cases left with
  | zero => rfl
  | succ left =>
      have hback : done + left < n.count := by omega
      rw [h.checked_nextBack hleft, h.nextBack_cursorFrom hleft, cursorFrom, Exact.nextBack]
      dsimp only
      rw [h.exact_move hback, Checked.ok_bind, h.unsigned_term hback, Checked.ok_bind]
      rfl

theorem exact_skipNext (hleft : done + left ≤ n.count) (k : Nat) :
    Exact.skipNext (n.cursorFrom done left) k = .ok ((n.cursorFrom done left).skipNext k) := by
  rcases Nat.lt_or_ge k left with hk | hk
  · have hnot : ¬ (n.cursorFrom done left).remaining ≤ k := Nat.not_le_of_lt hk
    have hnext : Exact.next (n.cursorFrom (done + k) (left - k)) =
        .ok (n.cursorFrom (done + k) (left - k)).next := h.exact_next (by omega)
    rw [Exact.skipNext, if_neg hnot, Cursor.skipNext, if_neg hnot]
    dsimp only [cursorFrom] at hnext ⊢
    rw [h.exact_move (by omega), Checked.ok_bind, n.ofInt_term_add, hnext]
  · have hremaining : (n.cursorFrom done left).remaining ≤ k := hk
    rw [Exact.skipNext, if_pos hremaining, Cursor.skipNext, if_pos hremaining]
    rfl

theorem exact_skipNextBack (hleft : done + left ≤ n.count) (k : Nat) :
    Exact.skipNextBack (n.cursorFrom done left) k =
      Checked.skipNextBack (n.cursorFrom done left) k := by
  induction k generalizing left with
  | zero => exact h.exact_nextBack hleft
  | succ k ih =>
      rw [Exact.skipNextBack, Checked.skipNextBack, h.exact_nextBack hleft,
        h.checked_nextBack hleft, Checked.ok_bind, Checked.ok_bind]
      cases left with
      | zero => rfl
      | succ left =>
          rw [h.nextBack_cursorFrom hleft]
          exact ih (by omega)

/-- **One request** is answered in exact arithmetic as it is on words. -/
theorem exact_ask {c : Cursor} {q : List Nat} (hc : n.Follows c q)
    (request : Traversal.Request) : Exact.ask c request = c.ask request := by
  obtain ⟨done, left, hleft, rfl, -⟩ := hc
  cases request with
  | next => rw [Exact.ask, h.exact_next hleft]; rfl
  | nextBack => rw [Exact.ask, h.exact_nextBack hleft]; rfl
  | skipNext k => rw [Exact.ask, h.exact_skipNext hleft]; rfl
  | skipNextBack k => rw [Exact.ask, h.exact_skipNextBack hleft]; rfl
  | length => rfl
  | sizeHint => rfl

theorem exact_simulates : Traversal.Simulates n.InStep Exact.ask Cursor.ask := by
  rintro c _ request ⟨rfl, q, hc⟩
  obtain ⟨reply, c', q', hask, -, hc'⟩ := h.ask_simulates c q request hc
  exact ⟨reply, c', c', (h.exact_ask hc request).trans hask, hask, rfl, q', hc'⟩

end Selection.Resolved

/-- **All index arithmetic is exact**, for every slice and every length. Resolving does the same
when every operation has to give the exact integer and every number that is taken for a word
or a size has to keep its value; so do the positions of the selection, the last one, and a
cursor over them after whatever requests at both ends. Only the sum that leaves the front of a
cursor behind the last position is free to wrap. -/
theorem Slice.arithmetic_exact (s : Slice) (len : Nat) :
    Exact.resolve s len = (s.resolve len).mapError Stop.refused ∧
      ∀ n, s.resolve len = .ok n →
        (∀ i, Exact.position? n i = .ok (n.position? i)) ∧ Exact.last? n = .ok n.last? ∧
          ∀ requests, ∃ replies c, Traversal.run Exact.ask n.cursor requests = .ok (replies, c) ∧
            Traversal.run Cursor.ask n.cursor requests = .ok (replies, c) := by
  refine ⟨Exact.resolve_eq s len, fun n hn => ?_⟩
  have hresolved := Slice.resolved_of_resolve hn
  refine ⟨hresolved.exact_position?, hresolved.exact_last?, fun requests => ?_⟩
  obtain ⟨replies, c, _, hexact, hrun, rfl, -⟩ :=
    Traversal.run_simulates hresolved.exact_simulates n.cursor n.cursor requests
      ⟨rfl, _, n.follows_cursor⟩
  exact ⟨replies, c, hexact, hrun⟩

/-- With the greatest step the front wraps as the only position is taken, and nothing is read
at the place where it ends up. -/
theorem Slice.arithmetic_exact_wrapping :
    Slice.resolve ⟨some 5, none, some Int64.maxValue⟩ 10 = .ok ⟨5, 10, Int64.maxValue, 1⟩ ∧
      ∃ replies c,
        Traversal.run Exact.ask (Selection.mk 5 10 Int64.maxValue 1).cursor [.next, .nextBack] =
            .ok (replies, c) ∧
          Traversal.run Cursor.ask (Selection.mk 5 10 Int64.maxValue 1).cursor
            [.next, .nextBack] = .ok (replies, c) :=
  ⟨rfl, ((Slice.arithmetic_exact ⟨some 5, none, some Int64.maxValue⟩ 10).2 _ rfl).2.2 _⟩

end StridedSlice
