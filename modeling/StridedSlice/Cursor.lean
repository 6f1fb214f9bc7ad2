import StridedSlice.Selection
/-!
# StridedSlice.Cursor

A **cursor** walks the positions of a selection from both ends. It keeps only the
next front position, the step, and the number of positions left; the back end is
computed when it is asked for. Cursors are values: using one never affects
another, so keeping the old cursor is how a walk is repeated.

* `next`, `nextBack` take one position from an end;
* `skipNext`, `skipNextBack` drop some positions first, and exhaust the cursor
  when there are too few;
* `sizeHint` tells how many are left;
* `take`, `takeBack` collect positions from an end, `foldl` consumes all of them;
* `toList` is the view that statements about cursors use.
-/

namespace StridedSlice

/-- The positions of a selection that have not been taken yet. -/
structure Cursor where
  /-- The position the front end yields next. Once nothing remains it may lie
  outside the sequence, and is never read again. -/
  front : Int64
  /-- Distance between neighbouring positions. -/
  step : Int64
  /-- Number of positions left. -/
  remaining : Nat
  deriving Repr, DecidableEq, Inhabited

namespace Cursor

/-- Takes the position at the front. -/
def next (c : Cursor) : Option Nat × Cursor :=
  match c.remaining with
  | 0 => (none, c)
  | n + 1 => (some (Selection.positionOf c.front), ⟨c.front + c.step, c.step, n⟩)

/-- Takes the position at the back. -/
def nextBack (c : Cursor) : Option Nat × Cursor :=
  match c.remaining with
  | 0 => (none, c)
  | n + 1 =>
      (some (Selection.positionOf (c.front + Int64.ofNat n * c.step)), ⟨c.front, c.step, n⟩)

/-- The cursor with nothing left. -/
def exhaust (c : Cursor) : Cursor := { c with remaining := 0 }

/-- Drops `n` positions at the front and takes the one after them. -/
def skipNext (c : Cursor) (n : Nat) : Option Nat × Cursor :=
  if c.remaining ≤ n then
    (none, c.exhaust)
  else
    next ⟨c.front + Int64.ofNat n * c.step, c.step, c.remaining - n⟩

/-- Drops `n` positions at the back and takes the one before them. -/
def skipNextBack (c : Cursor) (n : Nat) : Option Nat × Cursor :=
  if c.remaining ≤ n then
    (none, c.exhaust)
  else
    nextBack { c with remaining := c.remaining - n }

/-- Bounds on the number of positions left. They are exact. -/
def sizeHint (c : Cursor) : Nat × Option Nat := (c.remaining, some c.remaining)

/-- Collects at most `n` positions onto `acc`, each taken by `takeOne`. -/
def collect (takeOne : Cursor → Option Nat × Cursor) : Nat → Cursor → Array Nat → Array Nat
  | 0, _, acc => acc
  | n + 1, c, acc =>
      match takeOne c with
      | (none, _) => acc
      | (some p, c) => collect takeOne n c (acc.push p)

/-- At most `n` positions from the front, in the order they are taken. -/
def take (c : Cursor) (n : Nat) : Array Nat := collect next n c #[]

/-- At most `n` positions from the back, in the order they are taken. -/
def takeBack (c : Cursor) (n : Nat) : Array Nat := collect nextBack n c #[]

/-- All positions that are left, from the front. -/
def toArray (c : Cursor) : Array Nat := c.take c.remaining

/-- The positions at `front`, `front + step`, …, of which there are `n`. -/
def listFrom (step : Int64) : Nat → Int64 → List Nat
  | 0, _ => []
  | n + 1, front => Selection.positionOf front :: listFrom step n (front + step)

/-- The positions that are left, as a list. -/
def toList (c : Cursor) : List Nat := listFrom c.step c.remaining c.front

/-- Feeds `f` the positions `front`, `front + step`, …, of which there are `n`. -/
def foldFrom {β : Type} (f : β → Nat → β) (step : Int64) : Nat → Int64 → β → β
  | 0, _, acc => acc
  | n + 1, front, acc => foldFrom f step n (front + step) (f acc (Selection.positionOf front))

/-- Feeds `f` the positions that are left, from the front. -/
def foldl {β : Type} (f : β → Nat → β) (init : β) (c : Cursor) : β :=
  foldFrom f c.step c.remaining c.front init

theorem toList_next {c : Cursor} {p : Nat} {rest : Cursor}
    (h : c.next = (some p, rest)) : c.toList = p :: rest.toList := by
  obtain ⟨front, step, remaining⟩ := c
  cases remaining with
  | zero => simp [next] at h
  | succ n =>
      simp only [next, Prod.mk.injEq, Option.some.injEq] at h
      obtain ⟨rfl, rfl⟩ := h
      rfl

@[simp] theorem length_toList (c : Cursor) : c.toList.length = c.remaining := by
  obtain ⟨front, step, remaining⟩ := c
  simp only [toList]
  induction remaining generalizing front with
  | zero => rfl
  | succ n ih => simp [listFrom, ih]

theorem foldl_eq_toList_foldl {β : Type} (f : β → Nat → β) (init : β) (c : Cursor) :
    c.foldl f init = c.toList.foldl f init := by
  obtain ⟨front, step, remaining⟩ := c
  simp only [foldl, toList]
  induction remaining generalizing front init with
  | zero => rfl
  | succ n ih => simp [foldFrom, listFrom, ih]

end Cursor

namespace Selection

/-- A fresh cursor over all selected positions. -/
def cursor (s : Selection) : Cursor := ⟨s.start, s.step, s.count⟩

/-- All selected positions, in order. -/
def positions (s : Selection) : Array Nat := s.cursor.toArray

end Selection

end StridedSlice
