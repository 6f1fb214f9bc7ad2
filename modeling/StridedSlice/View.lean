import StridedSlice.Cursor
import StridedSlice.Traced
/-!
# StridedSlice.View

A **view** reads an array through a slice without copying it: the array and the
selection of the slice. Elements can be asked for one by one, collected, or taken
from both ends by a `Walk`, which is a cursor over the view.
-/

namespace StridedSlice

/-- An array seen through a selection of its positions. -/
structure View (α : Type) where
  /-- The whole array. -/
  data : Array α
  /-- The positions seen. -/
  selection : Selection

namespace View

variable {α : Type}

/-- The view `a[s]`, with what is logged. -/
def ofSliceTraced (a : Array α) (s : Slice) : Traced (View α) := do
  let selection ← s.resolveTraced a.size
  pure ⟨a, selection⟩

/-- The view `a[s]`. -/
def ofSlice (a : Array α) (s : Slice) : Except SliceError (View α) :=
  (ofSliceTraced a s).result

/-- Number of elements seen. -/
def size (v : View α) : Nat := v.selection.count

/-- True when the view shows nothing. -/
def isEmpty (v : View α) : Bool := v.selection.isEmpty

/-- The `i`-th element seen. -/
def get? (v : View α) (i : Nat) : Option α :=
  (v.selection.position? i).bind fun p => v.data[p]?

theorem ofSlice_eq (a : Array α) (s : Slice) :
    ofSlice a s = (s.resolve a.size).map fun selection => ⟨a, selection⟩ := by
  unfold ofSlice ofSliceTraced
  simp only [Traced.result_bind, Slice.result_resolveTraced, Traced.result_pure]
  cases s.resolve a.size <;> rfl

end View

/-- The elements of a view that have not been taken yet. -/
structure Walk (α : Type) where
  /-- The whole array. -/
  data : Array α
  /-- The positions that are left. -/
  cursor : Cursor

namespace Walk

variable {α : Type}

/-- Number of elements left. -/
def remaining (w : Walk α) : Nat := w.cursor.remaining

/-- Takes the element at the front. -/
def next (w : Walk α) : Option α × Walk α :=
  match w.cursor.next with
  | (none, c) => (none, { w with cursor := c })
  | (some p, c) => (w.data[p]?, { w with cursor := c })

/-- Takes the element at the back. -/
def nextBack (w : Walk α) : Option α × Walk α :=
  match w.cursor.nextBack with
  | (none, c) => (none, { w with cursor := c })
  | (some p, c) => (w.data[p]?, { w with cursor := c })

/-- Collects at most `n` elements onto `acc`, each taken by `takeOne`. -/
def collect (takeOne : Walk α → Option α × Walk α) : Nat → Walk α → Array α → Array α
  | 0, _, acc => acc
  | n + 1, w, acc =>
      match takeOne w with
      | (none, _) => acc
      | (some v, w) => collect takeOne n w (acc.push v)

/-- The elements that are left, from the front. -/
def toArray (w : Walk α) : Array α := collect next w.remaining w #[]

/-- The elements that are left, from the back. -/
def toReversedArray (w : Walk α) : Array α := collect nextBack w.remaining w #[]

end Walk

namespace View

variable {α : Type}

/-- A fresh walk over the view. -/
def walk (v : View α) : Walk α := ⟨v.data, v.selection.cursor⟩

/-- The elements seen, in order. -/
def toArray (v : View α) : Array α := v.walk.toArray

/-- The elements seen, in the opposite order. -/
def toReversedArray (v : View α) : Array α := v.walk.toReversedArray

end View

end StridedSlice
