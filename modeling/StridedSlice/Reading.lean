import StridedSlice.Checked
import StridedSlice.View
/-!
# StridedSlice.Reading

**Reads under the checks of a machine.** `View` and `Walk` answer for the elements that are
there. Here an index outside the array is a fault, and so is a word that overflows on the way
to the index. That no read of a view is one, and that every read gives what `View` and `Walk`
give, is proved in `StridedSlice.Proofs.Reading`.

* `fetch` reads one element of an array;
* `view` resolves a slice in the arithmetic of `Checked`;
* `get?` asks a view for an element by its number;
* `next` and `nextBack` take an element from an end of a walk, `toArray` and
  `toReversedArray` take all of them.
-/

namespace StridedSlice.Reading

variable {α : Type}

/-- The element at an index of an array. -/
def fetch (a : Array α) (p : Nat) : Except Stop α :=
  if h : p < a.size then .ok a[p] else .error .fault

/-- The element at a position, if there is a position. -/
def fetch? (a : Array α) : Option Nat → Except Stop (Option α)
  | none => return none
  | some p => return some (← fetch a p)

/-- The view `a[s]`. -/
def view (a : Array α) (s : Slice) : Except Stop (View α) := do
  return ⟨a, ← Checked.resolve s a.size⟩

/-- The `i`-th element seen. -/
def get? (v : View α) (i : Nat) : Except Stop (Option α) := do
  fetch? v.data (← Checked.position? v.selection i)

/-- Takes the element at the front of a walk. -/
def next (w : Walk α) : Except Stop (Option α × Walk α) := do
  let (p, c) := w.cursor.next
  return (← fetch? w.data p, ⟨w.data, c⟩)

/-- Takes the element at the back of a walk. -/
def nextBack (w : Walk α) : Except Stop (Option α × Walk α) := do
  let (p, c) ← Checked.nextBack w.cursor
  return (← fetch? w.data p, ⟨w.data, c⟩)

/-- Collects at most `n` elements onto `acc`, each taken by `takeOne`. -/
def collect (takeOne : Walk α → Except Stop (Option α × Walk α)) :
    Nat → Walk α → Array α → Except Stop (Array α)
  | 0, _, acc => return acc
  | n + 1, w, acc => do
      match ← takeOne w with
      | (none, _) => return acc
      | (some v, w) => collect takeOne n w (acc.push v)

/-- The elements seen, in order. -/
def toArray (v : View α) : Except Stop (Array α) := collect next v.size v.walk #[]

/-- The elements seen, in the opposite order. -/
def toReversedArray (v : View α) : Except Stop (Array α) := collect nextBack v.size v.walk #[]

end StridedSlice.Reading
