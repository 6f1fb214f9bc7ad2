import StridedSlice.Checked
import StridedSlice.Store
/-!
# StridedSlice.InPlace

**Stores in place**, as callers see them who own the memory. A store is a computation on
the array: it writes one element after the other, and when it ends early, by a refusal or
by a fault of the machine, what it leaves behind is the array as it was at that moment.

`Store.assign` and `Store.assignAt` say what becomes of an array as a whole; that the
stores here do the same, and leave everything as it was when they are refused, is proved in
`StridedSlice.Proofs.InPlace`.

* `put` writes one element, and an index outside the array is a fault;
* a selection of step one is taken as one range of memory, which is checked as a whole
  before anything is written; any other is walked;
* arithmetic is that of `Checked`.
-/

namespace StridedSlice

/-- A computation on an array. -/
abbrev InPlace (α : Type) : Type → Type := EStateM Stop (Array α)

namespace InPlace

variable {σ α β : Type}

/-- A computation that does not look at the array. -/
def lift (x : Except Stop β) : InPlace α β := fun a =>
  match x with
  | .ok b => .ok b a
  | .error stop => .error stop a

/-- Number of elements of the array. -/
def size : InPlace α Nat := fun a => .ok a.size a

/-- Writes one element. -/
def put (p : Nat) (v : α) : InPlace α Unit := fun a =>
  if h : p < a.size then .ok () (a.set p v) else .error .fault a

/-- Makes sure that `first … last` is a range of the array. -/
def checkRange (first last : Nat) : InPlace α Unit := fun a =>
  if first ≤ last ∧ last ≤ a.size then .ok () a else .error .fault a

/-- Writes values to positions, one after the other. -/
def putEach : List (Nat × α) → InPlace α Unit
  | [] => pure ()
  | (p, v) :: rest => do
      put p v
      putEach rest

/-- The positions that a store writes, in order. -/
def targets (selection : Selection) : InPlace α (List Nat) :=
  if selection.isContiguous then do
    let first := Selection.positionOf selection.start
    checkRange first (← lift (Checked.size (first + selection.count)))
    return List.range' first selection.count
  else
    return selection.cursor.toList

/-- Gives `v` to all selected positions. -/
def fill (selection : Selection) (v : α) : InPlace α Unit := do
  putEach ((← targets selection).map fun p => (p, v))

/-- Gives the elements of `values` to the selected positions. It ends when there are no
more of either. -/
def copy (selection : Selection) (values : Array α) : InPlace α Unit := do
  putEach ((← targets selection).zip values.toList)

/-- Gives a source that fits to the selected positions. -/
def write (convert : σ → α) (selection : Selection) : Source σ → InPlace α Unit
  | .scalar v => fill selection (convert v)
  | .sequence vs => copy selection (vs.map convert)

/-- Refuses a sequence whose length is not the number of selected positions. -/
def checkLength (selection : Selection) (source : Source σ) : InPlace α Unit :=
  match source.length? with
  | none => pure ()
  | some len =>
      if len = selection.count then pure ()
      else throw (.refused (.lengthMismatch selection.count len))

/-- The assignment `a[s] = source`. -/
def assign (convert : σ → α) (s : Slice) (source : Source σ) : InPlace α Unit := do
  let selection ← lift (Checked.resolve s (← size))
  checkLength selection source
  write convert selection source

/-- The assignment `a[index] = value`. -/
def assignAt (convert : σ → α) (index : Int64) (value : σ) : InPlace α Unit := do
  let len ← size
  match Store.indexPosition? index len with
  | none => throw (.refused (.indexOutOfBounds index len))
  | some p => put p (convert value)

end InPlace

end StridedSlice
