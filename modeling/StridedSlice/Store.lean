import StridedSlice.Cursor
import StridedSlice.Traced
/-!
# StridedSlice.Store

**Stores** into an array, through a slice or at a single index. The engine is
generic: `σ` is the type of the values that are given, `α` the type of the
elements, and `convert` turns one into the other.

* `assign` gives a value to every selected position, or the elements of a sequence
  to the selected positions in the order of the walk, whatever the direction of
  the step. All checks come before the first write.
* `assignAt` gives a value to one position, counted from the end when negative.

A selection of step one is written as one block; any other is walked with a
cursor. Both are written so that nothing outside the selection is looked at.
-/

namespace StridedSlice

/-- The right-hand side of an assignment to a slice. -/
inductive Source (σ : Type)
  /-- One value for every selected position. -/
  | scalar (value : σ)
  /-- One value for each selected position, in the order of the walk. -/
  | sequence (values : Array σ)
  deriving Repr

namespace Source

variable {σ : Type}

/-- Length of a sequence; a scalar has none. -/
def length? : Source σ → Option Nat
  | .scalar _ => none
  | .sequence vs => some vs.size

end Source

namespace Store

variable {σ α : Type}

/-- Replaces the elements from `first` on by those of `block`. -/
def replaceBlock (a : Array α) (first : Nat) (block : Array α) : Array α :=
  a.extract 0 first ++ block ++ a.extract (first + block.size) a.size

/-- Writes `v` to every position that `c` yields. -/
def fillAlong (a : Array α) (c : Cursor) (v : α) : Array α :=
  c.foldl (fun a p => a.setIfInBounds p v) a

/-- Writes the elements of a list, one after the other, to the positions that `c`
yields. It ends when either of them does. -/
def copyAlong (a : Array α) (c : Cursor) : List α → Array α
  | [] => a
  | v :: vs =>
      match c.next with
      | (none, _) => a
      | (some p, c) => copyAlong (a.setIfInBounds p v) c vs

/-- Gives `v` to all selected positions. -/
def fill (a : Array α) (selection : Selection) (v : α) : Array α :=
  if selection.isContiguous then
    replaceBlock a (Selection.positionOf selection.start) (Array.replicate selection.count v)
  else
    fillAlong a selection.cursor v

/-- Gives the elements of `values` to the selected positions, in the order of the
walk. -/
def copy (a : Array α) (selection : Selection) (values : Array α) : Array α :=
  if selection.isContiguous then
    replaceBlock a (Selection.positionOf selection.start) values
  else
    copyAlong a selection.cursor values.toList

/-- Gives a source that fits to the selected positions. -/
def write (convert : σ → α) (a : Array α) (selection : Selection) : Source σ → Array α
  | .scalar v => fill a selection (convert v)
  | .sequence vs => copy a selection (vs.map convert)

/-- Refuses a sequence whose length is not the number of selected positions. -/
def checkLength (s : Slice) (selection : Selection) (source : Source σ) : Traced Unit :=
  match source.length? with
  | none => pure ()
  | some len =>
      if len = selection.count then
        pure ()
      else
        .refuse (.lengthMismatch s selection.count len) (.lengthMismatch selection.count len)

/-- The assignment `a[s] = source`, with what it logs. -/
def assignTraced (convert : σ → α) (a : Array α) (s : Slice) (source : Source σ) :
    Traced (Array α) := do
  let selection ← s.resolveTraced a.size
  checkLength s selection source
  Traced.emit (.storing selection)
  pure (write convert a selection source)

/-- The assignment `a[s] = source`. -/
def assign (convert : σ → α) (a : Array α) (s : Slice) (source : Source σ) :
    Except SliceError (Array α) :=
  (assignTraced convert a s source).result

/-- The position that a single index stands for in a sequence of `len` elements. -/
def indexPosition? (index : Int64) (len : Nat) : Option Nat :=
  if index < 0 then
    if index.toInt.natAbs ≤ len then some (len - index.toInt.natAbs) else none
  else
    if index.toInt.toNat < len then some index.toInt.toNat else none

/-- The assignment `a[index] = value`, with what it logs. -/
def assignAtTraced (convert : σ → α) (a : Array α) (index : Int64) (value : σ) :
    Traced (Array α) :=
  match indexPosition? index a.size with
  | none => .refuse (.outOfBounds index a.size) (.indexOutOfBounds index a.size)
  | some p => pure (a.setIfInBounds p (convert value))

/-- The assignment `a[index] = value`. -/
def assignAt (convert : σ → α) (a : Array α) (index : Int64) (value : σ) :
    Except SliceError (Array α) :=
  (assignAtTraced convert a index value).result

/-- A length is refused exactly when the source does not fit. -/
@[simp] theorem result_checkLength (s : Slice) (selection : Selection) (source : Source σ) :
    (checkLength s selection source).result =
      (match source.length? with
        | none => .ok ()
        | some len =>
            if len = selection.count then .ok ()
            else .error (.lengthMismatch selection.count len)) := by
  unfold checkLength
  cases source.length? with
  | none => rfl
  | some len => by_cases h : len = selection.count <;> simp [h]

/-- The assignment in three steps: resolve, compare lengths, write. -/
theorem assign_eq (convert : σ → α) (a : Array α) (s : Slice) (source : Source σ) :
    assign convert a s source =
      (s.resolve a.size).bind fun selection =>
        match source.length? with
        | none => .ok (write convert a selection source)
        | some len =>
            if len = selection.count then .ok (write convert a selection source)
            else .error (.lengthMismatch selection.count len) := by
  unfold assign assignTraced
  simp only [Traced.result_bind, Slice.result_resolveTraced, result_checkLength,
    Traced.result_emit, Traced.result_pure]
  cases s.resolve a.size with
  | error e => rfl
  | ok selection =>
      cases source.length? with
      | none => rfl
      | some len => by_cases h : len = selection.count <;> simp [h, Except.bind]

end Store

end StridedSlice
