import StridedSlice.InPlace
import StridedSlice.Reading
import StridedSlice.Status
/-!
# StridedSlice.Foreign

The entry points for **foreign callers**, who pass pointers and lengths and receive a
status. A pointer is modelled by what it can be used for: `none` is null, and `some a`
points to the elements `a`. A call answers with a status and with what the memory it
was given holds afterwards; memory that a call does not write is returned as it was.

Pointers are checked before the slice is looked at: first the array, then the source.
A null pointer is only refused with a nonzero length, and a length of zero means the
empty array whatever the pointer is.

Stores and copies run in place on the caller's memory, reads are those of `Reading`, and
slices are resolved in checked arithmetic. A fault is caught and answered as an internal
error; the memory then is what the call had made of it.
-/

namespace StridedSlice.Foreign

variable {α : Type}

/-- One part of a slice as foreign callers write it: a flag, where every nonzero word
means that the part is there, and a value that counts only then. -/
structure OptionalIndex where
  present : UInt32
  value : Int64
  deriving Repr, DecidableEq

/-- The part of a slice that was meant. -/
def OptionalIndex.get (i : OptionalIndex) : Option Int64 :=
  if i.present = 0 then none else some i.value

/-- A slice as foreign callers write it. -/
structure SliceArgument where
  start : OptionalIndex
  stop : OptionalIndex
  step : OptionalIndex
  deriving Repr, DecidableEq

/-- The slice that was meant. -/
def SliceArgument.get (s : SliceArgument) : Slice := ⟨s.start.get, s.stop.get, s.step.get⟩

/-- The elements that a pointer with a length gives access to. -/
def access (pointer : Option (Array α)) (len : Nat) : Except Status (Array α) :=
  if len = 0 then .ok #[]
  else
    match pointer with
    | none => .error .nullPointer
    | some a => .ok (a.extract 0 len)

@[simp] theorem access_zero (pointer : Option (Array α)) : access pointer 0 = .ok #[] := rfl

/-- The whole memory behind a pointer after the elements that a call had access to became
`written`. -/
def update (memory written : Array α) : Array α :=
  written ++ memory.extract written.size memory.size

/-- What a call that writes an array leaves behind. -/
structure Written (α : Type) where
  status : Status
  /-- The memory behind the pointer, null as before. -/
  memory : Option (Array α)

/-- Carries out an operation on the array behind a pointer. -/
def onArray (pointer : Option (Array α)) (len : Nat) (operation : InPlace α Unit) : Written α :=
  match access pointer len with
  | .error status => ⟨status, pointer⟩
  | .ok a =>
      match operation.run a with
      | .ok () written => ⟨.ok, pointer.map (update · written)⟩
      | .error stop written => ⟨stop.status, pointer.map (update · written)⟩

/-- Stores one value in all selected positions. -/
def storeScalar (pointer : Option (Array α)) (len : Nat) (slice : SliceArgument) (value : α) :
    Written α :=
  onArray pointer len (InPlace.assign id slice.get (.scalar value))

/-- Stores the elements behind a second pointer in the selected positions. -/
def storeSequence (pointer : Option (Array α)) (len : Nat) (slice : SliceArgument)
    (source : Option (Array α)) (sourceLen : Nat) : Written α :=
  match access pointer len, access source sourceLen with
  | .error status, _ => ⟨status, pointer⟩
  | .ok _, .error status => ⟨status, pointer⟩
  | .ok _, .ok values => onArray pointer len (InPlace.assign id slice.get (.sequence values))

/-- Stores one value at one position. -/
def storeAt (pointer : Option (Array α)) (len : Nat) (index : Int64) (value : α) : Written α :=
  onArray pointer len (InPlace.assignAt id index value)

/-- What a load leaves behind. -/
structure Loaded (α : Type) where
  status : Status
  /-- The output memory, null as before. -/
  output : Option (Array α)
  /-- The cell for the number of selected positions, null as before. -/
  count : Option Nat

/-- Puts the elements of a walk at the given positions, one after the other. It ends when there
are no more of either. -/
def receive (w : Walk α) : List Nat → InPlace α Unit
  | [] => pure ()
  | p :: rest => do
      match ← InPlace.lift (Reading.next w) with
      | (none, _) => pure ()
      | (some v, w) => do
          InPlace.put p v
          receive w rest

/-- Copies the selected elements to the output, which has room for `capacity` of them. The
number of selected positions goes to its cell even when there is too little room; then
nothing is copied. -/
def load (pointer : Option (Array α)) (len : Nat) (slice : SliceArgument)
    (output : Option (Array α)) (capacity : Nat) (count : Option Nat) : Loaded α :=
  match access pointer len with
  | .error status => ⟨status, output, count⟩
  | .ok a =>
      match Reading.view a slice.get with
      | .error stop => ⟨stop.status, output, count⟩
      | .ok view =>
          let reported := count.map fun _ => view.size
          if capacity < view.size then
            ⟨.outputTooSmall, output, reported⟩
          else
            let copied := onArray output view.size (receive view.walk (List.range view.size))
            ⟨copied.status, copied.memory, reported⟩

/-- Resolves a slice. With a null output nothing is looked at. -/
def resolve (len : Nat) (slice : SliceArgument) (output : Option Selection) :
    Status × Option Selection :=
  match output with
  | none => (.nullPointer, none)
  | some before =>
      match Checked.resolve slice.get len with
      | .error stop => (stop.status, some before)
      | .ok selection => (.ok, some selection)

end StridedSlice.Foreign
