import StridedSlice.Script.Basic
import StridedSlice.InPlace
import StridedSlice.View
import StridedSlice.Json.Value
/-!
# StridedSlice.Buffer

A **buffer** is an array of elements of a named data type. Scripts work on one buffer:
they fill it with scalars, store scalars into it, and read scalars from it.
-/

namespace StridedSlice

/-- Elements of one data type. -/
structure Buffer where
  dtype : DType
  data : Array dtype.elementType.Value

namespace Buffer

/-- Converts every scalar to the data type. -/
def ofScalars (dtype : DType) (values : Array Scalar) : Buffer :=
  ⟨dtype, values.map dtype.elementType.ofScalar⟩

/-- Number of elements. -/
def size (b : Buffer) : Nat := b.data.size

/-- The elements as scalars. -/
def scalars (b : Buffer) : Array Scalar := b.data.map b.dtype.elementType.toScalar

/-- Carries out an operation, and logs what it does. A load returns the selected elements
and leaves the buffer as it is. -/
def applyTraced (b : Buffer) : Operation → Traced (Buffer × Option (Array Scalar))
  | .assign slice value => do
      let data ← Store.assignTraced (ElementType.convert .scalar b.dtype.elementType) b.data slice
        value
      return (⟨b.dtype, data⟩, none)
  | .assignAt index value => do
      let data ← Store.assignAtTraced (ElementType.convert .scalar b.dtype.elementType) b.data
        index value
      return (⟨b.dtype, data⟩, none)
  | .load slice => do
      let view ← View.ofSliceTraced b.data slice
      return (b, some (view.toArray.map b.dtype.elementType.toScalar))

/-- Carries out an operation. -/
def apply (b : Buffer) (op : Operation) : Except SliceError (Buffer × Option (Array Scalar)) :=
  (b.applyTraced op).result

/-- Works on the elements of the buffer in place. -/
def onData (b : Buffer) (x : InPlace b.dtype.elementType.Value Unit) :
    EStateM.Result Stop Buffer (Option (Array Scalar)) :=
  match x.run b.data with
  | .ok () data => .ok none ⟨b.dtype, data⟩
  | .error stop data => .error stop ⟨b.dtype, data⟩

/-- Carries out an operation in place. Should a store end early, the buffer is what the
store had made of it. -/
def perform (op : Operation) : EStateM Stop Buffer (Option (Array Scalar)) := fun b =>
  match op with
  | .assign slice value =>
      b.onData (InPlace.assign (ElementType.convert .scalar b.dtype.elementType) slice value)
  | .assignAt index value =>
      b.onData (InPlace.assignAt (ElementType.convert .scalar b.dtype.elementType) index value)
  | .load slice =>
      match Checked.resolve slice b.size with
      | .error stop => .error stop b
      | .ok selection =>
          let view : View b.dtype.elementType.Value := ⟨b.data, selection⟩
          .ok (some (view.toArray.map b.dtype.elementType.toScalar)) b

end Buffer

/-- A scalar as a JSON value. -/
def Scalar.toJson : Scalar → Json
  | .bool b => .bool b
  | .int v => .int v.toInt
  | .uint v => .nat v.toNat
  | .float x => .float64 x

/-- An element as a JSON value. -/
def ElementType.valueToJson : (t : ElementType) → t.Value → Json
  | .bool, b => .bool b
  | .int t, v => .int (t.toInt v)
  | .float32, x => .float32 x
  | .float64, x => .float64 x
  | .scalar, s => s.toJson

/-- A buffer is written as an array of its elements. -/
def Buffer.toJson (b : Buffer) : Json :=
  .array (b.data.toList.map b.dtype.elementType.valueToJson)

end StridedSlice
