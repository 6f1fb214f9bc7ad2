import StridedSlice.Text.Blank
import StridedSlice.Text.Integer
import StridedSlice.Text.Utf8
/-!
# StridedSlice.Limits

How much a script or a command line may ask for. The engine itself has no limits; these
bound what is built from input. Each can be set in the environment, by a positive
decimal number of 64 bits, with a plus sign and blanks around it if one likes. Any other
setting counts as none.
-/

namespace StridedSlice

/-- Bounds on what is built from input. -/
structure Limits where
  /-- Greatest number of elements of a buffer or of a sequence. -/
  elements : Nat
  /-- Greatest number of operations of a script. -/
  operations : Nat
  deriving Repr, DecidableEq

namespace Limits

/-- The variable that sets the limit on elements. -/
def elementsVariable : String := "NSLICE_MAX_ELEMS"

/-- The variable that sets the limit on operations. -/
def operationsVariable : String := "NSLICE_MAX_OPS"

/-- The limits without any setting. -/
def standard : Limits := ⟨16 * 1024 * 1024, 65536⟩

/-- The limit that a setting asks for. -/
def ofSetting? (setting : List UInt8) : Option Nat :=
  (Text.ofBytes? setting).bind fun text =>
    (Text.unsigned? (Text.trim text)).filter (0 < ·)

/-- The limits under the settings of the two variables, each as its bytes. -/
def ofSettings (elements operations : Option (List UInt8)) : Limits :=
  ⟨(elements.bind ofSetting?).getD standard.elements,
    (operations.bind ofSetting?).getD standard.operations⟩

end Limits

end StridedSlice
