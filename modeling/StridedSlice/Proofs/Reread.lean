import StridedSlice.Proofs.OneOperation
import StridedSlice.Proofs.Resume
/-!
# StridedSlice.Proofs.Reread

**Integers and truth values are read as they were written.** A buffer of them is written as an
array of literals, one for each element, without regard to its data type; the reader gives each
literal a kind of its own (`Scalar.reread`), which need not be the one it was written with. The
values are the same, so the data type makes the same elements of them.

* `Scalar.holds_toJson`: one scalar, whose numeral the reader takes for a signed word if it can
  (`Json.Numeral.scalar?_ofInt`) and for an unsigned one if not
  (`Json.Numeral.scalar?_ofInt_of_large`);
* `Buffer.decodeScalars_toJson`, `Buffer.ofScalars_reread`: all elements of a buffer.
-/

namespace StridedSlice

open Json

/-! ### Literals -/

/-- The numeral of an unsigned word that is no signed one is read as that word. -/
theorem Json.Numeral.scalar?_ofInt_of_large {v : UInt64} (h : 2 ^ 63 ≤ v.toNat) :
    (Numeral.ofInt v.toNat).scalar? = some (.uint v) := by
  have hsmall : ¬ v.toNat < Nat.pow 2 63 := Nat.not_lt.mpr h
  have hword : v.toNat < UInt64.size := v.toNat_lt
  simp [Numeral.scalar?, Numeral.ofInt, hsmall, hword]

/-! ### Scalars -/

namespace Scalar

/-- Truth values and integers of both kinds. -/
def isIntegral : Scalar → Bool
  | .bool _ | .int _ | .uint _ => true
  | .float _ => false

/-- The scalar that the text of a scalar is read as: an unsigned word that is also a signed one
changes its kind. -/
def reread : Scalar → Scalar
  | .uint v => if v.toNat < 2 ^ 63 then .int (Int64.ofNat v.toNat) else .uint v
  | s => s

/-- The text of an integral scalar holds that scalar, perhaps of the other kind. -/
theorem holds_toJson {s : Scalar} (h : s.isIntegral = true) (depth : Nat) :
    Holds depth (print s.toJson) (.scalar s.reread) := by
  refine ⟨_, embeds_print s.toJson, ?_⟩
  cases s with
  | bool b => rfl
  | int v => exact content_number (Numeral.scalar?_ofInt v) depth
  | uint v =>
      by_cases hsmall : v.toNat < 2 ^ 63
      · have hscalar := Numeral.scalar?_ofInt (Int64.ofNat v.toNat)
        rw [Int64.toInt_ofNat_of_lt hsmall] at hscalar
        rw [reread, if_pos hsmall]
        exact content_number hscalar depth
      · rw [reread, if_neg hsmall]
        exact content_number (Numeral.scalar?_ofInt_of_large (Nat.not_lt.mp hsmall)) depth
  | float x => cases h

/-- An integral scalar is decoded from its text. -/
theorem decodeScalar_toJson {s : Scalar} (h : s.isIntegral = true) :
    decodeScalar (Text.toBytes (print s.toJson)) = .ok s.reread :=
  (decode_eq_ok_iff (reads_bind (reads_whole maxDepth) _)).mpr ⟨_, holds_toJson h maxDepth, rfl⟩

end Scalar

/-! ### Elements -/

namespace ElementType

/-- The types of truth values and of integers. -/
def isIntegral : ElementType → Bool
  | .bool | .int _ => true
  | .float32 | .float64 | .scalar => false

/-- An integral type makes the same of a scalar and of what it is read as. -/
theorem ofScalar_reread {t : ElementType} (h : t.isIntegral = true) (s : Scalar) :
    t.ofScalar s.reread = t.ofScalar s := by
  cases s with
  | uint v =>
      by_cases hsmall : v.toNat < 2 ^ 63
      · have hvalue : (Int64.ofNat v.toNat).toInt = v.toNat := Int64.toInt_ofNat_of_lt hsmall
        rw [Scalar.reread, if_pos hsmall]
        cases t with
        | bool =>
            have hzero : Int64.ofNat v.toNat = 0 ↔ v = 0 := by
              rw [← Int64.toInt_inj, hvalue, ← UInt64.toNat_inj]
              exact Int.natCast_eq_zero
            simp [ofScalar, Scalar.toBool, bne, hzero, BEq.beq]
        | int t =>
            show t.ofInt (Int64.ofNat v.toNat).toInt = t.ofInt v.toNat
            rw [hvalue]
        | _ => cases h
      · rw [Scalar.reread, if_neg hsmall]
  | _ => rfl

theorem isNaN32_of_isIntegral {t : ElementType} (h : t.isIntegral = true) (v : t.Value) :
    t.isNaN32 v = false := by
  cases t with
  | bool => rfl
  | int t => rfl
  | _ => cases h

/-- An element of an integral type becomes an integral scalar, -/
theorem isIntegral_toScalar {t : ElementType} (h : t.isIntegral = true) (v : t.Value) :
    (t.toScalar v).isIntegral = true := by
  cases t with
  | bool => rfl
  | int t => cases hsigned : t.isSigned <;> simp [toScalar, hsigned, Scalar.isIntegral]
  | _ => cases h

/-- and is written like it. -/
theorem valueToJson_eq {t : ElementType} (h : t.isIntegral = true) (v : t.Value) :
    t.valueToJson v = (t.toScalar v).toJson := by
  cases t with
  | bool => rfl
  | int t =>
      cases hsigned : t.isSigned with
      | true =>
          have hword := toInt_ofInt_of_fits (IntType.fitsWord_toInt hsigned v)
          simp [toScalar, hsigned, valueToJson, Scalar.toJson, hword]
      | false =>
          have hnat : (UInt64.ofNat (BitVec.toNat v)).toNat = BitVec.toNat v :=
            UInt64.toNat_ofNat_of_lt' (IntType.toNat_lt v)
          simp [toScalar, hsigned, valueToJson, Scalar.toJson, hnat, IntType.toInt, Json.nat]
  | _ => cases h

end ElementType

namespace Buffer

variable {b : Buffer} (h : b.dtype.elementType.isIntegral = true)
include h

/-- The elements of a buffer are decoded from its text. -/
theorem decodeScalars_toJson :
    decodeScalars (Text.toBytes (print b.toJson)) = .ok (b.scalars.map Scalar.reread) := by
  have hitems : List.Forall₂ (Holds (maxDepth - 1))
      ((b.data.toList.map b.dtype.elementType.valueToJson).map print)
      ((b.scalars.map Scalar.reread).toList.map .scalar) := by
    rw [scalars, Array.map_map, Array.toList_map, List.map_map, List.map_map,
      List.forall₂_map_left_iff, List.forall₂_map_right_iff, List.forall₂_same]
    intro v _
    show Holds _ (print (b.dtype.elementType.valueToJson v)) _
    rw [ElementType.valueToJson_eq h]
    exact Scalar.holds_toJson (ElementType.isIntegral_toScalar h v) _
  refine decodeScalars_eq_ok_iff.mpr ?_
  rw [toJson, print_array]
  exact holds_arrayText hitems

/-- They make the same buffer. -/
theorem ofScalars_reread : ofScalars b.dtype (b.scalars.map Scalar.reread) = b := by
  have hsame : b.dtype.elementType.ofScalar ∘ Scalar.reread = b.dtype.elementType.ofScalar :=
    funext (ElementType.ofScalar_reread h)
  have hnumbers : b.hasNaN32 = false :=
    Array.any_eq_false'.mpr fun v _ => by simp [ElementType.isNaN32_of_isIntegral h v]
  rw [ofScalars, Array.map_map, hsame]
  exact ofScalars_scalars hnumbers

end Buffer

/-- **Integers and truth values come back.** The text of a buffer of an integral type, whatever
its elements are, is decoded as scalars that make the same buffer again. The text of an integral
scalar is decoded as one that every integral type converts to the same value. It is the same
scalar, except that an unsigned word comes back as a signed one if there is one of its value. -/
theorem integral_reread :
    (∀ b : Buffer, b.dtype.elementType.isIntegral = true →
        ∃ values, decodeScalars (Text.toBytes (print b.toJson)) = .ok values ∧
          Buffer.ofScalars b.dtype values = b) ∧
      ∀ s : Scalar, s.isIntegral = true →
        ∃ s', decodeScalar (Text.toBytes (print s.toJson)) = .ok s' ∧
          (∀ t : ElementType, t.isIntegral = true →
            ElementType.convert .scalar t s' = ElementType.convert .scalar t s) ∧
          (∀ v, s = .uint v → v.toNat < 2 ^ 63 → ∃ w, s' = .int w ∧ w.toInt = v.toNat) ∧
          ((∀ v, s = .uint v → 2 ^ 63 ≤ v.toNat) → s' = s) := by
  refine ⟨fun b h => ⟨_, Buffer.decodeScalars_toJson h, Buffer.ofScalars_reread h⟩, fun s h =>
    ⟨s.reread, Scalar.decodeScalar_toJson h, fun t ht => ?_, ?_, fun hlarge => ?_⟩⟩
  · rw [t.convert_scalar, t.convert_scalar, ElementType.ofScalar_reread ht]
  · rintro v rfl hsmall
    exact ⟨_, if_pos hsmall, Int64.toInt_ofNat_of_lt hsmall⟩
  · cases s with
    | uint v => exact if_neg (Nat.not_lt.mpr (hlarge v rfl))
    | _ => rfl

/-- The greatest word and zero make a buffer again, and five comes back as a signed word. -/
theorem integral_reread_uint64 :
    (∃ values, decodeScalars (Text.toBytes (print
          (Buffer.toJson ⟨.uint64, #[18446744073709551615#64, 0#64]⟩))) = .ok values ∧
        Buffer.ofScalars .uint64 values = ⟨.uint64, #[18446744073709551615#64, 0#64]⟩) ∧
      ∃ s', decodeScalar (Text.toBytes (print (Scalar.uint 5).toJson)) = .ok s' ∧
        ElementType.convert .scalar (.int .int8) s' =
          ElementType.convert .scalar (.int .int8) (.uint 5) ∧
        ∃ w, s' = .int w ∧ w.toInt = 5 := by
  obtain ⟨s', hdecode, hconvert, hkind, -⟩ := integral_reread.2 (.uint 5) rfl
  exact ⟨integral_reread.1 ⟨.uint64, #[18446744073709551615#64, 0#64]⟩ rfl, s', hdecode,
    hconvert (.int .int8) rfl, hkind 5 rfl (by decide)⟩

end StridedSlice
