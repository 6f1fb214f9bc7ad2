/-!
# StridedSlice.Text.Utf8

Texts and the bytes that encode them. Arguments, settings and files arrive as bytes that
may not be well-formed, so reading them can fail.
-/

namespace StridedSlice.Text

/-- The text that bytes encode, if they are well-formed UTF-8. -/
def ofBytes? (bytes : List UInt8) : Option String :=
  String.fromUTF8? bytes.toByteArray

/-- The bytes that encode a text. -/
def toBytes (s : String) : List UInt8 := s.toUTF8.toList

private theorem byteArray_loop_eq (bytes : ByteArray) (i : Nat) (acc : List UInt8) :
    ByteArray.toList.loop bytes i acc = acc.reverse ++ bytes.data.toList.drop i := by
  rw [ByteArray.toList.loop]
  split
  · next h =>
      have hlt : i < bytes.data.toList.length := h
      have hget : bytes.get! i = bytes.data.toList[i] := getElem!_pos bytes.data i h
      rw [byteArray_loop_eq bytes (i + 1), hget, List.drop_eq_getElem_cons hlt]
      simp
  · next h =>
      rw [List.drop_eq_nil_of_le (Nat.le_of_not_lt h), List.append_nil]
termination_by bytes.size - i

theorem toBytes_eq_data (s : String) : toBytes s = s.toByteArray.data.toList := by
  unfold toBytes
  exact byteArray_loop_eq s.toByteArray 0 []

@[simp] theorem toBytes_ofList (cs : List Char) :
    toBytes (String.ofList cs) = cs.flatMap String.utf8EncodeChar := by
  rw [toBytes_eq_data, String.toByteArray_ofList, List.utf8Encode, List.data_toByteArray]

theorem toBytes_eq (s : String) : toBytes s = s.toList.flatMap String.utf8EncodeChar := by
  rw [← toBytes_ofList, String.ofList_toList]

@[simp] theorem toBytes_append (s t : String) : toBytes (s ++ t) = toBytes s ++ toBytes t := by
  rw [toBytes_eq, toBytes_eq, toBytes_eq, String.toList_append, List.flatMap_append]

theorem utf8EncodeChar_of_lt {c : Char} (h : c.toNat < 128) :
    String.utf8EncodeChar c = [UInt8.ofNat c.toNat] := by
  have hval : c.val.toNat ≤ 127 := Nat.le_of_lt_succ h
  simp only [String.utf8EncodeChar, if_pos hval]
  rfl

/-- A text of ASCII characters has a byte for each of them. -/
theorem toBytes_of_ascii {s : String} (h : s.toList.all (·.toNat < 128) = true) :
    toBytes s = s.toList.map fun c => UInt8.ofNat c.toNat := by
  have hone : ∀ c ∈ s.toList, String.utf8EncodeChar c = [UInt8.ofNat c.toNat] := fun c hc =>
    utf8EncodeChar_of_lt (of_decide_eq_true (List.all_eq_true.mp h c hc))
  rw [toBytes_eq, List.map_eq_flatMap, List.flatMap, List.map_congr_left hone, List.flatMap]

/-- A text is read back from its bytes. -/
theorem ofBytes?_toBytes (s : String) : ofBytes? (toBytes s) = some s := by
  have hbytes : (toBytes s).toByteArray = s.toByteArray := by
    apply ByteArray.ext
    rw [List.data_toByteArray, toBytes_eq_data]
  rw [ofBytes?, hbytes, String.fromUTF8?, dif_pos s.isValidUTF8]
  rfl

end StridedSlice.Text
