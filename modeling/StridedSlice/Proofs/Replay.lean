import StridedSlice.Proofs.DoubleRounding
import StridedSlice.Proofs.OneOperation
/-!
# StridedSlice.Proofs.Replay

**An outcome is replayed**: the data in its text are put into the text of a script that does
nothing. Numbers of 32 bits are read as numbers of 64 bits before they are of 32 bits again, with a
table of powers of ten that are rounded themselves, and still they come back
(`Json.exists_written`). What is not finite does not: it is written as `null`, which is no element
(`Json.Written`). So the outcome is accepted if all its elements are finite, and then nothing is
lost (`Script.replay_iff`).
-/

namespace StridedSlice

open Json

/-! ### Numerals -/

/-- A decimal is written as a numeral that is not integral, with its own digits and exponent. A
whole number that is written plainly has a zero behind the point, and is not too large. -/
theorem DecimalStyle.numeral_spec (style : DecimalStyle) (negative : Bool) (d : Decimal) :
    (style.numeral negative d).negative = negative ∧
      (style.numeral negative d).integral = false ∧
      ((style.numeral negative d).digits = d.digits ∧
          (style.numeral negative d).scale = d.exponent ∨
        ∃ n : ℕ, (style.numeral negative d).digits = n * 10 ∧
          (style.numeral negative d).scale = -1 ∧ (n : ℚ) = d.value ∧
          (n : ℚ) < 10 ^ (style.plainTo + 1)) := by
  have hdigits := lt_pow_length_toDigits d.digits
  have hlength : 0 < (Nat.toDigits 10 d.digits).length := Nat.length_toDigits_pos
  unfold numeral
  dsimp only
  set length := (Nat.toDigits 10 d.digits).length
  split_ifs with hplain hwhole
  · refine ⟨rfl, rfl, .inr ⟨d.digits * 10 ^ d.exponent.toNat, ?_, rfl, ?_⟩⟩
    · rw [pow_succ, Nat.mul_assoc]
    · have hvalue : ((d.digits * 10 ^ d.exponent.toNat : ℕ) : ℚ) = d.digits * 10 ^ d.exponent := by
        rw [Nat.cast_mul, Nat.cast_pow, ← zpow_natCast, Int.toNat_of_nonneg hwhole]
        rfl
      refine ⟨hvalue, ?_⟩
      have hlt : (d.digits : ℚ) < 10 ^ (length : Int) := by
        rw [zpow_natCast]
        exact_mod_cast hdigits
      calc ((d.digits * 10 ^ d.exponent.toNat : ℕ) : ℚ)
          _ = d.digits * 10 ^ d.exponent := hvalue
          _ < 10 ^ (length : Int) * 10 ^ d.exponent := mul_lt_mul_of_pos_right hlt (by positivity)
          _ = 10 ^ ((length : Int) + d.exponent) := (zpow_add₀ (by norm_num) ..).symm
          _ ≤ 10 ^ (style.plainTo + 1) := zpow_le_zpow_right₀ (by norm_num) (by omega)
  · refine ⟨rfl, rfl, .inl ⟨rfl, ?_⟩⟩
    show ((0 : ℕ) : Int) - (-d.exponent).toNat = d.exponent
    omega
  · refine ⟨rfl, rfl, .inl ⟨rfl, ?_⟩⟩
    show (if decide (d.exponent + length - 1 < 0) = true
        then -((d.exponent + length - 1).natAbs : Int) else (d.exponent + length - 1).natAbs) -
      (length - 1 : ℕ) = d.exponent
    simp only [decide_eq_true_eq]
    split_ifs <;> omega

/-- **A number of 32 bits comes back** from the numeral that it is written as. -/
theorem Json.Numeral.exists_toBinary64?_shortest {x : Binary binary32} {negative : Bool}
    {significand : Nat} {exponent : Int}
    (hcontent : x.content = .finite negative significand exponent) (hpos : significand ≠ 0) :
    ∃ y, (float32Style.numeral x.isNegative
        (Binary.shortest binary32 significand exponent)).toBinary64? = some y ∧
      y.convert binary32 = x := by
  have hsize : UInt64.size = 2 ^ 64 := rfl
  have hfew := Binary.digits_shortest_lt searchable_binary32 hcontent hpos
  have hbits : binary32.fractionBits = 23 := rfl
  obtain ⟨hnegative, -, hparts⟩ := float32Style.numeral_spec x.isNegative
    (Binary.shortest binary32 significand exponent)
  unfold toBinary64?
  rw [hnegative]
  rcases hparts with ⟨hdigits, hscale⟩ | ⟨n, hdigits, hscale, hvalue, hlt⟩
  · obtain ⟨y, hread, hback⟩ := Binary.exists_ofParts?_shortest hcontent hpos
    rw [hbits] at hfew
    rw [parts_eq (by omega), hdigits, hscale, hread]
    exact ⟨_, rfl, hback⟩
  · have hn : n < 10 ^ 13 := by
      have hstyle : float32Style.plainTo + 1 = (13 : ℕ) := rfl
      rw [hstyle, zpow_natCast] at hlt
      exact_mod_cast hlt
    obtain ⟨y, hread, hback⟩ :=
      Binary.exists_ofParts?_whole hcontent hpos (by omega) hvalue
    rw [parts_eq (by omega), hdigits, hscale, hread]
    exact ⟨_, rfl, hback⟩

/-- The number of 64 bits nearest to `7.038531e-26` lies half-way between two of 32 bits and would
become the wrong one. What is read is the number below it. -/
example : (Json.Numeral.mk false 7038531 6 false true 26).toBinary64? =
    some ⟨0x3ab5c87fafffffff⟩ := by decide +kernel

/-! ### Elements -/

namespace Json

/-- The contents that the text of an element has: a number that becomes the element again, or
`null`. -/
inductive Written (x : Binary binary32) : Content → Prop
  | number {y : Binary binary64} :
      x.IsFinite → y.convert binary32 = x → Written x (.scalar (.float y))
  | null : ¬ x.IsFinite → Written x .null

/-- A numeral that is not integral is a floating point number. -/
theorem content_number_eq_float {n : Numeral} (hn : n.integral = false) {y : Binary binary64}
    (h : n.toBinary64? = some y) (depth : Nat) :
    (Node.number n).content depth = .ok (.scalar (.float y)) := by
  have hscalar : n.scalar? = some (.float y) := by simp [Numeral.scalar?, hn, h]
  exact content_number hscalar depth

theorem toBinary64?_zero (negative : Bool) :
    (Numeral.mk negative 0 1 false false 0).toBinary64? =
      some (.ofMagnitude binary64 negative 0) := by
  cases negative <;> decide +kernel

/-- **An element is written** as a number that comes back, or as `null`. -/
theorem exists_written (x : Binary binary32) (depth : Nat) :
    ∃ c, (Node.ofNumeral? (float32Style.numeral? x)).content depth = .ok c ∧ Written x c := by
  by_cases hfinite : x.IsFinite
  · obtain ⟨r, t, hmag, hleast, -, hcontent⟩ := Binary.content_eq_finite hfinite
    by_cases hzero : r = 0
    · subst hzero
      have hmagnitude : x.magnitude = 0 := by
        rcases hleast with rfl | hle
        · simpa using hmag
        · exact absurd hle (by decide)
      have hrounds : binary32.Rounds (binary64.value 0) x.magnitude := by
        rw [hmagnitude, binary64.value_zero, ← binary32.value_zero]
        exact binary32.rounds_value 0
      have hback := Binary.convert_ofMagnitude hfinite (by decide) hrounds
      refine ⟨.scalar (.float (Binary.ofMagnitude binary64 x.isNegative 0)), ?_,
        .number hfinite hback⟩
      simp only [DecimalStyle.numeral?, hcontent, if_true, Node.ofNumeral?]
      exact content_number_eq_float rfl (toBinary64?_zero x.isNegative) depth
    · obtain ⟨-, hintegral, -⟩ := float32Style.numeral_spec x.isNegative
        (Binary.shortest binary32 r (binary32.leastExponent + t))
      obtain ⟨y, hread, hback⟩ := Numeral.exists_toBinary64?_shortest hcontent hzero
      refine ⟨.scalar (.float y), ?_, .number hfinite hback⟩
      simp only [DecimalStyle.numeral?, hcontent, if_neg hzero, Node.ofNumeral?]
      exact content_number_eq_float hintegral hread depth
  · refine ⟨.null, ?_, .null hfinite⟩
    have hnumeral : float32Style.numeral? x = none := by
      unfold DecimalStyle.numeral?
      cases hcontent : x.content with
      | finite negative significand exponent =>
          exact absurd (Binary.magnitude_lt_of_content hcontent) hfinite
      | _ => rfl
    rw [hnumeral]
    rfl

/-- The text of an array of elements. -/
theorem exists_holds_array (xs : List (Binary binary32)) (depth : Nat) :
    ∃ cs, Holds (depth + 1) (print (.array (xs.map .float32))) (.array cs) ∧
      List.Forall₂ Written xs cs := by
  have hitems : ∃ cs, List.Forall₂ (Holds depth) ((xs.map Json.float32).map print) cs ∧
      List.Forall₂ Written xs cs := by
    induction xs with
    | nil => exact ⟨[], .nil, .nil⟩
    | cons x rest ih =>
        obtain ⟨cs, hcs, hwritten⟩ := ih
        obtain ⟨c, hc, hx⟩ := exists_written x depth
        exact ⟨c :: cs, .cons ⟨_, embeds_print (.float32 x), hc⟩ hcs, .cons hx hwritten⟩
  obtain ⟨cs, hcs, hwritten⟩ := hitems
  rw [print_array]
  exact ⟨cs, holds_arrayText hcs, hwritten⟩

end Json

/-! ### Scripts that do nothing -/

/-- The member of an object with a name. -/
def Json.member? (name : String) : Json → Option Json
  | .object members => (members.find? (·.1 == name)).map (·.2)
  | _ => none

/-- An outcome is written with its buffer as the data. -/
theorem Outcome.member?_data (o : Outcome) : o.toJson.member? "data" = some o.buffer.toJson := rfl

namespace Script

/-- The text of a script that does nothing to data of 32 bits. -/
def idleText (data : String) : String :=
  objectText [("dtype", print (.text "float32")), ("data", data)]

/-- The script that does nothing to some scalars. -/
def idle (values : Array Scalar) : Script := ⟨none, .float32, values, []⟩

/-- The contents of a script that does nothing. -/
theorem script_idle {cs : List Content} {s : Script} :
    (Content.object [("dtype", .text "float32"), ("data", .array cs)]).script = .ok s ↔
      ∃ values : Array Scalar, cs = values.toList.map .scalar ∧ s = idle values := by
  have hname : DType.ofName? "float32" = some .float32 := rfl
  simp only [Content.script, List.foldlM_cons, List.foldlM_nil, do_eq_ok, pure_eq_ok,
    readScriptMember_dtype hname]
  constructor
  · intro h
    obtain ⟨p, ⟨p', hp', p'', hp'', rfl⟩, dtype, hd, data, hdata', rfl⟩ := h
    cases hp'
    obtain ⟨values, hcs, rfl⟩ := readScriptMember_data_eq_ok.mp hp''
    cases hd
    cases hdata'
    exact ⟨_, hcs, rfl⟩
  · intro h
    obtain ⟨values, hcs, rfl⟩ := h
    exact ⟨_, ⟨_, rfl, _, readScriptMember_data_eq_ok.mpr ⟨values, hcs, rfl⟩, rfl⟩, _, rfl, _,
      rfl, rfl⟩

/-- The run of a script that does nothing. -/
theorem run_idle (values : Array Scalar) (xs : Array (Binary binary32))
    (h : values.map ElementType.float32.ofScalar = xs) :
    (idle values).run.buffer = ⟨.float32, xs⟩ ∧
      (idle values).run.toJson.member? "data" = some (.array (xs.toList.map .float32)) := by
  have hbuffer : (idle values).run.buffer = ⟨.float32, xs⟩ := congrArg (Buffer.mk .float32) h
  refine ⟨hbuffer, ?_⟩
  rw [Outcome.member?_data, hbuffer]
  rfl

variable {data : String} {cs : List Content}

/-- A script that does nothing is accepted if its data are scalars, and not too many. -/
theorem ofBytes_idleText (hdata : Holds (maxDepth - 1) data (.array cs)) {path : String}
    {limits : Limits} {s : Script} :
    Script.ofBytes (Text.toBytes (idleText data)) path limits = .ok s ↔
      cs.length ≤ limits.elements ∧
        ∃ values : Array Scalar, cs = values.toList.map .scalar ∧ s = idle values := by
  have hcontent : decodeContent (Text.toBytes (idleText data)) =
      .ok (.object [("dtype", .text "float32"), ("data", .array cs)]) :=
    decodeContent_eq_ok_iff.mpr (holds_objectText
      (.cons ⟨rfl, holds_text _ "float32"⟩ (.cons ⟨rfl, hdata⟩ .nil)))
  have hdecode (s : Script) : decodeScript (Text.toBytes (idleText data)) = .ok s ↔
      ∃ values : Array Scalar, cs = values.toList.map .scalar ∧ s = idle values := by
    rw [decodeScript_eq_ok, hcontent, ← script_idle]
    simp
  rw [ofBytes_eq_ok_iff, hdecode, validate_eq_ok_iff, and_comm]
  constructor
  · rintro ⟨⟨-, hsize, -⟩, values, rfl, rfl⟩
    refine ⟨?_, values, rfl, rfl⟩
    rw [List.length_map, Array.length_toList]
    exact hsize
  · rintro ⟨hlength, values, rfl, rfl⟩
    rw [List.length_map, Array.length_toList] at hlength
    exact ⟨⟨rfl, hlength, Nat.zero_le _, fun _ ho => absurd ho List.not_mem_nil⟩, values, rfl, rfl⟩

/-- Data that can be decoded are accepted. -/
theorem ofBytes_idleText_of_decode {values : Array Scalar}
    (h : decodeScalars (Text.toBytes data) = .ok values) (limits : Limits)
    (hsize : values.size ≤ limits.elements) (path : String) :
    Script.ofBytes (Text.toBytes (idleText data)) path limits = .ok (idle values) := by
  refine (ofBytes_idleText ((Command.holds_of_decodeScalars h).sourceContent _)).mpr
    ⟨?_, values, rfl, rfl⟩
  rwa [List.length_map, Array.length_toList]

/-- Data without `null` are scalars. -/
theorem exists_scalars_iff {xs : List (Binary binary32)} (h : List.Forall₂ Written xs cs) :
    (∃ values : Array Scalar, cs = values.toList.map .scalar) ↔ ∀ x ∈ xs, x.IsFinite := by
  induction h with
  | nil => exact iff_of_true ⟨#[], rfl⟩ nofun
  | @cons x c xs cs hx _ ih =>
      rw [List.forall_mem_cons, ← ih]
      constructor
      · rintro ⟨⟨_ | ⟨v, values⟩⟩, hvalues⟩
        · cases hvalues
        · obtain ⟨rfl, hcs⟩ := List.cons.inj hvalues
          cases hx with
          | number hfinite _ => exact ⟨hfinite, ⟨values⟩, hcs⟩
      · rintro ⟨hfinite, ⟨values⟩, rfl⟩
        cases hx with
        | number _ _ => exact ⟨⟨_ :: values⟩, rfl⟩
        | null hinfinite => exact absurd hfinite hinfinite

/-- Scalars that elements are written as come back to them. -/
theorem map_ofScalar_eq {xs : List (Binary binary32)} {values : List Scalar}
    (h : List.Forall₂ Written xs (values.map .scalar)) :
    values.map ElementType.float32.ofScalar = xs := by
  rw [List.forall₂_map_right_iff] at h
  induction h with
  | nil => rfl
  | @cons x v xs values hx _ ih =>
      rw [List.map_cons, ih]
      cases hx with
      | number _ hback => exact congrArg (· :: xs) hback

/-- **Replay.** A script of numbers of 32 bits that is accepted ends with a buffer of them. Its
data, as they stand in the text of the outcome, are accepted as the data of a script that does
nothing exactly if all elements are finite. The run of that script then ends with the same buffer,
bit for bit. -/
theorem replay_iff {bytes : List UInt8} {path : String} {limits : Limits} {s : Script}
    (h : Script.ofBytes bytes path limits = .ok s) (hdtype : s.dtype = .float32) (path' : String) :
    ∃ (xs : Array (Binary binary32)) (data : Json), s.run.buffer = ⟨.float32, xs⟩ ∧
      s.run.toJson.member? "data" = some data ∧
      ((∃ s', Script.ofBytes (Text.toBytes (idleText (print data))) path' limits = .ok s') ↔
        ∀ x ∈ xs, x.IsFinite) ∧
      ∀ s', Script.ofBytes (Text.toBytes (idleText (print data))) path' limits = .ok s' →
        s'.run.buffer = s.run.buffer := by
  obtain ⟨hbuffer, hsize⟩ := shape_of_bufferBefore (Run.Sound.execute s).before
  have hlimit := (validate_eq_ok_iff.mp (ofBytes_eq_ok_iff.mp h).2).2.1
  have hrun : s.run.buffer = s.execute.buffer := rfl
  rw [hdtype] at hbuffer
  generalize s.execute.buffer = b at hbuffer hsize hrun
  obtain ⟨dtype, xs⟩ := b
  obtain rfl : dtype = .float32 := hbuffer
  obtain ⟨cs, hholds, hwritten⟩ := exists_holds_array xs.toList (maxDepth - 2)
  have hlength : cs.length ≤ limits.elements := by
    rw [← hwritten.length_eq, Array.length_toList]
    exact hsize.trans_le hlimit
  have hmember : s.run.toJson.member? "data" = some (.array (xs.toList.map .float32)) := by
    rw [Outcome.member?_data, hrun]
    rfl
  refine ⟨xs, _, hrun, hmember, ?_, fun s' hs' => ?_⟩
  · simp only [ofBytes_idleText hholds, hlength, true_and, exists_comm, exists_and_left,
      exists_eq, and_true]
    rw [exists_scalars_iff hwritten]
    simp
  · obtain ⟨-, values, rfl, rfl⟩ := (ofBytes_idleText hholds).mp hs'
    have hback : values.map ElementType.float32.ofScalar = xs := by
      rw [← Array.toList_inj, Array.toList_map]
      exact map_ofScalar_eq hwritten
    rw [(run_idle values xs hback).1, hrun]

/-- A tenth and minus zero. -/
theorem replay_iff_tenth :
    ∃ s data s', Script.ofBytes
        (Text.toBytes "\x7b\"dtype\":\"float32\",\"data\":[0.1,-0.0]\x7d")
        "a.json" .standard = .ok s ∧
      s.dtype = .float32 ∧ s.run.toJson.member? "data" = some data ∧
      Script.ofBytes (Text.toBytes (idleText (print data))) "b.json" .standard = .ok s' ∧
      s'.run.buffer = s.run.buffer := by
  have htext : idleText "[0.1,-0.0]" =
      "\x7b\"dtype\":\"float32\",\"data\":[0.1,-0.0]\x7d" := by
    simp only [idleText, objectText, membersText, print, write, writeString,
      String.foldl_eq_foldl_toList]
    decide +kernel
  have hdecode : decodeScalars (Text.toBytes "[0.1,-0.0]") =
      .ok #[.float ⟨0x3fb999999999999a⟩, .float ⟨0x8000000000000000⟩] := by
    rw [Text.toBytes_eq]
    decide +kernel
  have hs := ofBytes_idleText_of_decode hdecode .standard (by decide) "a.json"
  obtain ⟨hrun, -⟩ := run_idle #[.float ⟨0x3fb999999999999a⟩, .float ⟨0x8000000000000000⟩]
    #[⟨0x3dcccccd⟩, ⟨0x80000000⟩] (by decide +kernel)
  obtain ⟨xs, data, hbuffer, hdata, haccepted, hback⟩ := replay_iff hs rfl "b.json"
  obtain rfl : #[⟨0x3dcccccd⟩, ⟨0x80000000⟩] = xs :=
    eq_of_heq (Buffer.mk.inj (hrun.symm.trans hbuffer)).2
  obtain ⟨s', hs'⟩ := haccepted.mpr (by decide)
  rw [← htext]
  exact ⟨_, data, s', hs, rfl, hdata, hs', hback s' hs'⟩

/-- **What does not come back**: a number beyond the range of 32 bits is infinite and is written
as `null`, which is no element. -/
theorem not_replayed :
    ∃ s data, Script.ofBytes (Text.toBytes "\x7b\"dtype\":\"float32\",\"data\":[1e39]\x7d")
        "a.json" .standard = .ok s ∧
      s.dtype = .float32 ∧ s.run.toJson.member? "data" = some data ∧
      ∀ s', Script.ofBytes (Text.toBytes (idleText (print data))) "a.json" .standard ≠ .ok s' := by
  have htext : idleText "[1e39]" = "\x7b\"dtype\":\"float32\",\"data\":[1e39]\x7d" := by
    simp only [idleText, objectText, membersText, print, write, writeString,
      String.foldl_eq_foldl_toList]
    decide +kernel
  have hdecode : decodeScalars (Text.toBytes "[1e39]") = .ok #[.float ⟨0x48078287f49c4a1d⟩] := by
    rw [Text.toBytes_eq]
    decide +kernel
  obtain ⟨-, hdata⟩ := run_idle #[.float ⟨0x48078287f49c4a1d⟩] #[⟨0x7f800000⟩]
    (by decide +kernel)
  rw [← htext]
  refine ⟨_, _, ofBytes_idleText_of_decode hdecode .standard (by decide) _, rfl, hdata,
    fun s' hs' => ?_⟩
  obtain ⟨cs, hholds, hwritten⟩ := exists_holds_array [⟨0x7f800000⟩] (maxDepth - 2)
  obtain ⟨-, values, hcs, -⟩ := (ofBytes_idleText hholds).mp hs'
  exact absurd ((exists_scalars_iff hwritten).mp ⟨values, hcs⟩) (by decide)

end Script

end StridedSlice
