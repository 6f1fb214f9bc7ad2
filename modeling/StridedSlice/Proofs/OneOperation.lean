import StridedSlice.Proofs.Grammar
import StridedSlice.Proofs.Integer
import StridedSlice.Proofs.Limits
import StridedSlice.Proofs.Printing
/-!
# StridedSlice.Proofs.OneOperation

**A command for one operation is a script of one operation.** The commands `getitem` and
`setitem` read a data type, data, a slice and a value from their arguments. A script has the same
four in one text. The two ways lead to the same operation on the same data
(`Command.agrees_with_script`), because a text that is decoded on its own has the same contents
inside a script (`Json.Holds`).
-/

namespace StridedSlice

open Json

/-! ### Data as an argument -/

namespace Json

theorem Lexer.finish_onto (l : Lexer) (before : List Token) :
    (l.onto before).finish = before.reverse ++ l.finish := by
  unfold finish onto
  dsimp only
  cases lastToken? l.state <;> simp

/-- What begins with a minus sign is a number, unless it breaks off. -/
theorem exists_finish_numeral (phase : NumeralPhase) (n : Numeral) (bytes : List UInt8) :
    ∃ t rest, ((⟨.numeral phase n, []⟩ : Lexer).feed bytes).finish = t :: rest ∧
      (t.isBroken = true ∨ ∃ n', t = .number n') := by
  induction bytes generalizing phase n with
  | nil =>
      cases hphase : phase.isComplete with
      | true => exact ⟨.number n, [], by simp [Lexer.feed, Lexer.finish, Lexer.lastToken?, hphase],
          .inr ⟨n, rfl⟩⟩
      | false =>
          exact ⟨.broken ⟨.truncated, .malformed⟩, [],
            by simp [Lexer.feed, Lexer.finish, Lexer.lastToken?, hphase], .inl rfl⟩
  | cons b bytes ih =>
      have hfeed : (⟨.numeral phase n, []⟩ : Lexer).feed (b :: bytes) =
          (Lexer.stepNumeral ⟨.numeral phase n, []⟩ phase n b).feed bytes := rfl
      rw [hfeed, Lexer.stepNumeral]
      cases phase.step n b with
      | more phase n => exact ih phase n
      | ended =>
          have hidle : ((Lexer.emit ⟨.numeral phase n, []⟩ (.number n)).stepIdle b).feed bytes =
              (⟨.idle, [.number n]⟩ : Lexer).feed (b :: bytes) := rfl
          dsimp only
          rw [hidle, Lexer.feed_idle, Lexer.finish_onto]
          exact ⟨.number n, _, rfl, .inr ⟨n, rfl⟩⟩
      | wrong =>
          have hstopped : (Lexer.stop ⟨.numeral phase n, []⟩ (.broken .malformed)).feed bytes =
              ⟨.stopped, [.broken .malformed]⟩ := by
            clear hfeed ih
            induction bytes with
            | nil => rfl
            | cons b bytes ih => exact ih
          dsimp only
          rw [hstopped]
          exact ⟨_, _, rfl, .inl rfl⟩

/-- A text is decoded as the scalars of the array that it holds. -/
theorem decodeScalars_eq_ok_iff {text : String} {values : Array Scalar} :
    decodeScalars (Text.toBytes text) = .ok values ↔
      Holds maxDepth text (sourceContent (.sequence values)) := by
  have hreads : Reads maxDepth (Node.elements (·.scalar (maxDepth - 1)))
      (Content.elements Content.element) :=
    reads_elements (reads_bind (reads_whole (maxDepth - 1)) _)
  simp only [decodeScalars, decode_eq_ok_iff hreads, elements_eq_ok, exists_eq_right]
  rfl

/-- The numeral of a signed word is read as that word. -/
theorem Numeral.scalar?_ofInt (w : Int64) : (Numeral.ofInt w.toInt).scalar? = some (.int w) := by
  refine scalar?_eq_int_iff.mpr ⟨rfl, ?_, ?_⟩
  · simp [Numeral.ofInt]
    omega
  · simp only [Numeral.signed, Numeral.ofInt, decide_eq_true_eq]
    split_ifs <;> omega

/-- The text of an array does not begin like an option. -/
theorem head?_ne_hyphen {text : String} {depth : Nat} {cs : List Content}
    (h : Holds depth text (.array cs)) : text.toList.head? ≠ some '-' := by
  intro hhead
  obtain ⟨rest, hrest⟩ := List.head?_eq_some_iff.mp hhead
  have hbytes : Text.toBytes text = 0x2d :: rest.flatMap String.utf8EncodeChar := by
    rw [Text.toBytes_eq, hrest]
    rfl
  obtain ⟨v, ⟨ts, hlexes, hplace⟩, hcontent⟩ := h
  obtain ⟨t, us, htokens, ht⟩ := exists_finish_numeral .sign (.zero true)
    (rest.flatMap String.utf8EncodeChar)
  have hts : ts = t :: us := by
    rw [← htokens, ← hlexes.tokens_eq, hbytes]
    rfl
  rw [hts] at hplace
  obtain ⟨items, rfl⟩ := eq_array_of_found (found_of_content hcontent)
  -- No array is put in its place after such a token.
  have hrefused (b : Break) (h : (Builder.value [.array []]).feed (t :: us) =
      (Builder.refuse (.value [.array []]) b).feed us) : False := by
    rw [hplace, Builder.refuse, Builder.feed_done] at h
    cases h
  rcases ht with hbroken | ⟨n, rfl⟩
  · cases t with
    | broken b => exact hrefused b rfl
    | brokenText b => exact hrefused b rfl
    | _ => cases hbroken
  · have hroot : (Builder.done (.number n) false).feed us = .done (.array items) false := hplace []
    rw [Builder.feed_done] at hroot
    cases hroot

end Json

/-! ### Arguments -/

namespace Command

/-- The option for a part of a slice, if the part is there. -/
def partOption (p : Parameter) : Option Int64 → List String
  | none => []
  | some w => ["--" ++ p.name, w.toInt.repr]

/-- The options for the parts of a slice that are there. -/
def sliceOptions (slice : Slice) : List String :=
  partOption .start slice.start ++ partOption .stop slice.stop ++ partOption .step slice.step

/-- The command line for a load. -/
def loadArguments (dtype data : String) (slice : Slice) : List String :=
  ["getitem", "--dtype", dtype, "--data", data] ++ sliceOptions slice

/-- The command line for a store. -/
def assignArguments (dtype data : String) (slice : Slice) (value : String) : List String :=
  ["setitem", "--dtype", dtype, "--data", data] ++ sliceOptions slice ++ ["--value", value]

/-- What is given with the option for a part of a slice. -/
def partGiven (p : Parameter) : Option Int64 → Given
  | none => []
  | some w => [(p, w.toInt.repr)]

/-- What is given with a data type, data and a slice, the last one first. -/
def operationGiven (dtype data : String) (slice : Slice) : Given :=
  partGiven .step slice.step ++ (partGiven .stop slice.stop ++
    (partGiven .start slice.start ++ [(.data, data), (.dtype, dtype)]))

theorem readOptions_option {known : List Parameter} {given : Given} {argument value : String}
    {rest : List String} {p : Parameter} (hnew : newOption? known given argument = some (p, none))
    (hflag : p.isFlag = false) (hadmits : p.admits value = true) :
    readOptions known given (argument :: value :: rest) =
      readOptions known ((p, value) :: given) rest := by
  simp [readOptions, hnew, hflag, hadmits]

theorem readOptions_part {known : List Parameter} {given : Given} {p : Parameter}
    (hp : p ∈ sliceParameters) (hnew : newOption? known given ("--" ++ p.name) = some (p, none))
    (part : Option Int64) (rest : List String) :
    readOptions known given (partOption p part ++ rest) =
      readOptions known (partGiven p part ++ given) rest := by
  cases part with
  | none => rfl
  | some w =>
      have hsigned : (Text.signed? w.toInt.repr).isSome = true := by rw [Text.signed?_repr]; rfl
      have hvalue : p.isFlag = false ∧ p.admits w.toInt.repr = true := by
        simp only [sliceParameters, List.mem_cons, List.not_mem_nil, or_false] at hp
        rcases hp with rfl | rfl | rfl <;> exact ⟨rfl, by simp [Parameter.admits, hsigned]⟩
      exact readOptions_option hnew hvalue.1 hvalue.2

/-- The options of a command line for one operation, up to the value. -/
theorem readOptions_operation {known : List Parameter}
    (hknown : known = [.dtype, .data] ++ sliceParameters ∨
      known = [.dtype, .data, .value] ++ sliceParameters)
    {dtype data : String} (hdtype : Parameter.dtype.admits dtype = true)
    (hdata : Parameter.data.admits data = true) (slice : Slice) (rest : List String) :
    readOptions known [] ("--dtype" :: dtype :: "--data" :: data :: (sliceOptions slice ++ rest)) =
      readOptions known (operationGiven dtype data slice) rest := by
  obtain ⟨start, stop, step⟩ := slice
  have hfirst : newOption? known [] "--dtype" = some (.dtype, none) := by
    rcases hknown with rfl | rfl <;> rfl
  have hsecond : newOption? known [(.dtype, dtype)] "--data" = some (.data, none) := by
    rcases hknown with rfl | rfl <;> rfl
  have hstart : newOption? known [(.data, data), (.dtype, dtype)] "--start" =
      some (.start, none) := by
    rcases hknown with rfl | rfl <;> rfl
  have hstop : newOption? known (partGiven .start start ++ [(.data, data), (.dtype, dtype)])
      "--stop" = some (.stop, none) := by
    cases start <;> rcases hknown with rfl | rfl <;> rfl
  have hstep : newOption? known (partGiven .stop stop ++ (partGiven .start start ++
      [(.data, data), (.dtype, dtype)])) "--step" = some (.step, none) := by
    cases start <;> cases stop <;> rcases hknown with rfl | rfl <;> rfl
  rw [readOptions_option hfirst rfl hdtype, readOptions_option hsecond rfl hdata, sliceOptions,
    List.append_assoc, List.append_assoc, readOptions_part (by decide) hstart,
    readOptions_part (by decide) hstop, readOptions_part (by decide) hstep]
  rfl

/-- What is given describes a data type, data, and the slice. -/
theorem get?_operationGiven (dtype data : String) (slice : Slice) :
    Given.get? (operationGiven dtype data slice) .dtype = some dtype ∧
      Given.get? (operationGiven dtype data slice) .data = some data ∧
      Given.slice? (operationGiven dtype data slice) = some slice := by
  obtain ⟨_ | start, _ | stop, _ | step⟩ := slice <;>
    simp [operationGiven, partGiven, Given.get?, Given.slice?, Given.signed?, Text.signed?_repr]

/-- A value that is given describes nothing else. -/
theorem get?_value (value : String) (given : Given) :
    Given.get? ((.value, value) :: given) .dtype = given.get? .dtype ∧
      Given.get? ((.value, value) :: given) .data = given.get? .data ∧
      Given.slice? ((.value, value) :: given) = given.slice? :=
  ⟨rfl, rfl, rfl⟩

variable {name data : String} {dtype : DType} {values : Array Scalar}

/-- An argument that does not begin with a hyphen may be the value of any option. -/
theorem admits_of_head? {argument : String} (h : argument.toList.head? ≠ some '-')
    (p : Parameter) : p.admits argument = true := by
  have hstarts : argument.startsWith "-" = false := by
    rw [← Bool.not_eq_true, String.startsWith_string_iff]
    rintro ⟨rest, hrest⟩
    rw [← hrest] at h
    exact h rfl
  cases p <;> simp [Parameter.admits, hstarts]

/-- No name of a data type begins like an option. -/
theorem head?_ofName? (h : DType.ofName? name = some dtype) : name.toList.head? ≠ some '-' := by
  have hnames : ∀ name ∈ DType.all.map DType.name ++ ["intp", "uintp"],
      name.toList.head? ≠ some '-' := by decide
  exact hnames name (exists_ofName?_iff.mp ⟨_, h⟩)

/-- Data that are decoded are the scalars of an array. -/
theorem holds_of_decodeScalars (h : decodeScalars (Text.toBytes data) = .ok values) :
    Holds maxDepth data (sourceContent (.sequence values)) :=
  decodeScalars_eq_ok_iff.mp h

/-- **The command line for a load** is read as that load. -/
theorem parse?_loadArguments (hdtype : DType.ofName? name = some dtype)
    (hdata : decodeScalars (Text.toBytes data) = .ok values) (slice : Slice) :
    parse? (loadArguments name data slice) = some (.getitem dtype data slice) := by
  obtain ⟨hget, hgetData, hslice⟩ := get?_operationGiven name data slice
  have hoptions := readOptions_operation (.inl rfl) (admits_of_head? (head?_ofName? hdtype) .dtype)
    (admits_of_head? (head?_ne_hyphen (holds_of_decodeScalars hdata)) .data) slice []
  rw [List.append_nil] at hoptions
  show parse? ("getitem" :: "--dtype" :: name :: "--data" :: data :: sliceOptions slice) = _
  simp only [parse?, hoptions]
  simp [readOptions, hget, hgetData, hslice, hdtype]

/-- **The command line for a store** is read as that store. -/
theorem parse?_assignArguments (hdtype : DType.ofName? name = some dtype)
    (hdata : decodeScalars (Text.toBytes data) = .ok values) (slice : Slice) (value : String) :
    parse? (assignArguments name data slice value) = some (.setitem dtype data slice value) := by
  obtain ⟨hget, hgetData, hslice⟩ := get?_operationGiven name data slice
  have hoptions := readOptions_operation (.inr rfl) (admits_of_head? (head?_ofName? hdtype) .dtype)
    (admits_of_head? (head?_ne_hyphen (holds_of_decodeScalars hdata)) .data) slice
    ["--value", value]
  have hnew : newOption? ([.dtype, .data, .value] ++ sliceParameters)
      (operationGiven name data slice) "--value" = some (.value, none) := by
    obtain ⟨_ | start, _ | stop, _ | step⟩ := slice <;> rfl
  rw [readOptions_option hnew rfl rfl] at hoptions
  show parse? ("setitem" :: "--dtype" :: name :: "--data" :: data ::
    (sliceOptions slice ++ ["--value", value])) = _
  simp only [parse?, hoptions]
  obtain ⟨hdtype', hdata', hslice'⟩ := get?_value value (operationGiven name data slice)
  have hvalue : Given.get? ((.value, value) :: operationGiven name data slice) .value =
      some value := rfl
  simp [readOptions, hdtype', hdata', hslice', hvalue, hget, hgetData, hslice, hdtype]

end Command

/-! ### Scripts of one operation -/

namespace Script

/-- The member for a part of a slice, if the part is there. -/
def partMember (name : String) : Option Int64 → List (String × String)
  | none => []
  | some w => [(name, w.toInt.repr)]

/-- The members for the parts of a slice that are there. -/
def sliceMembers (slice : Slice) : List (String × String) :=
  partMember "start" slice.start ++ partMember "stop" slice.stop ++ partMember "step" slice.step

/-- The text of a script of one operation. -/
def oneText (dtype data : String) (operation : List (String × String)) : String :=
  objectText [("dtype", print (.text dtype)), ("data", data),
    ("ops", arrayText [objectText operation])]

/-- The text of a script that loads once. -/
def loadText (dtype data : String) (slice : Slice) : String :=
  oneText dtype data (("op", print (.text "getitem")) :: sliceMembers slice)

/-- The text of a script that stores once. -/
def assignText (dtype data : String) (slice : Slice) (value : String) : String :=
  oneText dtype data
    (("op", print (.text "setitem")) :: (sliceMembers slice ++ [("value", value)]))

/-- The contents for a part of a slice, if the part is there. -/
def partContents (name : String) : Option Int64 → List (String × Content)
  | none => []
  | some w => [(name, .scalar (.int w))]

/-- The contents for the parts of a slice that are there. -/
def sliceContents (slice : Slice) : List (String × Content) :=
  partContents "start" slice.start ++ partContents "stop" slice.stop ++
    partContents "step" slice.step

theorem holds_text (depth : Nat) (s : String) : Holds depth (print (.text s)) (.text s) :=
  ⟨_, embeds_print (.text s), rfl⟩

theorem holds_word (depth : Nat) (w : Int64) :
    Holds depth w.toInt.repr (.scalar (.int w)) := by
  have hprint : print (.int w.toInt) = w.toInt.repr := String.empty_append
  exact ⟨_, hprint ▸ embeds_print (.int w.toInt), content_number (Numeral.scalar?_ofInt w) depth⟩

theorem holds_sliceMembers (depth : Nat) (slice : Slice) :
    List.Forall₂ (HoldsMember depth) (sliceMembers slice) (sliceContents slice) := by
  have hpart (name : String) (part : Option Int64) :
      List.Forall₂ (HoldsMember depth) (partMember name part) (partContents name part) := by
    cases part with
    | none => exact .nil
    | some w => exact .cons ⟨rfl, holds_word depth w⟩ .nil
  exact List.rel_append (List.rel_append (hpart _ _) (hpart _ _)) (hpart _ _)

/-- The tag of an operation is taken away from its other members. -/
theorem operation_object {tag : String} {kind : OperationKind}
    (hkind : OperationKind.ofName? tag = some kind) {others : List (String × Content)}
    (hothers : ∀ m ∈ others, m.1 ≠ "op") :
    (Content.object (("op", .text tag) :: others)).operation = operationByName kind others := by
  have hfold (acc : List (String × Content)) :
      others.foldlM Content.readOperationMember ⟨some kind, acc⟩ =
        .ok ⟨some kind, others.reverse ++ acc⟩ := by
    induction others generalizing acc with
    | nil => rfl
    | cons m rest ih =>
        obtain ⟨hm, hrest⟩ := List.forall_mem_cons.mp hothers
        rw [List.foldlM_cons, Content.readOperationMember, if_neg hm]
        refine (ih hrest (m :: acc)).trans ?_
        rw [List.reverse_cons, List.append_assoc, List.singleton_append]
  have htag : Content.readOperationMember ⟨none, []⟩ ("op", .text tag) = .ok ⟨some kind, []⟩ := by
    have hread : (Content.text tag).operationKind = .ok kind :=
      bind_eq_ok.mpr ⟨tag, rfl, by rw [hkind]⟩
    rw [Content.readOperationMember, if_pos rfl, hread]
    rfl
  have hparts : (("op", .text tag) :: others).foldlM Content.readOperationMember ⟨none, []⟩ =
      .ok ⟨some kind, others.reverse⟩ := by
    simp only [List.foldlM_cons, do_eq_ok]
    exact ⟨_, htag, by rw [hfold, List.append_nil]⟩
  rw [Content.operation, hparts]
  exact congrArg (operationByName kind) others.reverse_reverse

theorem sliceContents_name_ne (slice : Slice) : ∀ m ∈ sliceContents slice, m.1 ≠ "op" := by
  obtain ⟨_ | start, _ | stop, _ | step⟩ := slice <;> simp [sliceContents, partContents]

/-- The contents of a load. -/
theorem operation_load (slice : Slice) :
    (Content.object (("op", .text "getitem") :: sliceContents slice)).operation =
      .ok (.load slice) := by
  rw [operation_object rfl (sliceContents_name_ne slice)]
  obtain ⟨_ | start, _ | stop, _ | step⟩ := slice <;> rfl

/-- The contents of a store. -/
theorem operation_assign {c : Content} {source : Source Scalar} (h : c.source = .ok source)
    (slice : Slice) :
    (Content.object
      (("op", .text "setitem") :: (sliceContents slice ++ [("value", c)]))).operation =
        .ok (.assign slice source) := by
  have hnames : ∀ m ∈ sliceContents slice ++ [("value", c)], m.1 ≠ "op" := by
    intro m hm
    rcases List.mem_append.mp hm with hm | hm
    · exact sliceContents_name_ne slice m hm
    · rw [List.mem_singleton.mp hm]
      exact of_decide_eq_false rfl
  have hslice : ∃ parts : SliceParts, parts.slice = slice ∧
      (sliceContents slice).foldlM readAssignMember (.none, none) = .ok (parts, none) := by
    obtain ⟨_ | start, _ | stop, _ | step⟩ := slice <;> exact ⟨_, rfl, rfl⟩
  obtain ⟨parts, rfl, hparts⟩ := hslice
  have hvalue : readAssignMember (parts, none) ("value", c) = .ok (parts, some source) := by
    rw [readAssignMember, if_pos rfl, h]
    rfl
  rw [operation_object rfl hnames]
  refine do_eq_ok.mpr ⟨(parts, some source), ?_, rfl⟩
  simp only [List.foldlM_append, List.foldlM_cons, List.foldlM_nil, do_eq_ok]
  exact ⟨_, hparts, _, hvalue, rfl⟩

theorem dtype_text {name : String} {dtype : DType} (h : DType.ofName? name = some dtype) :
    (Content.text name).dtype = .ok dtype := by
  have hparse : DType.parse name = .ok dtype := by
    unfold DType.ofName? at h
    split at h <;> cases h <;> decide +kernel
  exact bind_eq_ok.mpr ⟨name, rfl, by rw [hparse]; rfl⟩

theorem readScriptMember_dtype {name : String} {dtype : DType}
    (h : DType.ofName? name = some dtype) :
    Content.readScriptMember ⟨none, none, none, none⟩ ("dtype", .text name) =
      .ok ⟨none, some dtype, none, none⟩ := by
  rw [Content.readScriptMember, dtype_text h]
  rfl

theorem readScriptMember_data_eq_ok {dtype : DType} {cs : List Content} {p : ScriptParts} :
    Content.readScriptMember ⟨none, some dtype, none, none⟩ ("data", .array cs) = .ok p ↔
      ∃ values : Array Scalar, cs = values.toList.map .scalar ∧
        ⟨none, some dtype, some values, none⟩ = p := by
  simp only [Content.readScriptMember, once, map_ok, elements_eq_ok, Content.array.injEq,
    exists_exists_and_eq_and]

/-- The contents of a script of one operation. -/
theorem script_one {name : String} {dtype : DType} {values : Array Scalar} {c : Content}
    {o : Operation} (hdtype : DType.ofName? name = some dtype) (ho : c.operation = .ok o) :
    (Content.object [("dtype", .text name), ("data", sourceContent (.sequence values)),
      ("ops", .array [c])]).script = .ok ⟨none, dtype, values, [o]⟩ := by
  have hoperations : (Content.array [c]).elements Content.operation = .ok #[o] :=
    Content.elements_eq_ok.mpr ⟨[c], rfl, mapM_eq_ok_iff.mpr (.cons ho .nil)⟩
  have hoperationsMember : Content.readScriptMember ⟨none, some dtype, some values, none⟩
      ("ops", .array [c]) = .ok ⟨none, some dtype, some values, some #[o]⟩ := by
    rw [Content.readScriptMember, hoperations]
    rfl
  refine do_eq_ok.mpr ⟨⟨none, some dtype, some values, some #[o]⟩, ?_, rfl⟩
  simp only [List.foldlM_cons, List.foldlM_nil, do_eq_ok]
  exact ⟨_, readScriptMember_dtype hdtype, _,
    readScriptMember_data_eq_ok.mpr ⟨values, rfl, rfl⟩, _, hoperationsMember, rfl⟩

variable {name data : String} {dtype : DType} {values : Array Scalar}

/-- **The text of a script of one operation** is decoded as that script. -/
theorem decodeScript_oneText (hdtype : DType.ofName? name = some dtype)
    (hdata : decodeScalars (Text.toBytes data) = .ok values)
    {operation : List (String × String)} {ms : List (String × Content)} {o : Operation}
    (hms : List.Forall₂ (HoldsMember (maxDepth - 3)) operation ms)
    (ho : (Content.object ms).operation = .ok o) :
    decodeScript (Text.toBytes (oneText name data operation)) =
      .ok ⟨none, dtype, values, [o]⟩ := by
  have hvalues : Holds (maxDepth - 1) data (sourceContent (.sequence values)) :=
    (Command.holds_of_decodeScalars hdata).sourceContent _
  refine (decode_eq_ok_iff reads_script).mpr ⟨_, holds_objectText ?_, script_one hdtype ho⟩
  exact .cons ⟨rfl, holds_text _ name⟩ (.cons ⟨rfl, hvalues⟩
    (.cons ⟨rfl, holds_arrayText (.cons (holds_objectText hms) .nil)⟩ .nil))

/-- The text of a script that loads once. -/
theorem decodeScript_loadText (hdtype : DType.ofName? name = some dtype)
    (hdata : decodeScalars (Text.toBytes data) = .ok values) (slice : Slice) :
    decodeScript (Text.toBytes (loadText name data slice)) =
      .ok ⟨none, dtype, values, [.load slice]⟩ :=
  decodeScript_oneText hdtype hdata
    (.cons ⟨rfl, holds_text _ "getitem"⟩ (holds_sliceMembers _ slice)) (operation_load slice)

/-- The text of a script that stores once. -/
theorem decodeScript_assignText (hdtype : DType.ofName? name = some dtype)
    (hdata : decodeScalars (Text.toBytes data) = .ok values) (slice : Slice) {value : String}
    {source : Source Scalar} (hvalue : decodeSource (Text.toBytes value) = .ok source) :
    decodeScript (Text.toBytes (assignText name data slice value)) =
      .ok ⟨none, dtype, values, [.assign slice source]⟩ := by
  have hreads : Reads maxDepth (·.source maxDepth) Content.source :=
    reads_bind (reads_whole maxDepth) _
  obtain ⟨c, hc, hsource⟩ := (decode_eq_ok_iff hreads).mp hvalue
  obtain rfl := source_eq_ok.mp hsource
  have hmember : HoldsMember (maxDepth - 3) ("value", value) ("value", sourceContent source) :=
    ⟨rfl, hc.sourceContent _⟩
  exact decodeScript_oneText hdtype hdata
    (.cons ⟨rfl, holds_text _ "setitem"⟩
      (List.rel_append (holds_sliceMembers _ slice) (.cons hmember .nil)))
    (operation_assign hsource slice)

end Script

/-! ### The two ways -/

/-- Two responses agree in all but the log. -/
structure Response.Agrees (r r' : Response) : Prop where
  exitCode : r.exitCode = r'.exitCode
  stdout : r.stdout = r'.stdout
  error : r.error = r'.error

namespace Command

variable {name data : String} {dtype : DType} {values : Array Scalar} {wording : Wording}
  {limits : Limits} {contents : String → Except FileError (List UInt8)}

/-- A command for one operation agrees with the run of a file that is decoded as the script of
that operation. -/
theorem executeOperation_agrees {bytes : List UInt8} {path : String} {o : Operation}
    (hdata : decodeScalars (Text.toBytes data) = .ok values) (hfile : contents path = .ok bytes)
    (hdecode : decodeScript bytes = .ok ⟨none, dtype, values, [o]⟩) :
    (executeOperation wording limits dtype data o).Agrees
      (executeRun wording limits (contents path) path false) := by
  rw [executeOperation, hdata, executeRun, hfile, Script.ofFile, Script.ofBytes, hdecode]
  dsimp only
  cases (⟨none, dtype, values, [o]⟩ : Script).validate limits with
  | error e => exact ⟨rfl, rfl, rfl⟩
  | ok u => exact ⟨rfl, rfl, rfl⟩

/-- The run of a file, without a report on a script that cannot be used. -/
theorem eq_run_of_parse? {path : String} {c : Command}
    (h : parse? ["run", "--input", path] = some c) : c = .run path false := by
  have hnew : newOption? [.input, .reportJson] [] "--input" = some (.input, none) := rfl
  by_cases hadmits : Parameter.input.admits path = true
  · have hoptions : readOptions [.input, .reportJson] [] ["--input", path] =
        readOptions [.input, .reportJson] [(.input, path)] [] :=
      readOptions_option hnew rfl hadmits
    have hgiven : Given.get? [(.input, path)] .input = some path ∧
        Given.has [(.input, path)] .reportJson = false := ⟨rfl, rfl⟩
    simp [parse?, hoptions, readOptions, hgiven] at h
    exact h.2.symm
  · simp [parse?, readOptions, hnew, Parameter.isFlag, hadmits] at h

/-- **A command for one operation is a script of one operation.** Take the name of a data type,
data and a value that can be decoded, and any slice. The command lines for a load and for a
store are accepted, and they are answered like the run of a file that holds a script with these
parts, under any limits: with the same exit code, standard output and error text. -/
theorem agrees_with_script (hdtype : DType.ofName? name = some dtype)
    (hdata : decodeScalars (Text.toBytes data) = .ok values) (slice : Slice)
    (wording : Wording) (limits : Limits)
    (contents : String → Except FileError (List UInt8)) (path : String) (run : Command)
    (hrun : parse? ["run", "--input", path] = some run) :
    (contents path = .ok (Text.toBytes (Script.loadText name data slice)) →
      ∃ c, parse? (loadArguments name data slice) = some c ∧
        (c.execute wording limits contents).Agrees (run.execute wording limits contents)) ∧
    ∀ value source, decodeSource (Text.toBytes value) = .ok source →
      contents path = .ok (Text.toBytes (Script.assignText name data slice value)) →
        ∃ c, parse? (assignArguments name data slice value) = some c ∧
          (c.execute wording limits contents).Agrees (run.execute wording limits contents) := by
  obtain rfl := eq_run_of_parse? hrun
  refine ⟨fun hfile => ?_, fun value source hvalue hfile => ?_⟩
  · exact ⟨_, parse?_loadArguments hdtype hdata slice,
      executeOperation_agrees hdata hfile (Script.decodeScript_loadText hdtype hdata slice)⟩
  · refine ⟨_, parse?_assignArguments hdtype hdata slice value, ?_⟩
    rw [execute, hvalue]
    exact executeOperation_agrees hdata hfile
      (Script.decodeScript_assignText hdtype hdata slice hvalue)

/-- Two elements of three are replaced by a number, from the command line and from a file. -/
theorem agrees_with_script_int8 :
    ∃ c run, parse? ["setitem", "--dtype", "int8", "--data", "[0, 1, 2]", "--start", "-2",
        "--value", "7"] = some c ∧
      parse? ["run", "--input", "a.json"] = some run ∧
      ∀ contents, contents "a.json" = .ok (Text.toBytes
          ("\x7b\"dtype\":\"int8\",\"data\":[0, 1, 2],\"ops\":" ++
            "[\x7b\"op\":\"setitem\",\"start\":-2,\"value\":7\x7d]\x7d")) →
        (c.execute .plain .standard contents).Agrees (run.execute .plain .standard contents) := by
  have hdata : decodeScalars (Text.toBytes "[0, 1, 2]") = .ok #[.int 0, .int 1, .int 2] := by
    rw [Text.toBytes_eq]
    decide +kernel
  have hvalue : decodeSource (Text.toBytes "7") = .ok (.scalar (.int 7)) := by
    rw [Text.toBytes_eq]
    rfl
  have hrun : parse? ["run", "--input", "a.json"] = some (.run "a.json" false) := by decide +kernel
  have htext : Script.assignText "int8" "[0, 1, 2]" ⟨some (-2), none, none⟩ "7" =
      "\x7b\"dtype\":\"int8\",\"data\":[0, 1, 2],\"ops\":" ++
        "[\x7b\"op\":\"setitem\",\"start\":-2,\"value\":7\x7d]\x7d" := by
    simp only [Script.assignText, Script.oneText, Script.sliceMembers, Script.partMember,
      List.nil_append, List.append_nil, List.cons_append, objectText, membersText, arrayText,
      itemsText, print, write, writeString, String.foldl_eq_foldl_toList]
    decide +kernel
  have harguments : assignArguments "int8" "[0, 1, 2]" ⟨some (-2), none, none⟩ "7" =
      ["setitem", "--dtype", "int8", "--data", "[0, 1, 2]", "--start", "-2", "--value", "7"] := by
    decide +kernel
  rw [← harguments, ← htext]
  have hname : DType.ofName? "int8" = some .int8 := rfl
  have hparse := parse?_assignArguments hname hdata ⟨some (-2), none, none⟩ "7"
  refine ⟨_, _, hparse, hrun, fun contents hfile => ?_⟩
  obtain ⟨c, hc, hagrees⟩ := (agrees_with_script hname hdata ⟨some (-2), none, none⟩ .plain
    .standard contents "a.json" _ hrun).2 "7" _ hvalue hfile
  rw [hparse] at hc
  cases hc
  exact hagrees

end Command

end StridedSlice
