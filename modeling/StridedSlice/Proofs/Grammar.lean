import StridedSlice.Proofs.Operation
import StridedSlice.Script.Read
/-!
# StridedSlice.Proofs.Grammar

The **grammar** of scripts whose parts are named: which texts are read as a script and keep
within the limits.

* `scriptShape`: the shape of scripts;
* `IsScript`: the grammar, with the limits;
* `Script.accepted_iff_isScript`: the texts that are accepted are those with contents in the
  grammar.

The reader takes any text as the schema, and operations by position too (`readShape`); the
schema is looked at afterwards, together with the limits (`validate_script_iff`).
-/

namespace StridedSlice.Json

/-! ### The shape of scripts -/

namespace Content

/-- Null, or the schema of scripts with any blanks around it. -/
def IsSchema (c : Content) : Prop :=
  c = .null ∨ ∃ v, c = .text v ∧ Text.trimList v.toList = scriptSchema.toList

/-- The name of a data type, or one of the two other names, in any case and with any blanks
around it. -/
def IsType (c : Content) : Prop :=
  ∃ v, c = .text v ∧ DType.normalForm v ∈ DType.all.map DType.name ++ ["intp", "uintp"]

/-- An array of such objects. -/
def IsOperations (c : Content) : Prop :=
  ∃ items, c = .array items ∧ ∀ item ∈ items, item.IsOperation

end Content

/-- The members of a script. -/
def scriptShape : Shape :=
  ⟨[("schema_version", Content.IsSchema), ("dtype", Content.IsType),
    ("data", Content.IsScalars), ("ops", Content.IsOperations)], ["dtype", "data"]⟩

theorem exists_ofName?_iff {name : String} :
    (∃ d, DType.ofName? name = some d) ↔ name ∈ DType.all.map DType.name ++ ["intp", "uintp"] := by
  constructor
  · intro h
    obtain ⟨d, h⟩ := h
    unfold DType.ofName? at h
    split at h <;> first | decide | cases h
  · intro h
    rcases List.mem_append.mp h with h | h
    · obtain ⟨d, _, rfl⟩ := List.mem_map.mp h
      exact ⟨d, DType.ofName?_name d⟩
    · rcases List.mem_pair.mp h with rfl | rfl
      · exact ⟨.int64, rfl⟩
      · exact ⟨.uint64, rfl⟩

theorem dtype_ok_iff {c : Content} : (∃ d, c.dtype = .ok d) ↔ c.IsType := by
  simp only [Content.dtype, Content.IsType, bind_eq_ok, string_eq_ok, ← exists_ofName?_iff]
  constructor
  · intro h
    obtain ⟨d, t, hc, hd⟩ := h
    refine ⟨t, hc, d, ?_⟩
    unfold DType.parse at hd
    split at hd <;> cases hd
    assumption
  · intro h
    obtain ⟨t, hc, d, hd⟩ := h
    exact ⟨d, t, hc, by rw [DType.parse, hd]; rfl⟩

/-! ### Scripts -/

theorem readScriptMember_eq_ok {p p' : ScriptParts} {m : String × Content} :
    Content.readScriptMember p m = .ok p' ↔
      m.1 = "schema_version" ∧ p.schemaVersion = none ∧
          (∃ v, m.2.schemaVersion = .ok v ∧ { p with schemaVersion := some v } = p') ∨
        m.1 = "dtype" ∧ p.dtype = none ∧
          (∃ v, m.2.dtype = .ok v ∧ { p with dtype := some v } = p') ∨
        m.1 = "data" ∧ p.data = none ∧
          (∃ v, m.2.elements Content.element = .ok v ∧ { p with data := some v } = p') ∨
        m.1 = "ops" ∧ p.operations = none ∧
          ∃ v, m.2.elements Content.operation = .ok v ∧ { p with operations := some v } = p' := by
  unfold Content.readScriptMember
  split
  · next h => simp [h, map_ok, once_eq_ok, and_assoc]
  · next h => simp [h, map_ok, once_eq_ok, and_assoc]
  · next h => simp [h, map_ok, once_eq_ok, and_assoc]
  · next h => simp [h, map_ok, once_eq_ok, and_assoc]
  · next hschema hdtype hdata hops =>
      simp [show m.1 ≠ "schema_version" from hschema, show m.1 ≠ "dtype" from hdtype,
        show m.1 ≠ "data" from hdata, show m.1 ≠ "ops" from hops, refuse_ne_ok]

/-- What the reader takes: any text as the schema, and operations by position too. -/
def readShape : Shape :=
  ⟨[("schema_version", fun c => ∃ v, c.schemaVersion = .ok v), ("dtype", Content.IsType),
    ("data", Content.IsScalars), ("ops", fun c => ∃ v, c.elements Content.operation = .ok v)],
    ["dtype", "data"]⟩

theorem reader_script : Reader readShape Content.readScriptMember (fun p name =>
    name = "schema_version" ∧ p.schemaVersion ≠ none ∨ name = "dtype" ∧ p.dtype ≠ none ∨
      name = "data" ∧ p.data ≠ none ∨ name = "ops" ∧ p.operations ≠ none) where
  takes p m := by
    have hallows : readShape.Allows m ↔
        m.1 = "schema_version" ∧ (∃ v, m.2.schemaVersion = .ok v) ∨
          m.1 = "dtype" ∧ (∃ v, m.2.dtype = .ok v) ∨
          m.1 = "data" ∧ (∃ v, m.2.elements Content.element = .ok v) ∨
          m.1 = "ops" ∧ ∃ v, m.2.elements Content.operation = .ok v := by
      simp [Shape.Allows, readShape, eq_comm (b := m.1), dtype_ok_iff, elements_ok_iff]
    rw [hallows]
    simp only [readScriptMember_eq_ok]
    constructor
    · intro h
      obtain ⟨p', h⟩ := h
      rcases h with ⟨hm, hp, v, hv, _⟩ | ⟨hm, hp, v, hv, _⟩ | ⟨hm, hp, v, hv, _⟩ |
        ⟨hm, hp, v, hv, _⟩
      · exact ⟨by simp [hm, hp], .inl ⟨hm, v, hv⟩⟩
      · exact ⟨by simp [hm, hp], .inr (.inl ⟨hm, v, hv⟩)⟩
      · exact ⟨by simp [hm, hp], .inr (.inr (.inl ⟨hm, v, hv⟩))⟩
      · exact ⟨by simp [hm, hp], .inr (.inr (.inr ⟨hm, v, hv⟩))⟩
    · intro h
      obtain ⟨hnew, h⟩ := h
      rcases h with ⟨hm, v, hv⟩ | ⟨hm, v, hv⟩ | ⟨hm, v, hv⟩ | ⟨hm, v, hv⟩
      · exact ⟨_, .inl ⟨hm, by simpa [hm] using hnew, v, hv, rfl⟩⟩
      · exact ⟨_, .inr (.inl ⟨hm, by simpa [hm] using hnew, v, hv, rfl⟩)⟩
      · exact ⟨_, .inr (.inr (.inl ⟨hm, by simpa [hm] using hnew, v, hv, rfl⟩))⟩
      · exact ⟨_, .inr (.inr (.inr ⟨hm, by simpa [hm] using hnew, v, hv, rfl⟩))⟩
  has_step h name := by
    rcases readScriptMember_eq_ok.mp h with ⟨hm, hp, v, _, rfl⟩ | ⟨hm, hp, v, _, rfl⟩ |
      ⟨hm, hp, v, _, rfl⟩ | ⟨hm, hp, v, _, rfl⟩ <;> simp [hm, hp] <;> tauto

/-- Before any member. -/
def noParts : ScriptParts := ⟨none, none, none, none⟩

theorem script_eq_ok {members : List (String × Content)} {s : Script} :
    (Content.object members).script = .ok s ↔
      ∃ p, members.foldlM Content.readScriptMember noParts = .ok p ∧
        p.dtype = some s.dtype ∧ p.data = some s.data ∧
        p.schemaVersion.getD none = s.schemaVersion ∧
        (p.operations.getD #[]).toList = s.operations := by
  simp only [Content.script, do_eq_ok, pure_eq_ok, required_eq_ok]
  constructor
  · intro h
    obtain ⟨p, hfold, dtype, hdtype, data, hdata, rfl⟩ := h
    exact ⟨p, hfold, hdtype, hdata, rfl, rfl⟩
  · intro h
    obtain ⟨p, hfold, hdtype, hdata, hschema, hops⟩ := h
    exact ⟨p, hfold, s.dtype, hdtype, s.data, hdata, by rw [hschema, hops]⟩

theorem script_ok_iff {members : List (String × Content)} :
    (∃ s, (Content.object members).script = .ok s) ↔ readShape.Admits members := by
  rw [← reader_script.admits_iff (s := noParts) (by simp [noParts])]
  simp only [script_eq_ok, readShape, List.forall_mem_cons]
  constructor
  · intro h
    obtain ⟨s, p, hfold, hdtype, hdata, _⟩ := h
    exact ⟨p, hfold, by simp [hdtype, hdata]⟩
  · intro h
    obtain ⟨p, hfold, hdtype, hdata, _⟩ := h
    obtain ⟨dtype, hdtype⟩ := Option.ne_none_iff_exists'.mp (by simpa using hdtype)
    obtain ⟨data, hdata⟩ := Option.ne_none_iff_exists'.mp (by simpa using hdata)
    exact ⟨⟨_, dtype, data, _⟩, p, hfold, hdtype, hdata, rfl, rfl⟩

section Fields

variable {members : List (String × Content)} {p : ScriptParts}
  (hfold : members.foldlM Content.readScriptMember noParts = .ok p)

include hfold

theorem schemaVersion_eq_some_iff (v : Option String) :
    p.schemaVersion = some v ↔ ∃ c, ("schema_version", c) ∈ members ∧ c.schemaVersion = .ok v := by
  have h := reader_script.field_eq_some_iff (·.schemaVersion) "schema_version"
    Content.schemaVersion (by simp) (fun h => ?_) (fun h hm => ?_) hfold v
  · simpa [noParts] using h
  · obtain ⟨_, v, hv, rfl⟩ := by simpa [readScriptMember_eq_ok] using h
    exact ⟨v, hv, rfl⟩
  · rcases readScriptMember_eq_ok.mp h with ⟨h', _⟩ | ⟨_, _, v, _, rfl⟩ | ⟨_, _, v, _, rfl⟩ |
      ⟨_, _, v, _, rfl⟩
    · exact absurd h' hm
    all_goals rfl

theorem data_eq_some_iff (a : Array Scalar) :
    p.data = some a ↔ ∃ c, ("data", c) ∈ members ∧ c.elements Content.element = .ok a := by
  have h := reader_script.field_eq_some_iff (·.data) "data" (Content.elements Content.element)
    (by simp) (fun h => ?_) (fun h hm => ?_) hfold a
  · simpa [noParts] using h
  · obtain ⟨_, v, hv, rfl⟩ := by simpa [readScriptMember_eq_ok] using h
    exact ⟨v, hv, rfl⟩
  · rcases readScriptMember_eq_ok.mp h with ⟨_, _, v, _, rfl⟩ | ⟨_, _, v, _, rfl⟩ | ⟨h', _⟩ |
      ⟨_, _, v, _, rfl⟩
    · rfl
    · rfl
    · exact absurd h' hm
    · rfl

theorem operations_eq_some_iff (a : Array Operation) :
    p.operations = some a ↔ ∃ c, ("ops", c) ∈ members ∧ c.elements Content.operation = .ok a := by
  have h := reader_script.field_eq_some_iff (·.operations) "ops"
    (Content.elements Content.operation) (by simp) (fun h => ?_) (fun h hm => ?_) hfold a
  · simpa [noParts] using h
  · obtain ⟨_, v, hv, rfl⟩ := by simpa [readScriptMember_eq_ok] using h
    exact ⟨v, hv, rfl⟩
  · rcases readScriptMember_eq_ok.mp h with ⟨_, _, v, _, rfl⟩ | ⟨_, _, v, _, rfl⟩ |
      ⟨_, _, v, _, rfl⟩ | ⟨h', _⟩
    · rfl
    · rfl
    · rfl
    · exact absurd h' hm

end Fields

/-! ### Limits -/

/-- How long the sequences of a script may be. -/
structure WithinLimits (limits : Limits) (members : List (String × Content)) : Prop where
  data : ∀ items, ("data", .array items) ∈ members → items.length ≤ limits.elements
  operations : ∀ items, ("ops", .array items) ∈ members → items.length ≤ limits.operations
  sequences : ∀ items, ("ops", .array items) ∈ members → ∀ op, .object op ∈ items →
    ∀ vs, ("value", .array vs) ∈ op → vs.length ≤ limits.elements

theorem findLongSequence_eq_none_iff (limit op : Nat) (os : List Operation) :
    Script.findLongSequence limit op os = none ↔
      ∀ o ∈ os, ∀ vs, o.sequence? = some vs → vs.size ≤ limit := by
  induction os generalizing op with
  | nil => simp [Script.findLongSequence]
  | cons o rest ih =>
      rw [Script.findLongSequence, List.forall_mem_cons]
      cases ho : o.sequence? with
      | none => simp [ih]
      | some vs =>
          by_cases hvs : limit < vs.size
          · simp [hvs, Nat.not_le_of_lt hvs]
          · simp [hvs, ih, Nat.le_of_not_lt hvs]

theorem validate_eq_ok_iff {s : Script} {limits : Limits} :
    s.validate limits = .ok () ↔
      Script.acceptsSchema s.schemaVersion ∧ s.data.size ≤ limits.elements ∧
        s.operations.length ≤ limits.operations ∧
        ∀ o ∈ s.operations, ∀ vs, o.sequence? = some vs → vs.size ≤ limits.elements := by
  rw [← findLongSequence_eq_none_iff limits.elements 0]
  unfold Script.validate
  cases Script.acceptsSchema s.schemaVersion with
  | false => simp
  | true =>
      by_cases hdata : limits.elements < s.data.size
      · simp [hdata, Nat.not_le_of_lt hdata]
      by_cases hops : limits.operations < s.operations.length
      · simp [hdata, hops, Nat.not_le_of_lt hops]
      cases hlong : Script.findLongSequence limits.elements 0 s.operations <;>
        simp [hdata, hops, Nat.le_of_not_lt hdata, Nat.le_of_not_lt hops]

theorem isSchema_iff {c : Content} {v : Option String} (h : c.schemaVersion = .ok v) :
    c.IsSchema ↔ Script.acceptsSchema v := by
  cases c with
  | null =>
      cases h
      simp [Content.IsSchema, Script.acceptsSchema]
  | text t =>
      cases h
      simp [Content.IsSchema, Script.acceptsSchema]
  | _ => cases h

/-- Every element of an array of operations is an object. -/
def NamedOperations (members : List (String × Content)) : Prop :=
  ∀ items, ("ops", .array items) ∈ members → ∀ item ∈ items, ∃ op, item = .object op

section Validation

variable {members : List (String × Content)} {p : ScriptParts} {s : Script} {limits : Limits}
  (hadmits : readShape.Admits members)
  (hfold : members.foldlM Content.readScriptMember noParts = .ok p)

include hadmits hfold

theorem acceptsSchema_iff :
    Script.acceptsSchema (p.schemaVersion.getD none) ↔
      ∀ c, ("schema_version", c) ∈ members → c.IsSchema := by
  cases hp : p.schemaVersion with
  | none =>
      refine iff_of_true rfl fun c hc => ?_
      obtain ⟨v, hv⟩ : ∃ v, c.schemaVersion = .ok v := by
        simpa [Shape.Allows, readShape] using hadmits.allowed _ hc
      have hsome := (schemaVersion_eq_some_iff hfold v).mpr ⟨c, hc, hv⟩
      rw [hp] at hsome
      cases hsome
  | some v =>
      obtain ⟨c, hc, hv⟩ := (schemaVersion_eq_some_iff hfold v).mp hp
      rw [Option.getD_some, ← isSchema_iff hv]
      constructor
      · intro h c' hc'
        rwa [eq_of_mem_of_nodup hadmits.nodup hc' hc]
      · intro h
        exact h c hc

theorem data_le_iff {data : Array Scalar} (hdata : p.data = some data) (limit : Nat) :
    data.size ≤ limit ↔ ∀ items, ("data", .array items) ∈ members → items.length ≤ limit := by
  obtain ⟨c, hc, ha⟩ := (data_eq_some_iff hfold data).mp hdata
  rw [elements_eq_ok] at ha
  subst ha
  constructor
  · intro h items hitems
    cases eq_of_mem_of_nodup hadmits.nodup hc hitems
    simpa using h
  · intro h
    simpa using h _ hc

/-- Reading operations is reading the elements of the array, one for one. -/
theorem operations_cases :
    (p.operations.getD #[]).toList = [] ∧ (∀ items, ("ops", .array items) ∉ members) ∨
      ∃ items, (∀ items', ("ops", .array items') ∈ members ↔ items' = items) ∧
        List.Forall₂ (fun c o => c.operation = .ok o) items (p.operations.getD #[]).toList := by
  cases hp : p.operations with
  | none =>
      refine .inl ⟨rfl, fun items hitems => ?_⟩
      obtain ⟨v, hv⟩ : ∃ v, (Content.array items).elements Content.operation = .ok v := by
        simpa [Shape.Allows, readShape] using hadmits.allowed _ hitems
      have hsome := (operations_eq_some_iff hfold v).mpr ⟨_, hitems, hv⟩
      rw [hp] at hsome
      cases hsome
  | some a =>
      obtain ⟨c, hc, ha⟩ := (operations_eq_some_iff hfold a).mp hp
      obtain ⟨items, rfl, hmap⟩ := Content.elements_eq_ok.mp ha
      refine .inr ⟨items, fun items' => ⟨fun h => ?_, fun h => h ▸ hc⟩, mapM_eq_ok_iff.mp hmap⟩
      cases eq_of_mem_of_nodup hadmits.nodup hc h
      rfl

theorem operations_le_iff (limit : Nat) :
    (p.operations.getD #[]).toList.length ≤ limit ↔
      ∀ items, ("ops", .array items) ∈ members → items.length ≤ limit := by
  rcases operations_cases hadmits hfold with ⟨hnil, hno⟩ | ⟨items, hitems, hall⟩
  · simp [hnil, hno]
  · simp [hitems, ← hall.length_eq]

theorem sequences_le_iff (hops : NamedOperations members) (limit : Nat) :
    (∀ o ∈ (p.operations.getD #[]).toList, ∀ vs, o.sequence? = some vs → vs.size ≤ limit) ↔
      ∀ items, ("ops", .array items) ∈ members → ∀ op, .object op ∈ items →
        ∀ vs, ("value", .array vs) ∈ op → vs.length ≤ limit := by
  rcases operations_cases hadmits hfold with ⟨hnil, hno⟩ | ⟨items, hitems, hall⟩
  · simp [hnil, hno]
  · have hmem : ("ops", .array items) ∈ members := (hitems items).mpr rfl
    rw [forall_mem_iff_of_forall₂ (P := fun c => ∀ op, c = .object op →
      ∀ vs, ("value", .array vs) ∈ op → vs.length ≤ limit) hall ?_]
    · simp only [hitems, forall_eq]
      constructor
      · intro h op hop
        exact h _ hop op rfl
      · intro h c hc op hop
        exact h op (hop ▸ hc)
    · intro c hc o ho
      obtain ⟨op, rfl⟩ := hops items hmem c hc
      rw [sequence_le_iff ho]
      simp

end Validation

/-- The script that is read is acceptable if its members keep within the limits and the
schema is the right one. -/
theorem validate_script_iff {members : List (String × Content)} {s : Script} {limits : Limits}
    (h : (Content.object members).script = .ok s) (hops : NamedOperations members) :
    s.validate limits = .ok () ↔
      (∀ c, ("schema_version", c) ∈ members → c.IsSchema) ∧ WithinLimits limits members := by
  have hadmits := script_ok_iff.mp ⟨s, h⟩
  obtain ⟨p, hfold, _, hdata, hschema, hoperations⟩ := script_eq_ok.mp h
  rw [validate_eq_ok_iff, ← hschema, ← hoperations, acceptsSchema_iff hadmits hfold,
    data_le_iff hadmits hfold hdata, operations_le_iff hadmits hfold,
    sequences_le_iff hadmits hfold hops]
  constructor
  · intro h
    obtain ⟨hschema, hdata, hcount, hsequences⟩ := h
    exact ⟨hschema, hdata, hcount, hsequences⟩
  · intro h
    obtain ⟨hschema, hdata, hcount, hsequences⟩ := h
    exact ⟨hschema, hdata, hcount, hsequences⟩

theorem elements_operation_ok_iff {c : Content}
    (hobjects : ∀ items, c = .array items → ∀ item ∈ items, ∃ op, item = .object op) :
    (∃ v, c.elements Content.operation = .ok v) ↔ c.IsOperations := by
  have hitems : ∀ items, c = .array items →
      ((∃ vs, items.mapM Content.operation = .ok vs) ↔ ∀ item ∈ items, item.IsOperation) := by
    intro items hc
    rw [mapM_ok_iff]
    refine forall₂_congr fun item hitem => ?_
    obtain ⟨op, rfl⟩ := hobjects items hc item hitem
    exact operation_ok_iff
  simp only [Content.elements_eq_ok, Content.IsOperations]
  constructor
  · intro h
    obtain ⟨v, items, hc, hv⟩ := h
    exact ⟨items, hc, (hitems items hc).mp ⟨_, hv⟩⟩
  · intro h
    obtain ⟨items, hc, hall⟩ := h
    obtain ⟨vs, hvs⟩ := (hitems items hc).mpr hall
    exact ⟨vs.toArray, items, hc, hvs⟩

theorem scriptShape_allows_iff {m : String × Content}
    (hobjects : m.1 = "ops" →
      ∀ items, m.2 = .array items → ∀ item ∈ items, ∃ op, item = .object op) :
    scriptShape.Allows m ↔
      readShape.Allows m ∧ (m.1 = "schema_version" → m.2.IsSchema) := by
  have hschema : m.2.IsSchema → ∃ v, m.2.schemaVersion = .ok v := by
    intro h
    rcases h with hnull | ⟨t, ht, _⟩
    · exact ⟨none, by rw [hnull]; rfl⟩
    · exact ⟨some t, by rw [ht]; rfl⟩
  simp only [Shape.Allows, scriptShape, readShape, List.exists_mem_cons_iff, List.not_mem_nil,
    false_and, exists_false, or_false]
  by_cases hops : m.1 = "ops"
  · rw [elements_operation_ok_iff (hobjects hops)]
    simp [hops]
  · by_cases hname : m.1 = "schema_version"
    · simpa [hname] using hschema
    · simp [hname, Ne.symm hops, Ne.symm hname]

theorem scriptShape_admits_iff {members : List (String × Content)}
    (hops : NamedOperations members) :
    scriptShape.Admits members ↔
      readShape.Admits members ∧ ∀ c, ("schema_version", c) ∈ members → c.IsSchema := by
  have hallows : ∀ m ∈ members, (scriptShape.Allows m ↔
      readShape.Allows m ∧ (m.1 = "schema_version" → m.2.IsSchema)) := by
    intro m hm
    refine scriptShape_allows_iff fun hname items hitems => hops items ?_
    rw [← hname, ← hitems]
    exact hm
  constructor
  · intro h
    refine ⟨⟨h.nodup, fun m hm => ((hallows m hm).mp (h.allowed m hm)).1, h.complete⟩, ?_⟩
    intro c hc
    exact ((hallows _ hc).mp (h.allowed _ hc)).2 rfl
  · intro h
    obtain ⟨hread, hschema⟩ := h
    refine ⟨hread.nodup, fun m hm => (hallows m hm).mpr ⟨hread.allowed m hm, ?_⟩, hread.complete⟩
    intro hname
    exact hschema m.2 (hname ▸ hm)

/-- The grammar of scripts, with the limits that they have to keep within. -/
def IsScript (limits : Limits) (members : List (String × Content)) : Prop :=
  scriptShape.Admits members ∧ WithinLimits limits members

theorem exists_script_iff {members : List (String × Content)} {limits : Limits}
    (hops : NamedOperations members) :
    (∃ s, (Content.object members).script = .ok s ∧ s.validate limits = .ok ()) ↔
      IsScript limits members := by
  rw [IsScript, scriptShape_admits_iff hops]
  constructor
  · intro h
    obtain ⟨s, hs, hvalid⟩ := h
    obtain ⟨hschema, hlimits⟩ := (validate_script_iff hs hops).mp hvalid
    exact ⟨⟨script_ok_iff.mp ⟨s, hs⟩, hschema⟩, hlimits⟩
  · intro h
    obtain ⟨⟨hread, hschema⟩, hlimits⟩ := h
    obtain ⟨s, hs⟩ := script_ok_iff.mpr hread
    exact ⟨s, hs, (validate_script_iff hs hops).mpr ⟨hschema, hlimits⟩⟩

/-! ### Numerals -/

/-- The value of a numeral without a point and an exponent. -/
def Numeral.signed (n : Numeral) : Int := if n.negative then -(n.digits : Int) else n.digits

theorem scalar?_eq_int_iff {n : Numeral} {w : Int64} :
    n.scalar? = some (.int w) ↔
      n.integral ∧ ¬(n.negative ∧ n.digits = 0) ∧ w.toInt = n.signed := by
  have hlow := w.le_toInt
  have hhigh := w.toInt_lt
  have hpow : Nat.pow 2 63 = 9223372036854775808 := rfl
  obtain ⟨negative, digits, places, integral, exponentNegative, exponent⟩ := n
  cases integral with
  | false => simp [Numeral.scalar?]
  | true =>
      cases negative with
      | false =>
          simp only [Numeral.scalar?, Numeral.signed, hpow]
          by_cases hlt : digits < 9223372036854775808
          · have hdigits : (Int64.ofNat digits).toInt = digits := Int64.toInt_ofNat_of_lt hlt
            simp [hlt, ← Int64.toInt_inj, hdigits, eq_comm]
          · refine iff_of_false ?_ fun hint => ?_
            · by_cases huint : digits < UInt64.size <;> simp [hlt, huint]
            · have hvalue : w.toInt = digits := by simpa using hint
              omega
      | true =>
          simp only [Numeral.scalar?, Numeral.signed, hpow]
          by_cases hle : 0 < digits ∧ digits ≤ 9223372036854775808
          · have hdigits : (Int64.ofInt (-(digits : Int))).toInt = -(digits : Int) :=
              Int64.toInt_ofInt_of_le (by omega) (by omega)
            generalize Int64.ofInt (-(digits : Int)) = value at hdigits ⊢
            simp [hle, Nat.ne_of_gt hle.1, ← Int64.toInt_inj, hdigits, eq_comm]
          · refine iff_of_false (by simp [hle]) fun hint => ?_
            have hvalue : digits ≠ 0 ∧ w.toInt = -(digits : Int) := by simpa using hint
            omega

theorem content_number {n : Numeral} {s : Scalar} (h : n.scalar? = some s) (depth : Nat) :
    (Node.number n).content depth = .ok (.scalar s) := by
  rw [Node.content, h]

theorem content_number_eq_int {n : Numeral} {depth : Nat} {w : Int64} :
    (Node.number n).content depth = .ok (.scalar (.int w)) ↔
      n.integral ∧ ¬(n.negative ∧ n.digits = 0) ∧ w.toInt = n.signed := by
  rw [← scalar?_eq_int_iff]
  simp only [Node.content]
  cases n.scalar? <;> simp

end StridedSlice.Json

namespace StridedSlice

open Json

theorem Script.ofBytes_eq_ok_iff {bytes : List UInt8} {path : String} {limits : Limits}
    {s : Script} :
    Script.ofBytes bytes path limits = .ok s ↔
      decodeScript bytes = .ok s ∧ s.validate limits = .ok () := by
  unfold Script.ofBytes
  cases decodeScript bytes with
  | error e => simp
  | ok s' =>
      dsimp only
      cases hvalid : s'.validate limits with
      | error e =>
          simp only [reduceCtorEq, Except.ok.injEq, false_iff, not_and]
          intro heq
          rw [← heq, hvalid]
          nofun
      | ok u =>
          simp only [Except.ok.injEq]
          constructor
          · intro heq
            exact ⟨heq, heq ▸ hvalid⟩
          · intro h
            exact h.1

/-- **The grammar of scripts with named parts.** Take any text that, if it is a JSON text at
all, has an object at its top level and only objects in its `ops`. It is accepted exactly if
it is a JSON text whose members are those of a script and keep within the limits. An integer
is a numeral without a point and an exponent, in the range of a signed word, other than `-0`.
(A numeral beyond the range of floating point is malformed, so no JSON text has one.) -/
theorem Script.accepted_iff_isScript (bytes : List UInt8) (path : String) (limits : Limits)
    (h : ∀ c, decodeContent bytes = .ok c → ∃ members, c = .object members ∧
      NamedOperations members) :
    ((∃ s, Script.ofBytes bytes path limits = .ok s) ↔
      ∃ members, decodeContent bytes = .ok (.object members) ∧ IsScript limits members) ∧
    ∀ (n : Numeral) (depth : Nat) (w : Int64),
      (Node.number n).content depth = .ok (.scalar (.int w)) ↔
        n.integral ∧ ¬(n.negative ∧ n.digits = 0) ∧ w.toInt = n.signed := by
  refine ⟨?_, fun n depth w => content_number_eq_int⟩
  simp only [Script.ofBytes_eq_ok_iff, decodeScript_eq_ok]
  constructor
  · intro haccepted
    obtain ⟨s, ⟨c, hc, hs⟩, hvalid⟩ := haccepted
    obtain ⟨members, rfl, hops⟩ := h c hc
    exact ⟨members, hc, (exists_script_iff hops).mp ⟨s, hs, hvalid⟩⟩
  · intro hscript
    obtain ⟨members, hc, hmembers⟩ := hscript
    obtain ⟨_, heq, hops⟩ := h _ hc
    cases heq
    obtain ⟨s, hs, hvalid⟩ := (exists_script_iff hops).mpr hmembers
    exact ⟨s, ⟨_, hc, hs⟩, hvalid⟩

/-- A text with names in an order of its own. -/
def Script.namedText : List UInt8 :=
  Text.toBytes <|
    "\x7b\"ops\":[\x7b\"value\":[2,true],\"start\":-1,\"op\":\"setitem\"\x7d]," ++
      "\"data\":[0,1],\"dtype\":\" Int8\"\x7d"

set_option maxRecDepth 4096 in
theorem Script.decodeContent_namedText :
    decodeContent namedText = .ok (.object
      [("ops", .array [.object [("value", .array [.scalar (.int 2), .scalar (.bool true)]),
          ("start", .scalar (.int (-1))), ("op", .text "setitem")]]),
        ("data", .array [.scalar (.int 0), .scalar (.int 1)]),
        ("dtype", .text " Int8")]) := by
  rw [namedText, Text.toBytes_of_ascii (by decide)]
  simp only [String.reduceAppend, String.reduceToList, List.map_cons, List.map_nil,
    Char.reduceToNat, UInt8.reduceOfNat]
  rfl

theorem Script.decodeScript_namedText :
    decodeScript namedText = .ok ⟨none, .int8, #[.int 0, .int 1],
      [.assign ⟨some (-1), none, none⟩ (.sequence #[.int 2, .bool true])]⟩ :=
  decodeScript_eq_ok.mpr ⟨_, decodeContent_namedText, rfl⟩

/-- A script with its members in another order, its tag behind the other members of an
operation, and as long as the limits allow. -/
theorem Script.accepted_namedText :
    (∀ c, decodeContent namedText = .ok c →
      ∃ members, c = .object members ∧ NamedOperations members) ∧
    ∃ members, decodeContent namedText = .ok (.object members) ∧ IsScript ⟨2, 1⟩ members := by
  have hnamed : ∀ c, decodeContent namedText = .ok c →
      ∃ members, c = .object members ∧ NamedOperations members := by
    intro c hc
    rw [decodeContent_namedText] at hc
    cases hc
    exact ⟨_, rfl, by simp [NamedOperations]⟩
  have haccepted : Script.ofBytes namedText "script.json" ⟨2, 1⟩ = .ok _ :=
    Script.ofBytes_eq_ok_iff.mpr ⟨decodeScript_namedText, rfl⟩
  exact ⟨hnamed, (Script.accepted_iff_isScript _ _ _ hnamed).1.mp ⟨_, haccepted⟩⟩

end StridedSlice
