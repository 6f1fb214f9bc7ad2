import StridedSlice.Proofs.Grammar
/-!
# StridedSlice.Proofs.Positional

Scripts and operations **by position**. The format of scripts is one of objects, but the reader
takes arrays too: the values of a script in the order of its members, and the values of an
operation behind its tag. So a value may be taken for a member whose name is nowhere written.

* `OperationNamed`, `ScriptNamed`: what contents say, with all names written;
* `operation_eq_ok_iff_named`, `script_eq_ok_iff_named`: contents are read exactly as the
  members that they stand for;
* `Script.accepted_iff_named`: the texts that are accepted are those that stand for a script of
  the grammar.
-/

namespace StridedSlice.Json

variable {α : Type}

/-! ### Values by position -/

theorem atMost_eq_ok {n : Nat} {items : List Content} {u : Unit} :
    atMost n items = .ok u ↔ items.length ≤ n := by
  unfold atMost
  by_cases h : n < items.length
  · simp [h, refuse_ne_ok]
  · simp [h, Nat.le_of_not_lt h]

theorem requiredAt_eq_ok {position : Nat} {expected : String} {o : Option α} {a : α} :
    requiredAt position expected o = .ok a ↔ o = some a := by
  cases o <;> simp [requiredAt, refuse_ne_ok]

theorem lt_length_of_valueAt {items : List Content} {i : Nat} {read : Content → Decoded α} {a : α}
    (h : valueAt items i read = .ok (some a)) : i < items.length := by
  unfold valueAt at h
  cases hi : items[i]? with
  | none => simp [hi] at h
  | some c => exact (List.getElem?_eq_some_iff.mp hi).1

/-- Values get the names as far as they go. -/
theorem map_fst_zip (names : List String) (values : List Content) :
    (names.zip values).map Prod.fst = names.take values.length := by
  induction names generalizing values with
  | nil => simp
  | cons name rest ih => cases values <;> simp [ih]

/-- A name is given only if the values reach it. -/
theorem idxOf_lt_length_of_mem_zip {names : List String} {values : List Content} {name : String}
    (h : name ∈ (names.zip values).map Prod.fst) : names.idxOf name < values.length := by
  rw [map_fst_zip] at h
  exact (List.mem_take_iff_idxOf_lt (List.mem_of_mem_take h)).mp h

/-! ### Operations by position -/

section ByPosition

variable {kind : OperationKind} {values : List Content} {o : Operation}

/-- An operation by position has not too many values, and all of them unless it is a load. -/
theorem length_of_operationByPosition (h : operationByPosition kind values = .ok o) :
    values.length ≤ kind.fields.length ∧
      (kind ≠ .getitem → kind.fields.length ≤ values.length) := by
  cases kind with
  | setitem =>
      simp only [operationByPosition, do_eq_ok, requiredAt_eq_ok] at h
      obtain ⟨_, _, _, _, _, _, _, hvalue, v, rfl, _, hmost, _⟩ := h
      exact ⟨atMost_eq_ok.mp hmost, fun _ => lt_length_of_valueAt hvalue⟩
  | store =>
      simp only [operationByPosition, do_eq_ok, requiredAt_eq_ok] at h
      obtain ⟨_, _, _, _, _, hvalue, v, rfl, _, hmost, _⟩ := h
      exact ⟨atMost_eq_ok.mp hmost, fun _ => lt_length_of_valueAt hvalue⟩
  | getitem =>
      simp only [operationByPosition, do_eq_ok] at h
      obtain ⟨_, _, _, _, _, _, _, hmost, _⟩ := h
      exact ⟨atMost_eq_ok.mp hmost, fun hne => absurd rfl hne⟩

/-- The same holds if the values get their names, because the value to store is the last one. -/
theorem length_of_operationByName (h : operationByName kind (kind.fields.zip values) = .ok o)
    (hkind : kind ≠ .getitem) : kind.fields.length ≤ values.length := by
  have hcomplete := ((operationByName_ok_iff kind _).mp ⟨o, h⟩).complete
  cases kind with
  | setitem => exact idxOf_lt_length_of_mem_zip (hcomplete "value" (by decide))
  | store => exact idxOf_lt_length_of_mem_zip (hcomplete "value" (by decide))
  | getitem => exact absurd rfl hkind

theorem assignByPosition_eq (start stop step value : Content) :
    operationByPosition .setitem [start, stop, step, value] =
      operationByName .setitem
        [("start", start), ("stop", stop), ("step", step), ("value", value)] := by
  simp only [operationByPosition, operationByName, partAt, valueAt, List.getElem?_cons_zero,
    List.getElem?_cons_succ, List.foldlM_cons, List.foldlM_nil, readAssignMember, readPart,
    SliceParts.read?, SliceParts.none, once, String.reduceEq, ↓reduceIte]
  -- Both read the values in this order, and end where one of them cannot be read.
  cases start.found.optionalWord with
  | error e => rfl
  | ok start =>
      cases stop.found.optionalWord with
      | error e => rfl
      | ok stop =>
          cases step.found.optionalWord with
          | error e => rfl
          | ok step => cases value.source <;> rfl

theorem assignAtByPosition_eq (index value : Content) :
    operationByPosition .store [index, value] =
      operationByName .store [("index", index), ("value", value)] := by
  simp only [operationByPosition, operationByName, valueAt, List.getElem?_cons_zero,
    List.getElem?_cons_succ, List.foldlM_cons, List.foldlM_nil, readAssignAtMember, once]
  cases index.found.word with
  | error e => rfl
  | ok index => cases value.element <;> rfl

theorem loadByPosition_eq {values : List Content} (h : values.length ≤ 3) :
    operationByPosition .getitem values =
      operationByName .getitem (OperationKind.getitem.fields.zip values) := by
  -- Any part may be missing, and then the later ones are, too.
  rcases values with _ | ⟨start, rest⟩
  · rfl
  simp only [operationByPosition, operationByName, OperationKind.fields, partAt,
    List.getElem?_cons_zero, List.getElem?_cons_succ, List.zip_cons_cons, List.foldlM_cons,
    readLoadMember, readPart, SliceParts.read?, SliceParts.none, once]
  cases start.found.optionalWord with
  | error e => rfl
  | ok start =>
      rcases rest with _ | ⟨stop, rest⟩
      · rfl
      simp only [List.getElem?_cons_zero, List.getElem?_cons_succ, List.zip_cons_cons,
        List.foldlM_cons, readLoadMember, readPart, SliceParts.read?, once]
      cases stop.found.optionalWord with
      | error e => rfl
      | ok stop =>
          rcases rest with _ | ⟨step, _ | ⟨_, _⟩⟩
          · rfl
          · simp only [List.getElem?_cons_zero, List.zip_cons_cons, List.zip_nil_right,
              List.foldlM_cons, readLoadMember, readPart, SliceParts.read?, once]
            cases step.found.optionalWord <;> rfl
          · simp only [List.length_cons] at h
            omega

/-- The values of an operation are read alike with and without their names. -/
theorem operationByPosition_eq (hmost : values.length ≤ kind.fields.length)
    (hleast : kind ≠ .getitem → kind.fields.length ≤ values.length) :
    operationByPosition kind values = operationByName kind (kind.fields.zip values) := by
  cases kind with
  | setitem =>
      match values, Nat.le_antisymm hmost (hleast nofun) with
      | [start, stop, step, value], _ => exact assignByPosition_eq start stop step value
  | store =>
      match values, Nat.le_antisymm hmost (hleast nofun) with
      | [index, value], _ => exact assignAtByPosition_eq index value
  | getitem => exact loadByPosition_eq hmost

theorem operationByPosition_eq_ok_iff : operationByPosition kind values = .ok o ↔
    values.length ≤ kind.fields.length ∧
      operationByName kind (kind.fields.zip values) = .ok o := by
  constructor
  · intro h
    obtain ⟨hmost, hleast⟩ := length_of_operationByPosition h
    exact ⟨hmost, operationByPosition_eq hmost hleast ▸ h⟩
  · intro h
    obtain ⟨hmost, h⟩ := h
    rw [operationByPosition_eq hmost (length_of_operationByName h)]
    exact h

end ByPosition

/-- What contents say about an operation, as members of an object. -/
inductive OperationNamed : Content → List (String × Content) → Prop
  | byName {members : List (String × Content)} : OperationNamed (.object members) members
  | byPosition {kind : OperationKind} {values : List Content} :
      values.length ≤ kind.fields.length →
        OperationNamed (.array (.text kind.name :: values))
          (("op", .text kind.name) :: kind.fields.zip values)

/-- An array is an operation if it has a tag and the values of that kind behind it. -/
theorem operation_array_eq_ok {items : List Content} {o : Operation} :
    (Content.array items).operation = .ok o ↔
      ∃ kind values, items = .text (OperationKind.name kind) :: values ∧
        operationByPosition kind values = .ok o := by
  cases items with
  | nil => simp [Content.operation, nextContent, required, refuse_ne_ok, do_eq_ok]
  | cons c rest =>
      simp only [Content.operation, nextContent, do_eq_ok, map_ok, required_eq_ok]
      constructor
      · intro h
        obtain ⟨_, ⟨kind, hkind, rfl⟩, _, hsome, ho⟩ := h
        cases hsome
        rw [operationKind_eq_ok.mp hkind]
        exact ⟨kind, rest, rfl, ho⟩
      · intro h
        obtain ⟨kind, values, heq, ho⟩ := h
        cases heq
        exact ⟨_, ⟨kind, operationKind_eq_ok.mpr rfl, rfl⟩, kind, rfl, ho⟩

/-- The tag and the values of an array, as members. -/
theorem operation_tagged_eq_ok {kind : OperationKind} {values : List Content} {o : Operation} :
    (Content.object (("op", .text kind.name) :: kind.fields.zip values)).operation = .ok o ↔
      operationByName kind (kind.fields.zip values) = .ok o := by
  have hfields : ∀ name ∈ kind.fields, name ≠ "op" := by
    cases kind <;> decide
  have hnames : ∀ m ∈ kind.fields.zip values, m.1 ≠ "op" :=
    fun m hm => hfields _ (List.of_mem_zip hm).1
  have hnone : (kind.fields.zip values).filter (·.1 = "op") = [] :=
    List.filter_eq_nil_iff.mpr fun m hm => by simpa using hnames m hm
  have hall : (kind.fields.zip values).filter (¬ ·.1 = "op") = kind.fields.zip values :=
    List.filter_eq_self.mpr fun m hm => by simpa using hnames m hm
  rw [operation_eq_ok, List.filter_cons_of_pos (by simp), List.filter_cons_of_neg (by simp),
    hnone, hall]
  constructor
  · intro h
    obtain ⟨kind', htag, ho⟩ := h
    have hkind : OperationKind.ofName? kind.name = some kind' := by
      rw [ofName?_eq_some_iff]
      simpa using htag
    rw [ofName?_eq_some_iff.mpr rfl, Option.some.injEq] at hkind
    exact hkind ▸ ho
  · intro ho
    exact ⟨kind, rfl, ho⟩

/-- **Operations** are read as the members that they stand for. -/
theorem operation_eq_ok_iff_named {c : Content} {o : Operation} :
    c.operation = .ok o ↔
      ∃ members, OperationNamed c members ∧ (Content.object members).operation = .ok o := by
  constructor
  · intro h
    cases c with
    | object members => exact ⟨members, .byName, h⟩
    | array items =>
        obtain ⟨kind, values, rfl, ho⟩ := operation_array_eq_ok.mp h
        obtain ⟨hmost, ho⟩ := operationByPosition_eq_ok_iff.mp ho
        exact ⟨_, .byPosition hmost, operation_tagged_eq_ok.mpr ho⟩
    | _ => exact absurd h (refuse_ne_ok _ _)
  · intro h
    obtain ⟨members, hnamed, ho⟩ := h
    cases hnamed with
    | byName => exact ho
    | byPosition hmost =>
        have ho := operationByPosition_eq_ok_iff.mpr ⟨hmost, operation_tagged_eq_ok.mp ho⟩
        exact operation_array_eq_ok.mpr ⟨_, _, rfl, ho⟩

/-! ### Members of a script -/

/-- What a member of a script says, with the operations under its name as objects. -/
inductive MemberNamed : String × Content → String × Content → Prop
  | operations {items : List Content} {named : List (List (String × Content))} :
      List.Forall₂ OperationNamed items named →
        MemberNamed ("ops", .array items) ("ops", .array (named.map .object))
  | other {m : String × Content} :
      (m.1 = "ops" → ∀ items, m.2 ≠ .array items) → MemberNamed m m

/-- A relation that goes through another type does so for lists, too. -/
theorem forall₂_iff_exists {α β γ : Type} {T : α → γ → Prop} {R : α → β → Prop}
    {S : β → γ → Prop} (h : ∀ a c, T a c ↔ ∃ b, R a b ∧ S b c) {as : List α} {cs : List γ} :
    List.Forall₂ T as cs ↔ ∃ bs, List.Forall₂ R as bs ∧ List.Forall₂ S bs cs := by
  constructor
  · intro hT
    induction hT with
    | nil => exact ⟨[], .nil, .nil⟩
    | cons hac _ ih =>
        obtain ⟨b, hab, hbc⟩ := (h _ _).mp hac
        obtain ⟨bs, hR, hS⟩ := ih
        exact ⟨b :: bs, .cons hab hR, .cons hbc hS⟩
  · intro hRS
    obtain ⟨bs, hR, hS⟩ := hRS
    induction hR generalizing cs with
    | nil =>
        cases hS
        exact .nil
    | cons hab _ ih =>
        cases hS with
        | cons hbc hS => exact .cons ((h _ _).mpr ⟨_, hab, hbc⟩) (ih hS)

theorem elements_operation_eq_ok_iff_named {items : List Content} {a : Array Operation} :
    (Content.array items).elements Content.operation = .ok a ↔
      ∃ named, List.Forall₂ OperationNamed items named ∧
        (Content.array (named.map .object)).elements Content.operation = .ok a := by
  simp only [Content.elements_eq_ok, Content.array.injEq, exists_eq_left', mapM_eq_ok_iff,
    List.forall₂_map_left_iff]
  have hnamed (c : Content) (o : Operation) :
      c.operation = .ok o ↔
        ∃ members, OperationNamed c members ∧ (Content.object members).operation = .ok o :=
    operation_eq_ok_iff_named
  exact forall₂_iff_exists hnamed

theorem readScriptMember_ops_eq_ok {p r : ScriptParts} {c : Content} :
    Content.readScriptMember p ("ops", c) = .ok r ↔
      p.operations = none ∧ ∃ v, c.elements Content.operation = .ok v ∧
        { p with operations := some v } = r := by
  simp [readScriptMember_eq_ok]

/-- **One member** of a script is read as what it says in names. -/
theorem readScriptMember_eq_ok_iff_named {p r : ScriptParts} {m : String × Content} :
    Content.readScriptMember p m = .ok r ↔
      ∃ m', MemberNamed m m' ∧ Content.readScriptMember p m' = .ok r := by
  constructor
  · intro h
    by_cases hops : m.1 = "ops" → ∀ items, m.2 ≠ .array items
    · exact ⟨m, .other hops, h⟩
    · obtain ⟨name, c⟩ := m
      rw [Classical.not_imp, not_forall] at hops
      obtain ⟨rfl, items, hitems⟩ := hops
      cases not_ne_iff.mp hitems
      obtain ⟨hnone, v, hv, hr⟩ := readScriptMember_ops_eq_ok.mp h
      obtain ⟨named, hnamed, hv⟩ := elements_operation_eq_ok_iff_named.mp hv
      exact ⟨_, .operations hnamed, readScriptMember_ops_eq_ok.mpr ⟨hnone, v, hv, hr⟩⟩
  · intro h
    obtain ⟨m', hnamed, h⟩ := h
    cases hnamed with
    | operations hnamed =>
        obtain ⟨hnone, v, hv, hr⟩ := readScriptMember_ops_eq_ok.mp h
        have hv := elements_operation_eq_ok_iff_named.mpr ⟨_, hnamed, hv⟩
        exact readScriptMember_ops_eq_ok.mpr ⟨hnone, v, hv, hr⟩
    | other _ => exact h

/-- **All members** of a script are read as what they say in names. -/
theorem foldlM_readScriptMember_eq_ok_iff_named {members : List (String × Content)}
    {p r : ScriptParts} :
    members.foldlM Content.readScriptMember p = .ok r ↔
      ∃ named, List.Forall₂ MemberNamed members named ∧
        named.foldlM Content.readScriptMember p = .ok r := by
  induction members generalizing p with
  | nil => simp
  | cons m rest ih =>
      rw [List.foldlM_cons, do_eq_ok]
      constructor
      · intro h
        obtain ⟨p', hm, hrest⟩ := h
        obtain ⟨m', hnamed, hm⟩ := readScriptMember_eq_ok_iff_named.mp hm
        obtain ⟨named, hall, hrest⟩ := ih.mp hrest
        refine ⟨m' :: named, .cons hnamed hall, ?_⟩
        rw [List.foldlM_cons, do_eq_ok]
        exact ⟨p', hm, hrest⟩
      · intro h
        obtain ⟨_, hall, h⟩ := h
        cases hall with
        | cons hnamed hall =>
            rw [List.foldlM_cons, do_eq_ok] at h
            obtain ⟨p', hm, hrest⟩ := h
            exact ⟨p', readScriptMember_eq_ok_iff_named.mpr ⟨_, hnamed, hm⟩,
              ih.mpr ⟨_, hall, hrest⟩⟩

/-! ### Scripts -/

/-- What contents say about a script, as members of an object. -/
inductive ScriptNamed : Content → List (String × Content) → Prop
  | byName {members named : List (String × Content)} :
      List.Forall₂ MemberNamed members named → ScriptNamed (.object members) named
  | byPosition {items : List Content} {named : List (String × Content)} :
      items.length ≤ scriptFields.length →
        List.Forall₂ MemberNamed (scriptFields.zip items) named → ScriptNamed (.array items) named

theorem script_object_eq_ok_iff_named {members : List (String × Content)} {s : Script} :
    (Content.object members).script = .ok s ↔
      ∃ named, List.Forall₂ MemberNamed members named ∧
        (Content.object named).script = .ok s := by
  constructor
  · intro h
    obtain ⟨p, hfold, hp⟩ := script_eq_ok.mp h
    obtain ⟨named, hnamed, hfold⟩ := foldlM_readScriptMember_eq_ok_iff_named.mp hfold
    exact ⟨named, hnamed, script_eq_ok.mpr ⟨p, hfold, hp⟩⟩
  · intro h
    obtain ⟨named, hnamed, h⟩ := h
    obtain ⟨p, hfold, hp⟩ := script_eq_ok.mp h
    have hfold := foldlM_readScriptMember_eq_ok_iff_named.mpr ⟨named, hnamed, hfold⟩
    exact script_eq_ok.mpr ⟨p, hfold, hp⟩

/-- Reading the next of some contents leaves one less of them. -/
theorem nextContent_length {get : Content → Decoded α} {items rest : List Content} {o : Option α}
    (h : nextContent get items = .ok (o, rest)) :
    rest.length = items.length - 1 ∧ (o ≠ none → 0 < items.length) := by
  cases items with
  | nil =>
      cases h
      exact ⟨rfl, fun hne => absurd rfl hne⟩
  | cons c items =>
      obtain ⟨v, hv, heq⟩ := map_ok.mp h
      cases heq
      exact ⟨rfl, fun _ => Nat.succ_pos _⟩

theorem noContent_eq_ok {items : List Content} {u : Unit} :
    noContent items = .ok u ↔ items = [] := by
  cases items <;> simp [noContent]

/-- A script by position has three values or four. -/
theorem length_of_script_array {items : List Content} {s : Script}
    (h : (Content.array items).script = .ok s) :
    3 ≤ items.length ∧ items.length ≤ scriptFields.length := by
  simp only [Content.script, do_eq_ok, requiredAt_eq_ok, noContent_eq_ok] at h
  obtain ⟨⟨_, items₁⟩, h₁, ⟨_, items₂⟩, h₂, dtype, rfl, ⟨_, items₃⟩, h₃, data, rfl,
    ⟨_, items₄⟩, h₄, _, hend, _⟩ := h
  dsimp only at h₁ h₂ h₃ h₄ hend
  subst hend
  obtain ⟨hlength₁, -⟩ := nextContent_length h₁
  obtain ⟨hlength₂, hdtype⟩ := nextContent_length h₂
  obtain ⟨hlength₃, hdata⟩ := nextContent_length h₃
  obtain ⟨hlength₄, -⟩ := nextContent_length h₄
  have hdtype := hdtype (Option.some_ne_none _)
  have hdata := hdata (Option.some_ne_none _)
  have hfour : scriptFields.length = 4 := rfl
  rw [List.length_nil] at hlength₄
  omega

/-- The values of a script are read alike with and without their names. -/
theorem script_array_eq {items : List Content} (hleast : 3 ≤ items.length)
    (hmost : items.length ≤ scriptFields.length) :
    (Content.array items).script = (Content.object (scriptFields.zip items)).script := by
  rcases items with _ | ⟨schema, _ | ⟨dtype, _ | ⟨data, rest⟩⟩⟩
  iterate 3 simp at hleast
  simp only [Content.script, nextContent, scriptFields, List.zip_cons_cons, List.foldlM_cons,
    Content.readScriptMember, once]
  cases schema.schemaVersion with
  | error e => rfl
  | ok schema =>
      dsimp only [bind, Except.bind, Except.map]
      cases dtype.dtype with
      | error e => rfl
      | ok dtype =>
          dsimp only [requiredAt]
          cases data.elements Content.element with
          | error e => rfl
          | ok data =>
              -- The operations may be missing.
              rcases rest with _ | ⟨ops, _ | ⟨_, _⟩⟩
              · rfl
              · simp only [List.zip_cons_cons, List.zip_nil_right, List.foldlM_cons,
                  Content.readScriptMember, once]
                cases ops.elements Content.operation <;> rfl
              · simp only [scriptFields, List.length_cons, List.length_nil] at hmost
                omega

theorem script_array_eq_ok_iff {items : List Content} {s : Script} :
    (Content.array items).script = .ok s ↔
      items.length ≤ scriptFields.length ∧
        (Content.object (scriptFields.zip items)).script = .ok s := by
  constructor
  · intro h
    obtain ⟨hleast, hmost⟩ := length_of_script_array h
    exact ⟨hmost, script_array_eq hleast hmost ▸ h⟩
  · intro h
    obtain ⟨hmost, h⟩ := h
    have hcomplete := (script_ok_iff.mp ⟨s, h⟩).complete
    have hleast : 3 ≤ items.length := idxOf_lt_length_of_mem_zip (hcomplete "data" (by decide))
    rw [script_array_eq hleast hmost]
    exact h

/-- **Scripts** are read as the members that they stand for. -/
theorem script_eq_ok_iff_named {c : Content} {s : Script} :
    c.script = .ok s ↔
      ∃ named, ScriptNamed c named ∧ (Content.object named).script = .ok s := by
  constructor
  · intro h
    cases c with
    | object members =>
        obtain ⟨named, hnamed, hs⟩ := script_object_eq_ok_iff_named.mp h
        exact ⟨named, .byName hnamed, hs⟩
    | array items =>
        obtain ⟨hlength, hs⟩ := script_array_eq_ok_iff.mp h
        obtain ⟨named, hnamed, hs⟩ := script_object_eq_ok_iff_named.mp hs
        exact ⟨named, .byPosition hlength hnamed, hs⟩
    | _ => exact absurd h (refuse_ne_ok _ _)
  · intro h
    obtain ⟨named, hnamed, hs⟩ := h
    cases hnamed with
    | byName hnamed => exact script_object_eq_ok_iff_named.mpr ⟨named, hnamed, hs⟩
    | byPosition hlength hnamed =>
        have hs := script_object_eq_ok_iff_named.mpr ⟨named, hnamed, hs⟩
        exact script_array_eq_ok_iff.mpr ⟨hlength, hs⟩

/-- With all names written, the operations are objects. -/
theorem namedOperations_of_forall₂ {members named : List (String × Content)}
    (h : List.Forall₂ MemberNamed members named) : NamedOperations named := by
  induction h with
  | nil => nofun
  | cons hm _ ih =>
      intro items hitems
      rcases List.mem_cons.mp hitems with heq | hrest
      · cases hm with
        | operations hnamed =>
            cases heq
            intro item hitem
            obtain ⟨op, -, rfl⟩ := List.mem_map.mp hitem
            exact ⟨op, rfl⟩
        | other hne =>
            cases heq
            exact absurd rfl (hne rfl items)
      · exact ih items hrest

theorem ScriptNamed.namedOperations {c : Content} {named : List (String × Content)}
    (h : ScriptNamed c named) : NamedOperations named := by
  cases h with
  | byName hnamed => exact namedOperations_of_forall₂ hnamed
  | byPosition _ hnamed => exact namedOperations_of_forall₂ hnamed

/-- All names of a script are written: its contents are an object with the members that have to
be there, and so is each of its operations with its tag. -/
def Content.WithNames (c : Content) : Prop :=
  ∃ members, c = .object members ∧ "dtype" ∈ members.map Prod.fst ∧
    "data" ∈ members.map Prod.fst ∧
    ∀ items, ("ops", .array items) ∈ members → ∀ item ∈ items,
      ∃ op, item = .object op ∧ "op" ∈ op.map Prod.fst

end StridedSlice.Json

namespace StridedSlice

open Json

/-- **The texts that are accepted.** A text is read as a script exactly if it is a JSON text,
its contents stand for members of the grammar within the limits, and the script is the one with
these members. What contents stand for may take names from positions: the members of a script
in their order, and those of an operation behind its tag. -/
theorem Script.accepted_iff_named (bytes : List UInt8) (path : String) (limits : Limits)
    (s : Script) :
    Script.ofBytes bytes path limits = .ok s ↔
      ∃ c named, decodeContent bytes = .ok c ∧ ScriptNamed c named ∧ IsScript limits named ∧
        (Content.object named).script = .ok s := by
  rw [Script.ofBytes_eq_ok_iff, decodeScript_eq_ok]
  constructor
  · intro h
    obtain ⟨⟨c, hc, hs⟩, hvalid⟩ := h
    obtain ⟨named, hnamed, hs⟩ := script_eq_ok_iff_named.mp hs
    have hscript := (exists_script_iff hnamed.namedOperations).mp ⟨s, hs, hvalid⟩
    exact ⟨c, named, hc, hnamed, hscript, hs⟩
  · intro h
    obtain ⟨c, named, hc, hnamed, hscript, hs⟩ := h
    obtain ⟨s', hs', hvalid⟩ := (exists_script_iff hnamed.namedOperations).mpr hscript
    rw [hs', Except.ok.injEq] at hs
    subst hs
    exact ⟨⟨c, hc, script_eq_ok_iff_named.mpr ⟨named, hnamed, hs'⟩⟩, hvalid⟩

/-- A text without any names. -/
def Script.positionalText : List UInt8 :=
  Text.toBytes "[null,\"int8\",[7],[[\"store\",0,5]]]"

/-- A text with names, except in its operation. -/
def Script.mixedText : List UInt8 :=
  Text.toBytes "\x7b\"dtype\":\"int8\",\"data\":[7],\"ops\":[[\"store\",0,5]]\x7d"

set_option maxRecDepth 4096 in
theorem Script.decodeContent_positionalText :
    decodeContent positionalText = .ok (.array
      [.null, .text "int8", .array [.scalar (.int 7)],
        .array [.array [.text "store", .scalar (.int 0), .scalar (.int 5)]]]) := by
  rw [positionalText, Text.toBytes_of_ascii (by decide)]
  simp only [String.reduceToList, List.map_cons, List.map_nil, Char.reduceToNat,
    UInt8.reduceOfNat]
  rfl

set_option maxRecDepth 4096 in
theorem Script.decodeContent_mixedText :
    decodeContent mixedText = .ok (.object
      [("dtype", .text "int8"), ("data", .array [.scalar (.int 7)]),
        ("ops", .array [.array [.text "store", .scalar (.int 0), .scalar (.int 5)]])]) := by
  rw [mixedText, Text.toBytes_of_ascii (by decide)]
  simp only [String.reduceToList, List.map_cons, List.map_nil, Char.reduceToNat,
    UInt8.reduceOfNat]
  rfl

/-- Both texts are read as the same script. The first one has not a single name, and the second
one has an operation without any. -/
theorem Script.accepted_without_names :
    (Script.ofBytes positionalText "script.json" .standard =
          .ok ⟨none, .int8, #[.int 7], [.assignAt 0 (.int 5)]⟩ ∧
        ∀ c, decodeContent positionalText = .ok c → ¬ c.WithNames) ∧
      (Script.ofBytes mixedText "script.json" .standard =
          .ok ⟨none, .int8, #[.int 7], [.assignAt 0 (.int 5)]⟩ ∧
        ∀ c, decodeContent mixedText = .ok c → ¬ c.WithNames) := by
  refine ⟨⟨?_, fun c hc hnames => ?_⟩, ?_, fun c hc hnames => ?_⟩
  · exact ofBytes_eq_ok_iff.mpr
      ⟨decodeScript_eq_ok.mpr ⟨_, decodeContent_positionalText, rfl⟩, rfl⟩
  · rw [decodeContent_positionalText] at hc
    cases hc
    obtain ⟨members, hmembers, -⟩ := hnames
    cases hmembers
  · exact ofBytes_eq_ok_iff.mpr
      ⟨decodeScript_eq_ok.mpr ⟨_, decodeContent_mixedText, rfl⟩, rfl⟩
  · rw [decodeContent_mixedText] at hc
    cases hc
    obtain ⟨members, hmembers, -, -, hops⟩ := hnames
    cases hmembers
    obtain ⟨op, hop, -⟩ := hops _ (.tail _ (.tail _ (.head _))) _ (.head _)
    cases hop

end StridedSlice
