import StridedSlice.Proofs.Shape
/-!
# StridedSlice.Proofs.Operation

Which objects are **operations**. The tag of an operation decides which other members there
are, and what each may hold; it may stand anywhere among them.

* `OperationKind.tagged`: the shape of the operations of a kind;
* one `Reader` for the members of each kind;
* `operation_ok_iff`: an object is read as an operation exactly if it has one of these shapes;
* `sequence_le_iff`: how long a sequence the operation stores.
-/

namespace StridedSlice.Json

variable {α : Type}

/-! ### What values may be -/

namespace Content

/-- A number or a truth value. -/
def IsScalar (c : Content) : Prop := ∃ s, c = .scalar s

/-- An integer in the range of a signed word. -/
def IsInteger (c : Content) : Prop := ∃ w, c = .scalar (.int w)

/-- A part of a slice, which may be null. -/
def IsPart (c : Content) : Prop := c = .null ∨ c.IsInteger

/-- An array of numbers and truth values. -/
def IsScalars (c : Content) : Prop := ∃ items, c = .array items ∧ ∀ item ∈ items, item.IsScalar

/-- What a slice may be given. -/
def IsSource (c : Content) : Prop := c.IsScalar ∨ c.IsScalars

end Content

namespace OperationKind

/-- The tag of a kind. -/
def name : OperationKind → String
  | .setitem => "setitem"
  | .store => "store"
  | .getitem => "getitem"

/-- The parts of a slice. -/
def parts : List (String × (Content → Prop)) :=
  [("start", Content.IsPart), ("stop", Content.IsPart), ("step", Content.IsPart)]

/-- The members of an operation beside its tag. -/
def shape : OperationKind → Shape
  | .setitem => ⟨parts ++ [("value", Content.IsSource)], ["value"]⟩
  | .store => ⟨[("index", Content.IsInteger), ("value", Content.IsScalar)], ["index", "value"]⟩
  | .getitem => ⟨parts, []⟩

/-- All members of an operation. -/
def tagged (kind : OperationKind) : Shape := kind.shape.withTag "op" (· = .text kind.name)

end OperationKind

namespace Content

/-- An object that is an operation of one of the kinds. -/
def IsOperation (c : Content) : Prop :=
  ∃ members, c = .object members ∧ ∃ kind : OperationKind, kind.tagged.Admits members

end Content

/-! ### Values -/

theorem word_ok_iff (c : Content) : (∃ w, c.found.word = .ok w) ↔ c.IsInteger := by
  cases c with
  | scalar s => cases s <;> simp [Content.IsInteger, Content.found, Found.word, refuse_ne_ok]
  | _ => simp [Content.IsInteger, Content.found, Found.word, refuse_ne_ok]

theorem optionalWord_ok_iff (c : Content) :
    (∃ w, c.found.optionalWord = .ok w) ↔ c.IsPart := by
  cases c with
  | null => simp [Content.IsPart, Content.found, Found.optionalWord]
  | scalar s =>
      have h := word_ok_iff (.scalar s)
      simp only [Content.IsPart, ← h]
      simp [Content.found, Found.optionalWord, map_ok]
  | _ =>
      simp [Content.IsPart, Content.IsInteger, Content.found, Found.optionalWord, Found.word,
        map_ok, refuse_ne_ok]

theorem element_eq_ok {c : Content} {s : Scalar} : c.element = .ok s ↔ c = .scalar s := by
  cases c <;> simp [Content.element, Content.scalar?, refuse_ne_ok]

theorem forall_isScalar_iff {cs : List Content} :
    (∀ c ∈ cs, c.IsScalar) ↔ ∃ vs : List Scalar, cs = vs.map .scalar := by
  constructor
  · intro h
    induction cs with
    | nil => exact ⟨[], rfl⟩
    | cons c rest ih =>
        obtain ⟨v, hv⟩ := h c List.mem_cons_self
        obtain ⟨vs, hvs⟩ := ih fun c' hc' => h c' (List.mem_cons_of_mem _ hc')
        exact ⟨v :: vs, by rw [hv, hvs, List.map_cons]⟩
  · intro h c hc
    obtain ⟨vs, rfl⟩ := h
    obtain ⟨v, _, rfl⟩ := List.mem_map.mp hc
    exact ⟨v, rfl⟩

theorem mapM_eq_ok_iff {get : Content → Decoded α} {cs : List Content} {vs : List α} :
    cs.mapM get = .ok vs ↔ List.Forall₂ (fun c v => get c = .ok v) cs vs := by
  induction cs generalizing vs with
  | nil => cases vs <;> simp [pure, Except.pure]
  | cons c rest ih =>
      simp only [List.mapM_cons, do_eq_ok, pure_eq_ok, ih]
      cases vs <;> simp

theorem mapM_ok_iff {get : Content → Decoded α} {cs : List Content} :
    (∃ vs, cs.mapM get = .ok vs) ↔ ∀ c ∈ cs, ∃ v, get c = .ok v := by
  simp only [mapM_eq_ok_iff]
  induction cs with
  | nil => simp
  | cons c rest ih => simp [List.forall₂_cons_left_iff, ← ih, exists_comm]

/-- What is said of all that is read may be said of what it is read from. -/
theorem forall_mem_iff_of_forall₂ {R : Content → α → Prop} {P : Content → Prop} {Q : α → Prop}
    {cs : List Content} {vs : List α} (h : List.Forall₂ R cs vs)
    (hiff : ∀ c ∈ cs, ∀ v, R c v → (Q v ↔ P c)) : (∀ v ∈ vs, Q v) ↔ ∀ c ∈ cs, P c := by
  induction h with
  | nil => simp
  | cons hr _ ih =>
      rw [List.forall_mem_cons] at hiff
      rw [List.forall_mem_cons, List.forall_mem_cons, hiff.1 _ hr, ih hiff.2]

theorem mapM_element_eq_ok {cs : List Content} {vs : List Scalar} :
    cs.mapM Content.element = .ok vs ↔ cs = vs.map .scalar := by
  simp only [mapM_eq_ok_iff, element_eq_ok]
  rw [← List.forall₂_map_right_iff, List.forall₂_eq_eq_eq]

theorem mapM_scalar?_eq_some {cs : List Content} {vs : List Scalar} :
    cs.mapM Content.scalar? = some vs ↔ cs = vs.map .scalar := by
  induction cs generalizing vs with
  | nil => cases vs <;> simp
  | cons c rest ih =>
      have hc : ∀ v, c.scalar? = some v ↔ c = .scalar v := by cases c <;> simp [Content.scalar?]
      simp only [List.mapM_cons, Option.bind_eq_bind, Option.bind_eq_some_iff, Option.pure_def, hc,
        ih]
      cases vs <;> simp [eq_comm]

theorem elements_eq_ok {c : Content} {a : Array Scalar} :
    c.elements Content.element = .ok a ↔ c = .array (a.toList.map .scalar) := by
  simp [Content.elements_eq_ok, mapM_element_eq_ok]

theorem elements_ok_iff {c : Content} :
    (∃ a, c.elements Content.element = .ok a) ↔ c.IsScalars := by
  simp only [elements_eq_ok, Content.IsScalars, forall_isScalar_iff]
  constructor
  · intro h
    obtain ⟨a, ha⟩ := h
    exact ⟨_, ha, a.toList, rfl⟩
  · intro h
    obtain ⟨_, hc, vs, rfl⟩ := h
    exact ⟨vs.toArray, hc⟩

/-- The contents that say what a slice is given. -/
def sourceContent : Source Scalar → Content
  | .scalar v => .scalar v
  | .sequence vs => .array (vs.toList.map .scalar)

theorem source_eq_ok {c : Content} {source : Source Scalar} :
    c.source = .ok source ↔ c = sourceContent source := by
  cases c with
  | array items =>
      simp only [Content.source]
      cases hvs : items.mapM Content.scalar? with
      | none =>
          have hno : ∀ vs : Array Scalar, items ≠ vs.toList.map .scalar := by
            intro vs hitems
            rw [mapM_scalar?_eq_some.mpr hitems] at hvs
            cases hvs
          cases source <;> simp [sourceContent, refuse_ne_ok, hno]
      | some vs =>
          rw [mapM_scalar?_eq_some] at hvs
          subst hvs
          cases source with
          | scalar v => simp [sourceContent]
          | sequence vs' =>
              have hinj : Function.Injective (List.map Content.scalar) :=
                List.map_injective_iff.mpr fun _ _ h => Content.scalar.inj h
              simp only [sourceContent, Except.ok.injEq, Source.sequence.injEq,
                Content.array.injEq, hinj.eq_iff]
              rw [← Array.toList_inj]
  | _ => cases source <;> simp [Content.source, sourceContent, refuse_ne_ok]

theorem source_ok_iff {c : Content} : (∃ source, c.source = .ok source) ↔ c.IsSource := by
  simp only [source_eq_ok, Content.IsSource, Content.IsScalars, forall_isScalar_iff]
  constructor
  · intro h
    obtain ⟨source, rfl⟩ := h
    cases source with
    | scalar v => exact .inl ⟨v, rfl⟩
    | sequence vs => exact .inr ⟨_, rfl, vs.toList, rfl⟩
  · intro h
    rcases h with ⟨v, rfl⟩ | ⟨_, rfl, vs, rfl⟩
    · exact ⟨.scalar v, rfl⟩
    · exact ⟨.sequence vs.toArray, rfl⟩

theorem string_eq_ok {c : Content} {expected t : String} :
    c.found.string expected = .ok t ↔ c = .text t := by
  cases c <;> simp [Content.found, Found.string, refuse_ne_ok]

theorem ofName?_eq_some_iff {name : String} {kind : OperationKind} :
    OperationKind.ofName? name = some kind ↔ name = kind.name := by
  constructor
  · intro h
    unfold OperationKind.ofName? at h
    split at h <;> cases h <;> rfl
  · intro h
    subst h
    cases kind <;> rfl

theorem operationKind_eq_ok {c : Content} {kind : OperationKind} :
    c.operationKind = .ok kind ↔ c = .text kind.name := by
  simp only [Content.operationKind, bind_eq_ok, string_eq_ok]
  constructor
  · intro h
    obtain ⟨t, rfl, ht⟩ := h
    split at ht
    · next hname =>
        cases ht
        rw [ofName?_eq_some_iff.mp hname]
    · cases ht
  · intro h
    exact ⟨kind.name, h, by rw [ofName?_eq_some_iff.mpr rfl]⟩

/-! ### Operations -/

theorem SliceParts.read?_of_not_mem {name : String} (h : name ∉ OperationKind.getitem.fields)
    (p : SliceParts) (value : Decoded (Option Int64)) : p.read? name value = .none := by
  simp only [OperationKind.fields, List.mem_cons, List.not_mem_nil, or_false, not_or] at h
  obtain ⟨hstart, hstop, hstep⟩ := h
  simp only [SliceParts.read?]

/-- The names of the parts that have been met. -/
def SliceParts.Has (p : SliceParts) (name : String) : Prop :=
  name = "start" ∧ p.start ≠ .none ∨ name = "stop" ∧ p.stop ≠ .none ∨
    name = "step" ∧ p.step ≠ .none

theorem readPart_eq_ok {kind : OperationKind} {p p' : SliceParts} {name : String} {c : Content} :
    readPart kind p name c = .ok p' ↔ ∃ w, c.found.optionalWord = .ok w ∧
      (name = "start" ∧ p.start = .none ∧ { p with start := some w } = p' ∨
        name = "stop" ∧ p.stop = .none ∧ { p with stop := some w } = p' ∨
        name = "step" ∧ p.step = .none ∧ { p with step := some w } = p') := by
  by_cases hstart : name = "start"
  · subst hstart
    simp [readPart, SliceParts.read?, map_ok, once_eq_ok, and_assoc, and_left_comm]
  by_cases hstop : name = "stop"
  · subst hstop
    simp [readPart, SliceParts.read?, map_ok, once_eq_ok, and_assoc, and_left_comm]
  by_cases hstep : name = "step"
  · subst hstep
    simp [readPart, SliceParts.read?, map_ok, once_eq_ok, and_assoc, and_left_comm]
  have hother : name ∉ OperationKind.getitem.fields := by
    simp [OperationKind.fields, hstart, hstop, hstep]
  simp [readPart, SliceParts.read?_of_not_mem hother, hstart, hstop, hstep, refuse_ne_ok]

theorem readPart_ok_iff {kind : OperationKind} {p : SliceParts} {name : String} {c : Content} :
    (∃ p', readPart kind p name c = .ok p') ↔
      ¬p.Has name ∧ ∃ f ∈ OperationKind.parts, f.1 = name ∧ f.2 c := by
  simp only [readPart_eq_ok, OperationKind.parts, List.exists_mem_cons_iff, List.not_mem_nil,
    false_and, exists_false, or_false, ← optionalWord_ok_iff]
  constructor
  · intro h
    obtain ⟨p', w, hw, h⟩ := h
    rcases h with ⟨rfl, hp, _⟩ | ⟨rfl, hp, _⟩ | ⟨rfl, hp, _⟩ <;>
      exact ⟨by simp [SliceParts.Has, hp], by simp [hw]⟩
  · intro h
    obtain ⟨hnew, hname⟩ := h
    rcases hname with ⟨rfl, w, hw⟩ | ⟨rfl, w, hw⟩ | ⟨rfl, w, hw⟩
    · exact ⟨_, w, hw, .inl ⟨rfl, by simpa [SliceParts.Has] using hnew, rfl⟩⟩
    · exact ⟨_, w, hw, .inr (.inl ⟨rfl, by simpa [SliceParts.Has] using hnew, rfl⟩)⟩
    · exact ⟨_, w, hw, .inr (.inr ⟨rfl, by simpa [SliceParts.Has] using hnew, rfl⟩)⟩

theorem has_readPart {kind : OperationKind} {p p' : SliceParts} {name : String} {c : Content}
    (h : readPart kind p name c = .ok p') (other : String) :
    p'.Has other ↔ p.Has other ∨ other = name := by
  obtain ⟨w, _, h⟩ := readPart_eq_ok.mp h
  rcases h with ⟨rfl, hp, rfl⟩ | ⟨rfl, hp, rfl⟩ | ⟨rfl, hp, rfl⟩ <;>
    simp [SliceParts.Has, hp] <;> tauto

theorem reader_load : Reader OperationKind.getitem.shape readLoadMember SliceParts.Has where
  takes _ _ := readPart_ok_iff
  has_step h := has_readPart h

theorem readAssignMember_eq_ok {s s' : SliceParts × Option (Source Scalar)}
    {m : String × Content} :
    readAssignMember s m = .ok s' ↔
      m.1 = "value" ∧ s.2 = none ∧ (∃ v, m.2.source = .ok v ∧ (s.1, some v) = s') ∨
        m.1 ≠ "value" ∧ ∃ p, readPart .setitem s.1 m.1 m.2 = .ok p ∧ (p, s.2) = s' := by
  by_cases h : m.1 = "value" <;>
    simp [readAssignMember, h, map_ok, once_eq_ok, and_assoc]

theorem ne_value_of_part {name : String} {c : Content}
    (h : ∃ f ∈ OperationKind.parts, f.1 = name ∧ f.2 c) : name ≠ "value" := by
  intro heq
  subst heq
  simp [OperationKind.parts] at h

theorem reader_assign : Reader OperationKind.setitem.shape readAssignMember
    (fun s name => s.1.Has name ∨ name = "value" ∧ s.2 ≠ none) where
  takes s m := by
    have hallows : OperationKind.setitem.shape.Allows m ↔
        (∃ f ∈ OperationKind.parts, f.1 = m.1 ∧ f.2 m.2) ∨ m.1 = "value" ∧ m.2.IsSource := by
      simp [Shape.Allows, OperationKind.shape, or_and_right, exists_or, eq_comm (a := "value")]
    rw [hallows, ← source_ok_iff]
    simp only [readAssignMember_eq_ok]
    constructor
    · intro h
      obtain ⟨s', h⟩ := h
      rcases h with ⟨hm, hs, v, hv, _⟩ | ⟨hm, p, hp, _⟩
      · exact ⟨by simp [SliceParts.Has, hm, hs], .inr ⟨hm, v, hv⟩⟩
      · obtain ⟨hnew, hpart⟩ := readPart_ok_iff.mp ⟨p, hp⟩
        exact ⟨by simp [hnew, hm], .inl hpart⟩
    · intro h
      obtain ⟨hnew, h⟩ := h
      rw [not_or] at hnew
      rcases h with hpart | ⟨hm, v, hv⟩
      · obtain ⟨p, hp⟩ := readPart_ok_iff.mpr ⟨hnew.1, hpart⟩
        exact ⟨_, .inr ⟨ne_value_of_part hpart, p, hp, rfl⟩⟩
      · exact ⟨_, .inl ⟨hm, by simpa [hm] using hnew.2, v, hv, rfl⟩⟩
  has_step h name := by
    rcases readAssignMember_eq_ok.mp h with ⟨hm, hs, v, _, rfl⟩ | ⟨_, p, hp, rfl⟩
    · simp [hm, hs]
    · rw [has_readPart hp]
      tauto

theorem readAssignAtMember_eq_ok {s s' : Option Int64 × Option Scalar} {m : String × Content} :
    readAssignAtMember s m = .ok s' ↔
      m.1 = "index" ∧ s.1 = none ∧ (∃ w, m.2.found.word = .ok w ∧ (some w, s.2) = s') ∨
        m.1 = "value" ∧ s.2 = none ∧ ∃ v, m.2.element = .ok v ∧ (s.1, some v) = s' := by
  unfold readAssignAtMember
  split
  · next h => simp [h, map_ok, once_eq_ok, and_assoc]
  · next h => simp [h, map_ok, once_eq_ok, and_assoc]
  · next hindex hvalue =>
      simp [show m.1 ≠ "index" from hindex, show m.1 ≠ "value" from hvalue, refuse_ne_ok]

theorem reader_assignAt : Reader OperationKind.store.shape readAssignAtMember
    (fun s name => name = "index" ∧ s.1 ≠ none ∨ name = "value" ∧ s.2 ≠ none) where
  takes s m := by
    have hallows : OperationKind.store.shape.Allows m ↔
        m.1 = "index" ∧ m.2.IsInteger ∨ m.1 = "value" ∧ m.2.IsScalar := by
      simp [Shape.Allows, OperationKind.shape, eq_comm]
    rw [hallows, ← word_ok_iff, Content.IsScalar]
    simp only [readAssignAtMember_eq_ok, element_eq_ok]
    constructor
    · intro h
      obtain ⟨s', h⟩ := h
      rcases h with ⟨hm, hs, w, hw, _⟩ | ⟨hm, hs, v, hv, _⟩
      · exact ⟨by simp [hm, hs], .inl ⟨hm, w, hw⟩⟩
      · exact ⟨by simp [hm, hs], .inr ⟨hm, v, hv⟩⟩
    · intro h
      obtain ⟨hnew, h⟩ := h
      rw [not_or] at hnew
      rcases h with ⟨hm, w, hw⟩ | ⟨hm, v, hv⟩
      · exact ⟨_, .inl ⟨hm, by simpa [hm] using hnew.1, w, hw, rfl⟩⟩
      · exact ⟨_, .inr ⟨hm, by simpa [hm] using hnew.2, v, hv, rfl⟩⟩
  has_step h name := by
    rcases readAssignAtMember_eq_ok.mp h with ⟨hm, hs, w, _, rfl⟩ | ⟨hm, hs, v, _, rfl⟩
    · simp [hm, hs, or_comm]
    · simp [hm, hs]

theorem operationByName_setitem {members : List (String × Content)} {o : Operation} :
    operationByName .setitem members = .ok o ↔
      ∃ p v, members.foldlM readAssignMember (.none, none) = .ok (p, some v) ∧
        .assign p.slice v = o := by
  simp only [operationByName, do_eq_ok, pure_eq_ok, required_eq_ok, Prod.exists]
  constructor
  · intro h
    obtain ⟨p, _, hfold, v, rfl, ho⟩ := h
    exact ⟨p, v, hfold, ho⟩
  · intro h
    obtain ⟨p, v, hfold, ho⟩ := h
    exact ⟨p, some v, hfold, v, rfl, ho⟩

theorem operationByName_store {members : List (String × Content)} {o : Operation} :
    operationByName .store members = .ok o ↔
      ∃ i v, members.foldlM readAssignAtMember (none, none) = .ok (some i, some v) ∧
        .assignAt i v = o := by
  simp only [operationByName, do_eq_ok, pure_eq_ok, required_eq_ok, Prod.exists]
  constructor
  · intro h
    obtain ⟨_, _, hfold, i, rfl, v, rfl, ho⟩ := h
    exact ⟨i, v, hfold, ho⟩
  · intro h
    obtain ⟨i, v, hfold, ho⟩ := h
    exact ⟨some i, some v, hfold, i, rfl, v, rfl, ho⟩

theorem operationByName_getitem {members : List (String × Content)} {o : Operation} :
    operationByName .getitem members = .ok o ↔
      ∃ p, members.foldlM readLoadMember .none = .ok p ∧ .load p.slice = o := by
  simp only [operationByName, do_eq_ok, pure_eq_ok]

theorem operationByName_ok_iff (kind : OperationKind) (members : List (String × Content)) :
    (∃ o, operationByName kind members = .ok o) ↔ kind.shape.Admits members := by
  cases kind with
  | setitem =>
      have hstart : ∀ name, ¬(SliceParts.none.Has name ∨ name = "value" ∧
          (none : Option (Source Scalar)) ≠ none) := by
        simp [SliceParts.Has, SliceParts.none]
      rw [← reader_assign.admits_iff (s := (.none, none)) hstart]
      simp only [operationByName_setitem, OperationKind.shape, List.mem_singleton, forall_eq]
      constructor
      · intro h
        obtain ⟨o, p, v, hfold, _⟩ := h
        exact ⟨(p, some v), hfold, by simp⟩
      · intro h
        obtain ⟨⟨p, value⟩, hfold, hvalue⟩ := h
        obtain ⟨v, rfl⟩ := Option.ne_none_iff_exists'.mp
          (by simpa [SliceParts.Has] using hvalue)
        exact ⟨_, p, v, hfold, rfl⟩
  | store =>
      rw [← reader_assignAt.admits_iff (s := (none, none)) (by simp)]
      simp only [operationByName_store, OperationKind.shape, List.forall_mem_cons]
      constructor
      · intro h
        obtain ⟨o, i, v, hfold, _⟩ := h
        exact ⟨(some i, some v), hfold, by simp⟩
      · intro h
        obtain ⟨⟨index, value⟩, hfold, hindex, hvalue, _⟩ := h
        obtain ⟨i, rfl⟩ := Option.ne_none_iff_exists'.mp (by simpa using hindex)
        obtain ⟨v, rfl⟩ := Option.ne_none_iff_exists'.mp (by simpa using hvalue)
        exact ⟨_, i, v, hfold, rfl⟩
  | getitem =>
      rw [← reader_load.admits_iff (s := .none) (by simp [SliceParts.Has, SliceParts.none])]
      simp [operationByName_getitem, OperationKind.shape]

/-- The tag of an operation and its other members do not see one another. -/
theorem foldlM_readOperationMember {members : List (String × Content)}
    {kind : Option OperationKind} {others : List (String × Content)} {p : OperationParts} :
    members.foldlM Content.readOperationMember ⟨kind, others⟩ = .ok p ↔
      (members.filter (·.1 = "op")).foldlM (fun k m => once m.1 k m.2.operationKind) kind =
          .ok p.kind ∧
        p.others = (members.filter (¬ ·.1 = "op")).reverse ++ others := by
  induction members generalizing kind others with
  | nil =>
      rw [List.filter_nil, List.filter_nil, List.foldlM_nil, List.foldlM_nil, pure_eq_ok,
        pure_eq_ok]
      constructor
      · intro h
        subst h
        exact ⟨rfl, rfl⟩
      · intro h
        obtain ⟨rfl, hothers⟩ := h
        rw [List.reverse_nil, List.nil_append] at hothers
        rw [← hothers]
  | cons m rest ih =>
      rw [List.foldlM_cons, do_eq_ok]
      by_cases hm : m.1 = "op"
      · rw [List.filter_cons_of_pos (by simpa using hm),
          List.filter_cons_of_neg (by simpa using hm), List.foldlM_cons, do_eq_ok]
        simp only [Content.readOperationMember, if_pos hm, map_ok]
        constructor
        · intro h
          obtain ⟨_, ⟨k, hk, rfl⟩, hrest⟩ := h
          obtain ⟨hkind, hothers⟩ := ih.mp hrest
          exact ⟨⟨k, hk, hkind⟩, hothers⟩
        · intro h
          obtain ⟨⟨k, hk, hkind⟩, hothers⟩ := h
          exact ⟨_, ⟨k, hk, rfl⟩, ih.mpr ⟨hkind, hothers⟩⟩
      · rw [List.filter_cons_of_neg (by simpa using hm),
          List.filter_cons_of_pos (by simpa using hm)]
        simp only [Content.readOperationMember, if_neg hm, Except.ok.injEq, exists_eq_left', ih,
          List.reverse_cons, List.append_assoc, List.singleton_append]

theorem operation_eq_ok {members : List (String × Content)} {o : Operation} :
    (Content.object members).operation = .ok o ↔
      ∃ kind : OperationKind, members.filter (·.1 = "op") = [("op", .text kind.name)] ∧
        operationByName kind (members.filter (¬ ·.1 = "op")) = .ok o := by
  have htag : ∀ m ∈ members.filter (·.1 = "op"), m.1 = "op" := by
    intro m hm
    exact of_decide_eq_true (List.mem_filter.mp hm).2
  simp only [Content.operation, do_eq_ok, required_eq_ok, foldlM_readOperationMember]
  constructor
  · intro h
    obtain ⟨p, ⟨hkind, hothers⟩, kind, hp, ho⟩ := h
    rw [hp, foldlM_once htag] at hkind
    obtain ⟨c, hc, hvalue⟩ := hkind
    rw [operationKind_eq_ok] at hvalue
    rw [hothers, List.append_nil, List.reverse_reverse] at ho
    exact ⟨kind, hvalue ▸ hc, ho⟩
  · intro h
    obtain ⟨kind, hc, ho⟩ := h
    refine ⟨⟨some kind, (members.filter (¬ ·.1 = "op")).reverse⟩, ⟨?_, by simp⟩, kind, rfl, ?_⟩
    · exact (foldlM_once htag).mpr ⟨_, hc, operationKind_eq_ok.mpr rfl⟩
    · rwa [List.reverse_reverse]

theorem operation_ok_iff {members : List (String × Content)} :
    (∃ o, (Content.object members).operation = .ok o) ↔
      (Content.object members).IsOperation := by
  have hfields : ∀ kind : OperationKind, ∀ f ∈ kind.shape.fields, f.1 ≠ "op" := by
    intro kind
    cases kind <;> simp [OperationKind.shape, OperationKind.parts]
  have hrequired : ∀ kind : OperationKind, "op" ∉ kind.shape.required := by
    intro kind
    cases kind <;> decide
  simp only [operation_eq_ok, Content.IsOperation, Content.object.injEq, exists_eq_left',
    OperationKind.tagged, Shape.admits_withTag (hfields _) (hrequired _),
    ← operationByName_ok_iff]
  constructor
  · intro h
    obtain ⟨o, kind, hc, ho⟩ := h
    exact ⟨kind, ⟨_, hc, rfl⟩, o, ho⟩
  · intro h
    obtain ⟨kind, ⟨c, hc, rfl⟩, o, ho⟩ := h
    exact ⟨o, kind, hc, ho⟩

/-- The sequence that an operation stores is the array that stands as its value. -/
theorem sequence_le_iff {op : List (String × Content)} {o : Operation} {limit : Nat}
    (h : (Content.object op).operation = .ok o) :
    (∀ vs, o.sequence? = some vs → vs.size ≤ limit) ↔
      ∀ vs, ("value", .array vs) ∈ op → vs.length ≤ limit := by
  -- The tag is no value, so the other members say it all.
  obtain ⟨kind, _, ho⟩ := operation_eq_ok.mp h
  have hadmits := (operationByName_ok_iff kind _).mp ⟨o, ho⟩
  have hmem : ∀ c, ("value", c) ∈ op ↔ ("value", c) ∈ op.filter (¬ ·.1 = "op") := by
    simp [List.mem_filter]
  simp only [hmem]
  cases kind with
  | setitem =>
      obtain ⟨p, source, hfold, rfl⟩ := operationByName_setitem.mp ho
      have hvalue := reader_assign.field_eq_some_iff (·.2) "value" Content.source
        (by simp [SliceParts.Has]) (fun h => ?_) (fun h hm => ?_) hfold source
      · obtain ⟨c, hc, hsource⟩ := (hvalue.mp rfl).resolve_left nofun
        rw [source_eq_ok] at hsource
        subst hsource
        have honly : ∀ vs, ("value", .array vs) ∈ op.filter (¬ ·.1 = "op") →
            sourceContent source = .array vs := fun vs hvs =>
          eq_of_mem_of_nodup hadmits.nodup hc hvs
        cases source with
        | scalar v =>
            refine ⟨fun _ vs hvs => ?_, fun _ vs hvs => ?_⟩
            · cases honly vs hvs
            · cases hvs
        | sequence vs =>
            constructor
            · intro hle items hitems
              cases honly items hitems
              simpa using hle vs rfl
            · intro hle vs' hvs'
              cases hvs'
              simpa using hle _ hc
      · obtain ⟨_, v, hv, rfl⟩ := by simpa [readAssignMember_eq_ok] using h
        exact ⟨v, hv, rfl⟩
      · rcases readAssignMember_eq_ok.mp h with ⟨h', _⟩ | ⟨_, p, _, rfl⟩
        · exact absurd h' hm
        · rfl
  | store =>
      obtain ⟨i, v, _, rfl⟩ := operationByName_store.mp ho
      refine ⟨fun _ vs hvs => ?_, fun _ vs hvs => ?_⟩
      · have hallowed := hadmits.allowed _ hvs
        simp [Shape.Allows, OperationKind.shape, Content.IsScalar] at hallowed
      · cases hvs
  | getitem =>
      obtain ⟨p, _, rfl⟩ := operationByName_getitem.mp ho
      refine ⟨fun _ vs hvs => ?_, fun _ vs hvs => ?_⟩
      · have hallowed := hadmits.allowed _ hvs
        simp [Shape.Allows, OperationKind.shape, OperationKind.parts] at hallowed
      · cases hvs

end StridedSlice.Json
