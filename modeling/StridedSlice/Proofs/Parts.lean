import StridedSlice.Proofs.OneOperation
import StridedSlice.Proofs.Positional
/-!
# StridedSlice.Proofs.Parts

**The parts of a script by themselves.** The name of a data type, an operation and a slice can
each be the value of a text of its own. They are read there as they are inside a script:

* `decodeDType_eq_ok_iff`: a data type is a text that is a name;
* `decodeOperation_eq_ok_iff`: an operation is one by names or by positions;
* `decodeSlice_eq_ok_iff`: a slice is read as the load of its parts.

Members of a slice that are not its parts are passed over, and they need not have contents for
that. Where they have, leaving them out makes no difference (`foldDecoded_readSliceMember`).
-/

namespace StridedSlice.Json

variable {bytes : List UInt8}

/-! ### Data types and operations -/

theorem decodeDType_eq_ok_iff {dtype : DType} :
    decodeDType bytes = .ok dtype ↔
      ∃ name, decodeContent bytes = .ok (.text name) ∧ DType.parse name = .ok dtype := by
  simp only [decodeDType, decode_eq_ok (reads_dtype maxDepth), Content.dtype, bind_eq_ok,
    string_eq_ok]
  constructor
  · rintro ⟨c, hc, name, rfl, hname⟩
    refine ⟨name, hc, ?_⟩
    cases hparse : DType.parse name <;> rw [hparse] at hname <;> cases hname
    rfl
  · rintro ⟨name, hc, hname⟩
    exact ⟨_, hc, name, rfl, by rw [hname]; rfl⟩

theorem decodeOperation_eq_ok_iff {o : Operation} :
    decodeOperation bytes = .ok o ↔
      ∃ c members, decodeContent bytes = .ok c ∧ OperationNamed c members ∧
        (Content.object members).operation = .ok o := by
  have hreads : Reads maxDepth (Node.operation maxDepth) Content.operation :=
    reads_operation (maxDepth - 1)
  rw [decodeOperation, decode_eq_ok hreads]
  constructor
  · rintro ⟨c, hc, ho⟩
    obtain ⟨members, hnamed, ho⟩ := operation_eq_ok_iff_named.mp ho
    exact ⟨c, members, hc, hnamed, ho⟩
  · rintro ⟨c, members, hc, hnamed, ho⟩
    exact ⟨c, hc, operation_eq_ok_iff_named.mpr ⟨members, hnamed, ho⟩⟩

/-! ### Slices -/

mutual

/-- What has contents can be passed over. -/
theorem skip_of_content : ∀ {v : Node} {depth : Nat} {c : Content},
    v.content depth = .ok c → v.skip = .ok ()
  | .null, _, _, _ | .bool _, _, _, _ | .number _, _, _, _ | .text _, _, _, _ => rfl
  | .broken b, _, _, h => by cases h
  | .array items, 0, c, h | .object members, 0, c, h => by cases h
  | .array items, depth + 1, c, h => by
      obtain ⟨cs, hcs, -⟩ := map_ok.mp h
      exact skip_of_itemContents hcs
  | .object members, depth + 1, c, h => by
      obtain ⟨ms, hms, -⟩ := map_ok.mp h
      exact skip_of_memberContents hms

theorem skip_of_itemContents : ∀ {items : Items} {depth : Nat} {cs : List Content},
    items.contents depth [] = .ok cs → items.skip = .ok ()
  | .closed, _, _, _ => rfl
  | .broken b, _, _, h => by cases h
  | .cons item rest, depth, cs, h => by
      obtain ⟨c, hc, cs, hcs, -⟩ := Items.contents_cons.mp h
      rw [Items.skip, skip_of_content hc]
      exact skip_of_itemContents hcs

theorem skip_of_memberContents : ∀ {members : Members} {depth : Nat}
    {ms : List (String × Content)},
    members.contents depth [] = .ok ms → members.skip = .ok ()
  | .closed, _, _, _ => rfl
  | .broken b, _, _, h => by cases h
  | .cons key value rest, depth, ms, h => by
      obtain ⟨name, c, -, hc, ms, hms, -⟩ := Members.contents_cons.mp h
      rw [Members.skip, skip_of_content hc]
      exact skip_of_memberContents hms

end

/-- The contents of a load with the parts of a slice. Members that are no parts are left out. -/
def Content.asLoad : Content → Content
  | .object members =>
      .object (("op", .text "getitem") ::
        members.filter (·.1 ∈ OperationKind.getitem.fields))
  | .array items => .array (.text "getitem" :: items)
  | c => c

/-- A member of a slice is read like that of a load, if a load has such a member. -/
theorem readSliceMember_eq {value : Node} {depth : Nat} {c : Content}
    (h : value.content depth = .ok c) (p : SliceParts) (name : String) :
    readSliceMember p name value =
      if name ∈ OperationKind.getitem.fields then readLoadMember p (name, c) else .ok p := by
  have hvalue : value.optionalWord = c.found.optionalWord := by
    rw [Node.optionalWord, Node.interpret, found_of_content h]
    rfl
  rw [readSliceMember, readLoadMember, readPart, hvalue, skip_of_content h]
  by_cases hpart : name ∈ OperationKind.getitem.fields
  · rw [if_pos hpart]
    simp only [OperationKind.fields, List.mem_cons, List.not_mem_nil, or_false] at hpart
    rcases hpart with rfl | rfl | rfl <;> rfl
  · rw [if_neg hpart, SliceParts.read?_of_not_mem hpart]
    rfl

/-- **Passing over members** is reading what is left without them. -/
theorem foldDecoded_readSliceMember {depth : Nat} :
    ∀ {members : Members} {ms : List (String × Content)} (p : SliceParts),
      members.contents depth [] = .ok ms →
        members.foldDecoded readSliceMember p =
          (ms.filter (·.1 ∈ OperationKind.getitem.fields)).foldlM readLoadMember p
  | .closed, ms, p, h => by
      cases h
      rfl
  | .broken b, ms, p, h => by cases h
  | .cons key value rest, ms, p, h => by
      obtain ⟨name, c, rfl, hc, others, hothers, rfl⟩ := Members.contents_cons.mp h
      rw [Members.foldDecoded, readSliceMember_eq hc]
      by_cases hpart : name ∈ OperationKind.getitem.fields
      · rw [if_pos hpart, List.filter_cons_of_pos (by simpa using hpart), List.foldlM_cons]
        cases readLoadMember p (name, c) with
        | error e => rfl
        | ok p => exact foldDecoded_readSliceMember p hothers
      · rw [if_neg hpart, List.filter_cons_of_neg (by simpa using hpart)]
        exact foldDecoded_readSliceMember p hothers

/-- Parts by position, as they are read from items and from their contents. -/
theorem slice_array_eq_ok {depth : Nat} {items : Items} {cs : List Content} {s : Slice}
    (h : items.contents depth [] = .ok cs) :
    (Node.array items).slice = .ok s ↔ operationByPosition .getitem cs = .ok (.load s) := by
  have hpart : Reads depth Node.optionalWord (·.found.optionalWord) :=
    reads_interpret depth (fun _ => nofun) (fun _ => nofun)
  have hnext : (Node.array items).slice = .ok s ↔
      ∃ cs, items.contents depth [] = .ok cs ∧ (do
        let (start, cs) ← nextContent (·.found.optionalWord) cs
        let (stop, cs) ← nextContent (·.found.optionalWord) cs
        let (step, cs) ← nextContent (·.found.optionalWord) cs
        noContent cs
        return SliceParts.slice ⟨start, stop, step⟩) = .ok s := by
    refine Items.next_eq_ok hpart fun start items s => ?_
    refine Items.next_eq_ok hpart fun stop items s => ?_
    refine Items.next_eq_ok hpart fun step items s => ?_
    simp only [do_eq_ok, Items.finish_eq_ok depth]
    constructor
    · rintro ⟨u, ⟨cs, hcs, hu⟩, hs⟩
      exact ⟨cs, hcs, u, hu, hs⟩
    · rintro ⟨cs, hcs, u, hu, hs⟩
      exact ⟨u, ⟨cs, hcs, hu⟩, hs⟩
  rw [hnext]
  simp only [h, Except.ok.injEq, exists_eq_left', operationByPosition, do_eq_ok, pure_eq_ok,
    Operation.load.injEq]
  rcases cs with _ | ⟨start, _ | ⟨stop, _ | ⟨step, _ | ⟨more, cs⟩⟩⟩⟩
  · simp [nextContent, noContent, partAt, atMost, SliceParts.slice]
  · simp [nextContent, noContent, partAt, atMost, SliceParts.slice, map_ok]
  · simp [nextContent, noContent, partAt, atMost, SliceParts.slice, map_ok]
  · simp [nextContent, noContent, partAt, atMost, SliceParts.slice, map_ok]
  · simp [nextContent, noContent, partAt, atMost, SliceParts.slice, map_ok, refuse_ne_ok]

/-- A slice in the place of a load: what has contents is read as the parts of one. -/
theorem slice_eq_ok_iff {v : Node} {depth : Nat} {c : Content} {s : Slice}
    (h : v.content (depth + 1) = .ok c) :
    v.slice = .ok s ↔ c.asLoad.operation = .ok (.load s) := by
  have hcontainer (hread : v.slice = .ok s) :
      (∃ cs, c = .array cs) ∨ ∃ ms, c = .object ms := by
    cases v with
    | array items =>
        obtain ⟨cs, -, rfl⟩ := map_ok.mp h
        exact .inl ⟨cs, rfl⟩
    | object members =>
        obtain ⟨ms, -, rfl⟩ := map_ok.mp h
        exact .inr ⟨ms, rfl⟩
    | _ => exact absurd hread (interpret_refuse_ne_ok _ _ _)
  cases c with
  | array cs =>
      obtain ⟨items, rfl, hcs⟩ := content_eq_array.mp h
      exact slice_array_eq_ok hcs
  | object ms =>
      obtain ⟨members, rfl, hms⟩ := content_eq_object.mp h
      have hnames : ∀ m ∈ ms.filter (·.1 ∈ OperationKind.getitem.fields), m.1 ≠ "op" := by
        intro m hm heq
        have hfield := of_decide_eq_true (List.mem_filter.mp hm).2
        rw [heq] at hfield
        exact absurd hfield (by decide)
      rw [Content.asLoad, Script.operation_object rfl hnames, operationByName_getitem, Node.slice,
        foldDecoded_readSliceMember _ hms, map_ok]
      simp only [Operation.load.injEq]
  | _ =>
      refine iff_of_false (fun hread => ?_) (refuse_ne_ok _ _)
      rcases hcontainer hread with ⟨_, hc⟩ | ⟨_, hc⟩ <;> cases hc

/-- **A slice by itself** is read as a load with its parts is. -/
theorem decodeSlice_eq_ok_iff {c : Content} {s : Slice} (h : decodeContent bytes = .ok c) :
    decodeSlice bytes = .ok s ↔ c.asLoad.operation = .ok (.load s) := by
  simp only [decodeContent, decode, bind_eq_ok, Node.whole, orFault_eq_ok] at h
  obtain ⟨c', hcontent, htrailing⟩ := h
  split_ifs at htrailing with hmore
  cases htrailing
  simp only [decodeSlice, decode, if_neg hmore, bind_eq_ok]
  rw [← slice_eq_ok_iff hcontent]
  simp

end StridedSlice.Json
