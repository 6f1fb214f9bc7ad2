import StridedSlice.Proofs.Embedding
/-!
# StridedSlice.Proofs.Printing

**A value that is printed is read back as a document.** The text of a value is one complete
JSON text without an end of line in it, and what is read is the same tree with its numbers as
they were written (`Json.node`).

Numbers and strings are single tokens. Arrays and objects are put together from the texts of
their parts (`print_array`, `print_object`), so the general laws about texts inside other texts
do the rest.
-/

namespace StridedSlice.Json

/-! ### Text -/

mutual

theorem write_eq (acc : String) : ∀ v : Json, write acc v = acc ++ print v
  | .null => by simp [print, write]
  | .bool b => by simp [print, write]
  | .int i => by simp [print, write]
  | .float32 x => by simp [print, write]
  | .float64 x => by simp [print, write]
  | .text s => by rw [print, write, write, writeString_eq]
  | .array items => by
      rw [print, write, write, writeItems_eq, String.append_assoc, String.append_assoc,
        writeItems_eq ("" ++ "["), String.empty_append, String.append_assoc]
  | .object members => by
      rw [print, write, write, writeMembers_eq, String.append_assoc, String.append_assoc,
        writeMembers_eq ("" ++ "\x7b"), String.empty_append, String.append_assoc]

theorem writeItems_eq (acc separator : String) : ∀ items : List Json,
    writeItems acc separator items = acc ++ writeItems "" separator items
  | [] => by simp [writeItems]
  | v :: rest => by
      rw [writeItems, writeItems, write_eq _ v, write_eq ("" ++ separator) v,
        writeItems_eq _ "," rest, writeItems_eq ("" ++ separator ++ print v) "," rest]
      simp [String.append_assoc]

theorem writeMembers_eq (acc separator : String) : ∀ members : List (String × Json),
    writeMembers acc separator members = acc ++ writeMembers "" separator members
  | [] => by simp [writeMembers]
  | (name, v) :: rest => by
      rw [writeMembers, writeMembers, write_eq _ v, write_eq (_ ++ ":") v,
        writeMembers_eq _ "," rest, writeMembers_eq (_ ++ ":" ++ print v) "," rest,
        writeString_eq, writeString_eq ("" ++ separator)]
      simp [String.append_assoc]

end

theorem writeItems_cons (separator : String) (v : Json) (rest : List Json) :
    writeItems "" separator (v :: rest) = separator ++ print v ++ writeItems "" "," rest := by
  rw [writeItems, write_eq, writeItems_eq, String.empty_append]

theorem writeMembers_cons (separator name : String) (v : Json) (rest : List (String × Json)) :
    writeMembers "" separator ((name, v) :: rest) =
      separator ++ writeString "" name ++ ":" ++ print v ++ writeMembers "" "," rest := by
  rw [writeMembers, write_eq, writeMembers_eq, writeString_eq, String.empty_append]

theorem print_array (items : List Json) : print (.array items) = arrayText (items.map print) := by
  have hitems (separator : String) (items : List Json) :
      writeItems "" separator items = itemsText separator (items.map print) := by
    induction items generalizing separator with
    | nil => rw [writeItems, List.map_nil, itemsText]
    | cons v rest ih => rw [writeItems_cons, List.map_cons, itemsText, ih]
  rw [print, write, writeItems_eq, String.empty_append, arrayText, hitems]

theorem print_object (members : List (String × Json)) :
    print (.object members) = objectText (members.map fun m => (m.1, print m.2)) := by
  have hmembers (separator : String) (members : List (String × Json)) :
      writeMembers "" separator members =
        membersText separator (members.map fun m => (m.1, print m.2)) := by
    induction members generalizing separator with
    | nil => rw [writeMembers, List.map_nil, membersText]
    | cons m rest ih => rw [writeMembers_cons, List.map_cons, membersText, ih]
  rw [print, write, writeMembers_eq, String.empty_append, objectText, hmembers]

/-! ### Nodes -/

/-- A number, or `null` in its place. -/
def Node.ofNumeral? : Option Numeral → Node
  | none => .null
  | some n => .number n

mutual

/-- The node that the text of a value is read as. -/
def node : Json → Node
  | .null => .null
  | .bool b => .bool b
  | .int i => .number (.ofInt i)
  | .float32 x => .ofNumeral? (float32Style.numeral? x)
  | .float64 x => .ofNumeral? (float64Style.numeral? x)
  | .text s => .text (.ok s)
  | .array items => .array (.ofList (itemNodes items))
  | .object members => .object (.ofList (memberNodes members))

/-- The nodes of the items of an array. -/
def itemNodes : List Json → List Node
  | [] => []
  | v :: rest => v.node :: itemNodes rest

/-- The nodes of the members of an object. -/
def memberNodes : List (String × Json) → List (Key × Node)
  | [] => []
  | (name, v) :: rest => (.ok name, v.node) :: memberNodes rest

end

/-- A number is one token, and so is the `null` in its place. -/
theorem embeds_text? {f : BinaryFormat} (hf : f.Searchable) (style : DecimalStyle)
    (x : Binary f) : Embeds ((style.text? x).getD "null") (.ofNumeral? (style.numeral? x)) := by
  refine ⟨_, DecimalStyle.lexes_text? hf style x, fun frames => ?_⟩
  cases style.numeral? x <;> rfl

mutual

/-- **The text of a value** stands for its node. -/
theorem embeds_print : ∀ v : Json, Embeds (print v) v.node
  | .null => ⟨[.null], DecimalStyle.closes_null.lexes, fun _ => rfl⟩
  | .bool b => by
      refine ⟨[.bool b], Closes.lexes ?_, fun _ => rfl⟩
      unfold Closes
      cases b <;> rw [print, write, Text.toBytes_eq] <;> rfl
  | .int i => by
      rw [print, write, String.empty_append]
      exact ⟨_, lexes_repr i, fun _ => rfl⟩
  | .float32 x => by
      rw [print, write, String.empty_append]
      exact embeds_text? searchable_binary32 _ x
  | .float64 x => by
      rw [print, write, String.empty_append]
      exact embeds_text? searchable_binary64 _ x
  | .text s => by
      rw [print, write]
      exact ⟨_, (closes_writeString s).lexes, fun _ => rfl⟩
  | .array items => by
      rw [print_array, node]
      exact embeds_arrayText (embeds_items items)
  | .object members => by
      rw [print_object, node]
      exact embeds_objectText (embeds_members members)

theorem embeds_items :
    ∀ items : List Json, List.Forall₂ Embeds (items.map print) (itemNodes items)
  | [] => by
      rw [itemNodes]
      exact .nil
  | v :: rest => by
      rw [itemNodes]
      exact .cons (embeds_print v) (embeds_items rest)

theorem embeds_members : ∀ members : List (String × Json),
    List.Forall₂ EmbedsMember (members.map fun m => (m.1, print m.2)) (memberNodes members)
  | [] => by
      rw [memberNodes]
      exact .nil
  | (name, v) :: rest => by
      rw [memberNodes]
      exact .cons ⟨rfl, embeds_print v⟩ (embeds_members rest)

end

/-- **A printed value** is read as its node, with nothing behind it. -/
theorem document_print (v : Json) :
    Document.ofBytes (Text.toBytes (print v)) = ⟨v.node, false⟩ :=
  (embeds_print v).document

mutual

/-- Nothing of a node that was printed is missing. -/
theorem skip_node : ∀ v : Json, v.node.skip = .ok ()
  | .null => rfl
  | .bool b => rfl
  | .int i => rfl
  | .float32 x => by
      rw [node]
      cases float32Style.numeral? x <;> rfl
  | .float64 x => by
      rw [node]
      cases float64Style.numeral? x <;> rfl
  | .text s => rfl
  | .array items => by
      rw [node, Node.skip]
      exact skip_itemNodes items
  | .object members => by
      rw [node, Node.skip]
      exact skip_memberNodes members

theorem skip_itemNodes : ∀ items : List Json, (Items.ofList (itemNodes items)).skip = .ok ()
  | [] => rfl
  | v :: rest => by
      rw [itemNodes, Items.ofList, Items.skip, skip_node v]
      exact skip_itemNodes rest

theorem skip_memberNodes :
    ∀ members : List (String × Json), (Members.ofList (memberNodes members)).skip = .ok ()
  | [] => rfl
  | (name, v) :: rest => by
      rw [memberNodes, Members.ofList, Members.skip, skip_node v]
      exact skip_memberNodes rest

end

/-! ### One line -/

/-- A text without an end of line. -/
def OneLine (s : String) : Prop := '\n' ∉ s.toList

instance (s : String) : Decidable (OneLine s) := inferInstanceAs (Decidable ('\n' ∉ s.toList))

theorem OneLine.append {s t : String} (hs : OneLine s) (ht : OneLine t) : OneLine (s ++ t) := by
  rw [OneLine, String.toList_append, List.mem_append]
  exact fun h => h.elim hs ht

theorem oneLine_ofList {cs : List Char} (h : '\n' ∉ cs) : OneLine (String.ofList cs) := by
  rwa [OneLine, String.toList_ofList]

theorem oneLine_digits {cs : List Char} (h : AllDigits cs) : OneLine (String.ofList cs) :=
  oneLine_ofList fun hmem => absurd (h _ hmem) (by decide)

theorem oneLine_repr (n : Nat) : OneLine n.repr := by
  rw [Nat.repr_eq_ofList_toDigits]
  exact oneLine_digits (allDigits_toDigits n)

theorem oneLine_signText (negative : Bool) : OneLine (signText negative) := by
  cases negative <;> decide

theorem oneLine_plain {ds : List Char} (hds : AllDigits ds) (lead : Int) :
    OneLine (DecimalStyle.plain ds lead) := by
  have hzeros (n : Nat) : OneLine (DecimalStyle.zeros n) :=
    oneLine_digits (allDigits_replicate_zero n)
  have hpart {cs : List Char} (h : cs ⊆ ds) : OneLine (String.ofList cs) :=
    oneLine_digits fun c hc => hds c (h hc)
  unfold DecimalStyle.plain
  dsimp only
  split_ifs
  · exact (OneLine.append (by decide) (hzeros _)).append (hpart fun _ h => h)
  · exact ((hpart fun _ h => h).append (hzeros _)).append (by decide)
  · exact ((hpart (List.take_subset _ _)).append (by decide)).append
      (hpart (List.drop_subset _ _))

theorem oneLine_scientific {ds : List Char} (hds : AllDigits ds) (lead : Int) :
    OneLine (DecimalStyle.scientific ds lead) := by
  have hpart {cs : List Char} (h : cs ⊆ ds) : OneLine (String.ofList cs) :=
    oneLine_digits fun c hc => hds c (h hc)
  unfold DecimalStyle.scientific
  dsimp only
  refine ((((hpart (List.take_subset _ _)).append ?_).append (by decide)).append ?_).append
    (oneLine_repr _)
  · split_ifs
    · decide
    · exact OneLine.append (by decide) (hpart (List.drop_subset _ _))
  · split_ifs <;> decide

theorem oneLine_text? {f : BinaryFormat} (style : DecimalStyle) (x : Binary f) :
    OneLine ((style.text? x).getD "null") := by
  unfold DecimalStyle.text?
  cases x.content with
  | nan => exact (by decide : OneLine "null")
  | infinite negative => exact (by decide : OneLine "null")
  | finite negative significand exponent =>
      dsimp only
      split_ifs
      · exact OneLine.append (by decide) (by decide)
      · exact OneLine.append (by decide) (by decide)
      all_goals
        refine OneLine.append (by decide) ?_
        unfold DecimalStyle.write
        dsimp only
        split_ifs
        · exact oneLine_plain (allDigits_toDigits _) _
        · exact oneLine_scientific (allDigits_toDigits _) _

theorem oneLine_escapedChar (c : Char) : OneLine (escapedChar c) := by
  unfold escapedChar
  split
  iterate 7 decide
  next _ _ _ _ hne _ _ =>
    split_ifs with hcontrol
    · have h : ∀ n < 0x20, OneLine (controlEscape (Char.ofNat n)) := by decide
      rw [← Char.ofNat_toNat c]
      exact h _ hcontrol
    · rw [OneLine]
      simpa [Char.toString] using Ne.symm hne

theorem oneLine_writeString (s : String) : OneLine (writeString "" s) := by
  have hfold (cs : List Char) {a : String} (ha : OneLine a) :
      OneLine (cs.foldl (fun acc c => acc ++ escapedChar c) a) := by
    induction cs generalizing a with
    | nil => exact ha
    | cons c rest ih => exact ih (ha.append (oneLine_escapedChar c))
  rw [writeString, String.foldl_eq_foldl_toList]
  exact (hfold s.toList (by decide)).append (by decide)

theorem oneLine_arrayText {items : List String} (h : ∀ item ∈ items, OneLine item) :
    OneLine (arrayText items) := by
  have hitems {separator : String} (hs : OneLine separator) :
      OneLine (itemsText separator items) := by
    induction items generalizing separator with
    | nil => exact (by decide : OneLine "")
    | cons item rest ih =>
        obtain ⟨hitem, hrest⟩ := List.forall_mem_cons.mp h
        exact (hs.append hitem).append (ih hrest (by decide))
  exact (OneLine.append (by decide) (hitems (by decide))).append (by decide)

theorem oneLine_objectText {members : List (String × String)} (h : ∀ m ∈ members, OneLine m.2) :
    OneLine (objectText members) := by
  have hmembers {separator : String} (hs : OneLine separator) :
      OneLine (membersText separator members) := by
    induction members generalizing separator with
    | nil => exact (by decide : OneLine "")
    | cons m rest ih =>
        obtain ⟨hvalue, hrest⟩ := List.forall_mem_cons.mp h
        exact (((hs.append (oneLine_writeString m.1)).append (by decide)).append hvalue).append
          (ih hrest (by decide))
  exact (OneLine.append (by decide) (hmembers (by decide))).append (by decide)

mutual

/-- The text of a value has no end of line in it. -/
theorem oneLine_print : ∀ v : Json, OneLine (print v)
  | .null => by decide
  | .bool b => by cases b <;> decide
  | .int i => by
      rw [print, write, String.empty_append, repr_eq_sign_append]
      exact (oneLine_signText _).append (oneLine_repr _)
  | .float32 x => by
      rw [print, write, String.empty_append]
      exact oneLine_text? _ x
  | .float64 x => by
      rw [print, write, String.empty_append]
      exact oneLine_text? _ x
  | .text s => by
      rw [print, write]
      exact oneLine_writeString s
  | .array items => by
      rw [print_array]
      exact oneLine_arrayText (oneLine_items items)
  | .object members => by
      rw [print_object]
      exact oneLine_objectText (oneLine_members members)

theorem oneLine_items : ∀ items : List Json, ∀ item ∈ items.map print, OneLine item
  | [] => nofun
  | v :: rest => List.forall_mem_cons.mpr ⟨oneLine_print v, oneLine_items rest⟩

theorem oneLine_members : ∀ members : List (String × Json),
    ∀ m ∈ members.map fun m => (m.1, print m.2), OneLine m.2
  | [] => nofun
  | (_, v) :: rest => List.forall_mem_cons.mpr ⟨oneLine_print v, oneLine_members rest⟩

end

end StridedSlice.Json
