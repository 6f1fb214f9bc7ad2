import StridedSlice.Proofs.Operation
import StridedSlice.Proofs.Tokens
/-!
# StridedSlice.Proofs.Embedding

**A text inside another text.** A JSON text that is complete stands for the same node wherever
a value may stand (`Embeds`). Arrays and objects can be put together from such texts
(`embeds_arrayText`, `embeds_objectText`), and a text that a reader accepts on its own is one of
them (`embeds_of_document`).

The last of these is a frame law of the builder. While it reads a value it looks at no container
around that value (`Builder.step_cases`), so what it does on its own it does under any frames
(`Builder.feed_under`).
-/

namespace StridedSlice.Json

/-! ### The builder under more frames -/

namespace Builder

/-- The builder inside containers. A value that was complete on its own is put in its place. -/
def under (outer : List Frame) : Builder → Builder
  | .value frames => .value (frames ++ outer)
  | .firstItem frames => .firstItem (frames ++ outer)
  | .afterItem items frames => .afterItem items (frames ++ outer)
  | .firstKey frames => .firstKey (frames ++ outer)
  | .key members frames => .key members (frames ++ outer)
  | .colon members name frames => .colon members name (frames ++ outer)
  | .afterMember members frames => .afterMember members (frames ++ outer)
  | .done root _ => place root outer

/-- A builder that has its value. -/
def IsDone (builder : Builder) : Prop := ∃ root trailing, builder = .done root trailing

theorem place_under (v : Node) (frames outer : List Frame) :
    (place v frames).under outer = place v (frames ++ outer) := by
  match frames with
  | [] => rfl
  | .array before :: frames => rfl
  | .object before name :: frames => rfl

/-- A step that goes on in the same way inside containers, or one that stops. -/
inductive StepsUnder (builder : Builder) (t : Token) (next : Builder) : Prop
  | goes : t.isBroken = false → (∀ outer, next.under outer = (builder.under outer).step t) →
      StepsUnder builder t next
  | stops (before : Builder) (b : Break) : ¬ before.IsDone → next = refuse before b →
      StepsUnder builder t next

theorem stepValue_cases (frames : List Frame) (t : Token) :
    StepsUnder (.value frames) t (stepValue frames t) := by
  cases t with
  | null => exact .goes rfl fun outer => place_under _ _ _
  | bool b => exact .goes rfl fun outer => place_under _ _ _
  | number n => exact .goes rfl fun outer => place_under _ _ _
  | text s => exact .goes rfl fun outer => place_under _ _ _
  | openArray => exact .goes rfl fun outer => rfl
  | openObject => exact .goes rfl fun outer => rfl
  | _ => exact .stops (.value frames) _ nofun rfl

theorem stepKey_cases (members : List (Key × Node)) (frames : List Frame) (t : Token) :
    StepsUnder (.key members frames) t (stepKey members frames t) := by
  cases t with
  | text s => exact .goes rfl fun outer => rfl
  | _ => exact .stops (.key members frames) _ nofun rfl

/-- **One step** of a builder that has not got its value does not look at the containers around
that value. -/
theorem step_cases {builder : Builder} (h : ¬ builder.IsDone) (t : Token) :
    StepsUnder builder t (builder.step t) := by
  cases builder with
  | value frames => exact stepValue_cases frames t
  | firstItem frames =>
      cases t with
      | closeArray => exact .goes rfl fun outer => place_under _ _ _
      | _ =>
          rcases stepValue_cases (.array [] :: frames) _ with ⟨ht, hgoes⟩ | ⟨before, b, hb, hstop⟩
          · exact .goes ht hgoes
          · exact .stops before b hb hstop
  | afterItem items frames =>
      cases t with
      | comma => exact .goes rfl fun outer => rfl
      | closeArray => exact .goes rfl fun outer => place_under _ _ _
      | _ => exact .stops (.afterItem items frames) _ nofun rfl
  | firstKey frames =>
      cases t with
      | closeObject => exact .goes rfl fun outer => place_under _ _ _
      | _ =>
          rcases stepKey_cases [] frames _ with ⟨ht, hgoes⟩ | ⟨before, b, hb, hstop⟩
          · exact .goes ht hgoes
          · exact .stops before b hb hstop
  | key members frames => exact stepKey_cases members frames t
  | colon members name frames =>
      cases t with
      | colon => exact .goes rfl fun outer => rfl
      | _ => exact .stops (.colon members name frames) _ nofun rfl
  | afterMember members frames =>
      cases t with
      | comma => exact .goes rfl fun outer => rfl
      | closeObject => exact .goes rfl fun outer => place_under _ _ _
      | _ => exact .stops (.afterMember members frames) _ nofun rfl
  | done root trailing => exact absurd ⟨root, trailing, rfl⟩ h

end Builder

/-! ### Values that break off -/

/-- A node that has no contents, because it breaks off somewhere. -/
def Node.Cut (v : Node) : Prop := ∀ depth c, v.content depth ≠ .ok c

/-- Items that break off. -/
def Items.Cut (items : Items) : Prop := ∀ depth acc cs, items.contents depth acc ≠ .ok cs

/-- Members that break off. -/
def Members.Cut (members : Members) : Prop := ∀ depth acc cs, members.contents depth acc ≠ .ok cs

theorem Node.cut_broken (b : Break) : (Node.broken b).Cut := fun _ _ h => by cases h

theorem Items.cut_broken (b : Break) : (Items.broken b).Cut := fun _ _ _ h => by cases h

theorem Members.cut_broken (b : Break) : (Members.broken b).Cut := fun _ _ _ h => by cases h

theorem Items.cut_ofReversed {ending : Items} (h : ending.Cut) (reversed : List Node) :
    (Items.ofReversed reversed ending).Cut := by
  induction reversed generalizing ending with
  | nil => exact h
  | cons item rest ih =>
      refine ih fun depth acc cs hcs => ?_
      rw [Items.contents] at hcs
      cases hitem : item.content depth with
      | error e => simp [hitem] at hcs
      | ok c =>
          simp only [hitem] at hcs
          exact h depth _ cs hcs

theorem Members.cut_ofReversed {ending : Members} (h : ending.Cut) (reversed : List (Key × Node)) :
    (Members.ofReversed reversed ending).Cut := by
  induction reversed generalizing ending with
  | nil => exact h
  | cons m rest ih =>
      refine ih fun depth acc cs hcs => ?_
      obtain ⟨key, value⟩ := m
      cases key with
      | error e => cases hcs
      | ok name =>
          rw [Members.contents] at hcs
          cases hvalue : value.content depth with
          | error e => simp [hvalue] at hcs
          | ok c =>
              simp only [hvalue] at hcs
              exact h depth _ cs hcs

/-- An array that breaks off. -/
theorem Node.cut_array (b : Break) (reversed : List Node) :
    (Node.array (.ofReversed reversed (.broken b))).Cut := by
  intro depth c hc
  cases depth with
  | zero => cases hc
  | succ depth =>
      obtain ⟨cs, hcs, -⟩ := map_ok.mp hc
      exact Items.cut_ofReversed (Items.cut_broken b) reversed depth [] cs hcs

/-- An object that breaks off. -/
theorem Node.cut_object (b : Break) (reversed : List (Key × Node)) :
    (Node.object (.ofReversed reversed (.broken b))).Cut := by
  intro depth c hc
  cases depth with
  | zero => cases hc
  | succ depth =>
      obtain ⟨ms, hms, -⟩ := map_ok.mp hc
      exact Members.cut_ofReversed (Members.cut_broken b) reversed depth [] ms hms

namespace Builder

theorem cut_wrap (b : Break) {v : Node} (hv : v.Cut) (frames : List Frame) :
    (wrap b v frames).Cut := by
  induction frames generalizing v with
  | nil => exact hv
  | cons frame frames ih =>
      cases frame with
      | array before => exact ih (Node.cut_array b _)
      | object before name => exact ih (Node.cut_object b _)

/-- What a builder has so far, if the text breaks off before it has its value. -/
theorem cut_breakOff {builder : Builder} (h : ¬ builder.IsDone) (b : Break) :
    (builder.breakOff b).Cut := by
  cases builder with
  | value frames => exact cut_wrap b (Node.cut_broken b) frames
  | firstItem frames => exact cut_wrap b (Node.cut_array b []) frames
  | afterItem items frames => exact cut_wrap b (Node.cut_array b items) frames
  | firstKey frames => exact cut_wrap b (Node.cut_object b []) frames
  | key members frames => exact cut_wrap b (Node.cut_object b members) frames
  | colon members name frames => exact cut_wrap b (Node.cut_object b _) frames
  | afterMember members frames => exact cut_wrap b (Node.cut_object b members) frames
  | done root trailing => exact absurd ⟨root, trailing, rfl⟩ h

/-- A builder that ends with a complete value has it. -/
theorem eq_done_of_finish {builder : Builder} {v : Node} {trailing : Bool} (hv : ¬ v.Cut)
    (h : builder.finish = ⟨v, trailing⟩) : builder = .done v trailing := by
  by_cases hdone : builder.IsDone
  · obtain ⟨root, trailing, rfl⟩ := hdone
    cases h
    rfl
  · have hcut := cut_breakOff hdone .truncated
    have hroot : builder.finish.root = builder.breakOff .truncated := by
      cases builder <;> rfl
    rw [← hroot, h] at hcut
    exact absurd hcut hv

/-- Whatever follows a value is trailing. -/
theorem feed_done (root : Node) (trailing : Bool) (ts : List Token) :
    (Builder.done root trailing).feed ts = .done root (trailing || !ts.isEmpty) := by
  induction ts generalizing trailing with
  | nil => simp [feed]
  | cons t rest ih =>
      show (Builder.done root true).feed rest = _
      simp [ih]

/-- **Tokens that build a value** build it inside containers too, and none of them breaks
off. -/
theorem feed_under {builder : Builder} {ts : List Token} {v : Node} (hv : ¬ v.Cut)
    (h : (builder.feed ts).finish = ⟨v, false⟩) :
    (∀ t ∈ ts, t.isBroken = false) ∧
      ∀ outer, (builder.under outer).feed ts = place v outer := by
  induction ts generalizing builder with
  | nil =>
      have hdone : builder = .done v false := eq_done_of_finish hv h
      exact ⟨nofun, fun outer => by rw [hdone]; rfl⟩
  | cons t rest ih =>
      by_cases hdone : builder.IsDone
      · obtain ⟨root, trailing, rfl⟩ := hdone
        rw [feed_done] at h
        simp [finish] at h
      · have h : ((builder.step t).feed rest).finish = ⟨v, false⟩ := h
        rcases step_cases hdone t with ⟨ht, hgoes⟩ | ⟨before, b, hbefore, hstop⟩
        · obtain ⟨hrest, hplace⟩ := ih h
          refine ⟨List.forall_mem_cons.mpr ⟨ht, hrest⟩, fun outer => ?_⟩
          rw [← hplace outer, hgoes outer]
          rfl
        · rw [hstop, refuse, feed_done, finish, Document.mk.injEq] at h
          exact absurd (h.1 ▸ cut_breakOff hbefore b) hv

end Builder

/-! ### Texts -/

/-- A text stands for a node, wherever a value may stand. -/
def Embeds (text : String) (v : Node) : Prop :=
  ∃ ts, Lexes (Text.toBytes text) ts ∧
    ∀ frames, (Builder.value frames).feed ts = Builder.place v frames

theorem Embeds.document {text : String} {v : Node} (h : Embeds text v) :
    Document.ofBytes (Text.toBytes text) = ⟨v, false⟩ := by
  obtain ⟨ts, hlexes, hplace⟩ := h
  rw [Document.ofBytes, hlexes.tokens_eq, hplace]
  rfl

/-- A text that is read as a complete node, with nothing behind it, stands for that node. -/
theorem embeds_of_document {text : String} {v : Node} (hv : ¬ v.Cut)
    (h : Document.ofBytes (Text.toBytes text) = ⟨v, false⟩) : Embeds text v := by
  obtain ⟨hunbroken, hplace⟩ := Builder.feed_under hv h
  exact ⟨_, lexes_tokens hunbroken, hplace⟩

/-- The texts of items, the first after `separator` and the others after a comma. -/
def itemsText (separator : String) : List String → String
  | [] => ""
  | item :: rest => separator ++ item ++ itemsText "," rest

/-- The text of an array, from the texts of its items. -/
def arrayText (items : List String) : String := "[" ++ itemsText "" items ++ "]"

/-- The texts of members, in the manner of `itemsText`. -/
def membersText (separator : String) : List (String × String) → String
  | [] => ""
  | (name, value) :: rest =>
      separator ++ writeString "" name ++ ":" ++ value ++ membersText "," rest

/-- The text of an object, from the names and the texts of its members. -/
def objectText (members : List (String × String)) : String :=
  "\x7b" ++ membersText "" members ++ "\x7d"

/-- Items with their closing bracket. -/
def Items.ofList : List Node → Items
  | [] => .closed
  | v :: rest => .cons v (Items.ofList rest)

/-- Members with their closing brace. -/
def Members.ofList : List (Key × Node) → Members
  | [] => .closed
  | (key, v) :: rest => .cons key v (Members.ofList rest)

/-- A byte of punctuation is one token. -/
theorem closes_punctuation :
    Closes [0x2c] [.comma] ∧ Closes [0x3a] [.colon] ∧ Closes [0x5b] [.openArray] ∧
      Closes [0x7b] [.openObject] :=
  ⟨rfl, rfl, rfl, rfl⟩

theorem toBytes_punctuation :
    Text.toBytes "," = [0x2c] ∧ Text.toBytes ":" = [0x3a] ∧ Text.toBytes "[" = [0x5b] ∧
      Text.toBytes "]" = [0x5d] ∧ Text.toBytes "\x7b" = [0x7b] ∧ Text.toBytes "\x7d" = [0x7d] := by
  simp only [Text.toBytes_eq]
  exact ⟨rfl, rfl, rfl, rfl, rfl, rfl⟩

/-- Bytes that close with these tokens, and in front of which every number ends. -/
structure ClosesAfter (bytes : List UInt8) (ts : List Token) : Prop where
  closes : Closes bytes ts
  head : ∃ b rest, bytes = b :: rest ∧ EndsNumeral b

theorem ClosesAfter.prepend {a bytes : List UInt8} {ts us : List Token} (ha : Lexes a us)
    (h : ClosesAfter bytes ts) : Closes (a ++ bytes) (us ++ ts) := by
  obtain ⟨b, rest, rfl, hb⟩ := h.head
  exact ha.append_closes hb h.closes

/-- An item that begins an array is read as any other. -/
theorem feed_firstItem {ts : List Token} {v : Node}
    (h : ∀ frames, (Builder.value frames).feed ts = Builder.place v frames)
    (frames : List Frame) :
    (Builder.firstItem frames).feed ts = Builder.place v (.array [] :: frames) := by
  cases ts with
  | nil => cases h [.array []]
  | cons t rest =>
      cases t with
      | closeArray =>
          have hrefused := h [.array []]
          rw [show (Builder.value [.array []]).feed (.closeArray :: rest) =
            (Builder.refuse (.value [.array []]) .malformed).feed rest from rfl, Builder.refuse,
            Builder.feed_done] at hrefused
          cases hrefused
      | _ => exact h (.array [] :: frames)

/-- What follows an item, up to the end of its array. -/
theorem exists_itemsTail {items : List String} {vs : List Node} (h : List.Forall₂ Embeds items vs) :
    ∃ ts, ClosesAfter (Text.toBytes (itemsText "," items ++ "]")) ts ∧
      ∀ before frames, (Builder.afterItem before frames).feed ts =
        Builder.place (.array (.ofReversed before (Items.ofList vs))) frames := by
  induction h with
  | nil =>
      refine ⟨[.closeArray], ?_, fun before frames => rfl⟩
      rw [itemsText, String.empty_append, toBytes_punctuation.2.2.2.1]
      exact ⟨rfl, _, _, rfl, .inr (.inl rfl)⟩
  | cons hitem _ ih =>
      obtain ⟨us, hlexes, hplace⟩ := hitem
      obtain ⟨ts, htail, hfeed⟩ := ih
      refine ⟨.comma :: (us ++ ts), ?_, fun before frames => ?_⟩
      · rw [itemsText, String.append_assoc, Text.toBytes_append, Text.toBytes_append,
          toBytes_punctuation.1, List.append_assoc]
        exact ⟨closes_punctuation.1.append (htail.prepend hlexes), _, _, rfl, .inl rfl⟩
      · show (Builder.value (.array before :: frames)).feed (us ++ ts) = _
        rw [Builder.feed_append, hplace]
        exact hfeed (_ :: before) frames

/-- **An array** put together from texts. -/
theorem embeds_arrayText {items : List String} {vs : List Node} (h : List.Forall₂ Embeds items vs) :
    Embeds (arrayText items) (.array (Items.ofList vs)) := by
  cases h with
  | nil =>
      refine ⟨[.openArray, .closeArray], Closes.lexes ?_, fun frames => rfl⟩
      unfold Closes
      rw [arrayText, itemsText, Text.toBytes_eq]
      rfl
  | cons hitem hrest =>
      obtain ⟨us, hlexes, hplace⟩ := hitem
      obtain ⟨ts, htail, hfeed⟩ := exists_itemsTail hrest
      refine ⟨.openArray :: (us ++ ts), Closes.lexes ?_, fun frames => ?_⟩
      · rw [arrayText, itemsText, String.empty_append, String.append_assoc, String.append_assoc,
          Text.toBytes_append, Text.toBytes_append, toBytes_punctuation.2.2.1]
        exact closes_punctuation.2.2.1.append (htail.prepend hlexes)
      · show (Builder.firstItem frames).feed (us ++ ts) = _
        rw [Builder.feed_append, feed_firstItem hplace]
        exact hfeed [_] frames

/-- A member stands for a key with a node. -/
def EmbedsMember (m : String × String) (n : Key × Node) : Prop :=
  n.1 = .ok m.1 ∧ Embeds m.2 n.2

/-- A name, a colon and a value. -/
theorem closes_member {name value : String} {us ts : List Token} {bytes : List UInt8}
    (hvalue : Lexes (Text.toBytes value) us) (htail : ClosesAfter bytes ts) :
    Closes (Text.toBytes (writeString "" name) ++ (Text.toBytes ":" ++
      (Text.toBytes value ++ bytes))) (.text (.ok name) :: .colon :: (us ++ ts)) := by
  rw [toBytes_punctuation.2.1]
  exact (closes_writeString name).append
    (closes_punctuation.2.1.append (htail.prepend hvalue))

/-- What follows a member, up to the end of its object. -/
theorem exists_membersTail {members : List (String × String)} {vs : List (Key × Node)}
    (h : List.Forall₂ EmbedsMember members vs) :
    ∃ ts, ClosesAfter (Text.toBytes (membersText "," members ++ "\x7d")) ts ∧
      ∀ before frames, (Builder.afterMember before frames).feed ts =
        Builder.place (.object (.ofReversed before (Members.ofList vs))) frames := by
  induction h with
  | nil =>
      refine ⟨[.closeObject], ?_, fun before frames => rfl⟩
      rw [membersText, String.empty_append, toBytes_punctuation.2.2.2.2.2]
      exact ⟨rfl, _, _, rfl, .inr (.inr rfl)⟩
  | @cons m n _ _ hmember _ ih =>
      obtain ⟨name, value⟩ := m
      obtain ⟨key, v⟩ := n
      obtain ⟨rfl, us, hlexes, hplace⟩ := hmember
      obtain ⟨ts, htail, hfeed⟩ := ih
      refine ⟨.comma :: .text (.ok name) :: .colon :: (us ++ ts), ?_, fun before frames => ?_⟩
      · simp only [membersText, String.append_assoc, Text.toBytes_append] at htail ⊢
        rw [toBytes_punctuation.1]
        exact ⟨closes_punctuation.1.append (closes_member hlexes htail), _, _, rfl, .inl rfl⟩
      · show (Builder.value (.object before (.ok name) :: frames)).feed (us ++ ts) = _
        rw [Builder.feed_append, hplace]
        exact hfeed ((.ok name, v) :: before) frames

/-- **An object** put together from texts. -/
theorem embeds_objectText {members : List (String × String)} {vs : List (Key × Node)}
    (h : List.Forall₂ EmbedsMember members vs) :
    Embeds (objectText members) (.object (Members.ofList vs)) := by
  cases h with
  | nil =>
      refine ⟨[.openObject, .closeObject], Closes.lexes ?_, fun frames => rfl⟩
      unfold Closes
      rw [objectText, membersText, Text.toBytes_eq]
      rfl
  | @cons m n _ _ hmember hrest =>
      obtain ⟨name, value⟩ := m
      obtain ⟨key, v⟩ := n
      obtain ⟨rfl, us, hlexes, hplace⟩ := hmember
      obtain ⟨ts, htail, hfeed⟩ := exists_membersTail hrest
      refine ⟨.openObject :: .text (.ok name) :: .colon :: (us ++ ts), Closes.lexes ?_,
        fun frames => ?_⟩
      · simp only [objectText, membersText, String.append_assoc, String.empty_append,
          Text.toBytes_append] at htail ⊢
        rw [toBytes_punctuation.2.2.2.2.1]
        exact closes_punctuation.2.2.2.append (closes_member hlexes htail)
      · show (Builder.value (.object [] (.ok name) :: frames)).feed (us ++ ts) = _
        rw [Builder.feed_append, hplace]
        exact hfeed [(.ok name, v)] frames

/-! ### Contents -/

/-- A text has contents, nested at most `depth` levels deep, wherever it may stand. -/
def Holds (depth : Nat) (text : String) (c : Content) : Prop :=
  ∃ v, Embeds text v ∧ v.content depth = .ok c

/-- A text holds what is decoded from it. -/
theorem decodeContent_eq_ok_iff {text : String} {c : Content} :
    decodeContent (Text.toBytes text) = .ok c ↔ Holds maxDepth text c := by
  simp only [decodeContent, decode, bind_eq_ok, Node.whole, orFault_eq_ok]
  constructor
  · rintro ⟨c', hc', hend⟩
    have hcut : ¬ (Document.ofBytes (Text.toBytes text)).root.Cut := fun hcut => hcut _ _ hc'
    cases htrailing : (Document.ofBytes (Text.toBytes text)).trailing with
    | true => simp [htrailing] at hend
    | false =>
        rw [htrailing] at hend
        cases hend
        refine ⟨_, embeds_of_document hcut ?_, hc'⟩
        rw [← htrailing]
  · rintro ⟨v, hv, hc⟩
    rw [hv.document]
    exact ⟨c, hc, rfl⟩

/-- A decoder that reads contents reads those that the text holds. -/
theorem decode_eq_ok_iff {α : Type} {read : Node → Decoded α} {get : Content → Decoded α}
    (h : Reads maxDepth read get) {text : String} {a : α} :
    decode read (Text.toBytes text) = .ok a ↔ ∃ c, Holds maxDepth text c ∧ get c = .ok a := by
  simp only [decode_eq_ok h, decodeContent_eq_ok_iff]

theorem Items.contents_ofList {depth : Nat} {vs : List Node} {cs : List Content}
    (h : List.Forall₂ (fun v c => v.content depth = .ok c) vs cs) :
    (Items.ofList vs).contents depth [] = .ok cs := by
  induction h with
  | nil => rfl
  | cons hv _ ih => exact Items.contents_cons.mpr ⟨_, hv, _, ih, rfl⟩

theorem Members.contents_ofList {depth : Nat} {vs : List (Key × Node)}
    {ms : List (String × Content)}
    (h : List.Forall₂ (fun v m => v.1 = .ok m.1 ∧ v.2.content depth = .ok m.2) vs ms) :
    (Members.ofList vs).contents depth [] = .ok ms := by
  induction h with
  | nil => rfl
  | cons hv _ ih => exact Members.contents_cons.mpr ⟨_, _, hv.1, hv.2, _, ih, rfl⟩

theorem holds_arrayText {depth : Nat} {items : List String} {cs : List Content}
    (h : List.Forall₂ (Holds depth) items cs) :
    Holds (depth + 1) (arrayText items) (.array cs) := by
  have hnodes : ∃ vs, List.Forall₂ Embeds items vs ∧
      List.Forall₂ (fun v c => v.content depth = .ok c) vs cs := by
    induction h with
    | nil => exact ⟨[], .nil, .nil⟩
    | cons hitem _ ih =>
        obtain ⟨v, hv, hc⟩ := hitem
        obtain ⟨vs, hvs, hcs⟩ := ih
        exact ⟨v :: vs, .cons hv hvs, .cons hc hcs⟩
  obtain ⟨vs, hvs, hcs⟩ := hnodes
  exact ⟨_, embeds_arrayText hvs, content_eq_array.mpr ⟨_, rfl, Items.contents_ofList hcs⟩⟩

/-- A member holds contents under its name. -/
def HoldsMember (depth : Nat) (m : String × String) (n : String × Content) : Prop :=
  n.1 = m.1 ∧ Holds depth m.2 n.2

theorem holds_objectText {depth : Nat} {members : List (String × String)}
    {ms : List (String × Content)} (h : List.Forall₂ (HoldsMember depth) members ms) :
    Holds (depth + 1) (objectText members) (.object ms) := by
  have hnodes : ∃ vs, List.Forall₂ EmbedsMember members vs ∧
      List.Forall₂ (fun v m => v.1 = .ok m.1 ∧ v.2.content depth = .ok m.2) vs ms := by
    induction h with
    | nil => exact ⟨[], .nil, .nil⟩
    | @cons m n _ _ hmember _ ih =>
        obtain ⟨hname, v, hv, hc⟩ := hmember
        obtain ⟨vs, hvs, hcs⟩ := ih
        exact ⟨(.ok m.1, v) :: vs, .cons ⟨rfl, hv⟩ hvs,
          .cons ⟨congrArg Except.ok hname.symm, hc⟩ hcs⟩
  obtain ⟨vs, hvs, hms⟩ := hnodes
  exact ⟨_, embeds_objectText hvs, content_eq_object.mpr ⟨_, rfl, Members.contents_ofList hms⟩⟩

/-! ### Scalars -/

theorem content_scalar {v : Node} {d : Nat} {s : Scalar} (h : v.content d = .ok (.scalar s))
    (d' : Nat) : v.content d' = .ok (.scalar s) := by
  obtain ⟨c, hc, hfound⟩ := content_of_found d' (found_of_content h) nofun nofun
  cases c <;> cases hfound
  exact hc

theorem contents_scalars {items : Items} {d : Nat} {vs : List Scalar}
    (h : items.contents d [] = .ok (vs.map .scalar)) (d' : Nat) :
    items.contents d' [] = .ok (vs.map .scalar) := by
  induction vs generalizing items with
  | nil =>
      cases items with
      | closed => rfl
      | broken b => cases h
      | cons item rest =>
          obtain ⟨_, _, _, _, heq⟩ := Items.contents_cons.mp h
          cases heq
  | cons s vs ih =>
      cases items with
      | closed => cases h
      | broken b => cases h
      | cons item rest =>
          obtain ⟨_, hitem, _, hrest, heq⟩ := Items.contents_cons.mp h
          cases heq
          exact Items.contents_cons.mpr ⟨_, content_scalar hitem d', _, ih hrest, rfl⟩

/-- How many levels there may be does not matter to what a slice is given, if there is one. -/
theorem Holds.sourceContent {text : String} {source : Source Scalar} {d : Nat}
    (h : Holds (d + 1) text (sourceContent source)) (d' : Nat) :
    Holds (d' + 1) text (sourceContent source) := by
  obtain ⟨v, hv, hcontent⟩ := h
  refine ⟨v, hv, ?_⟩
  cases source with
  | scalar s => exact content_scalar hcontent _
  | sequence vs =>
      obtain ⟨items, rfl, hitems⟩ := content_eq_array.mp hcontent
      exact content_eq_array.mpr ⟨items, rfl, contents_scalars hitems d'⟩

end StridedSlice.Json
