import StridedSlice.Script.Decode
/-!
# StridedSlice.Proofs.Contents

Decoders walk through a text and refuse what is wrong as soon as they meet it. Which texts
they accept can be told in two steps that have nothing to do with that order: a text has
**contents**, if it is complete and well-formed, and the contents are those of a script or
they are not.

* `Reads depth read get`: reading a node is having contents and reading these;
* one lemma for each reader of the parts of a script, up to `reads_script`;
* `decodeScript_eq_ok`: the same for whole texts.

What is refused may be refused for different reasons by the two, so the lemmas are about
what is accepted and what it is read as.
-/

namespace StridedSlice.Json

variable {α β σ : Type}

/-! ### Results of decoders -/

theorem bind_eq_ok {x : Decoded α} {f : α → Decoded β} {b : β} :
    x.bind f = .ok b ↔ ∃ a, x = .ok a ∧ f a = .ok b := by
  cases x <;> simp [Except.bind]

theorem do_eq_ok {x : Decoded α} {f : α → Decoded β} {b : β} :
    (x >>= f) = .ok b ↔ ∃ a, x = .ok a ∧ f a = .ok b := bind_eq_ok

theorem map_ok {ε : Type} {x : Except ε α} {f : α → β} {b : β} :
    x.map f = .ok b ↔ ∃ a, x = .ok a ∧ f a = b := by
  cases x <;> simp [Except.map]

theorem pure_eq_ok {a b : α} : (pure a : Decoded α) = .ok b ↔ a = b :=
  Iff.of_eq (Except.ok.injEq a b)

theorem orFault_eq_ok {r : Except Fault α} {a : α} : orFault r = .ok a ↔ r = .ok a := by
  cases r with
  | error e => exact iff_of_false nofun nofun
  | ok b =>
      show (.ok b : Decoded α) = .ok a ↔ _
      simp

theorem refuse_ne_ok (m : Mismatch) (a : α) : refuse m ≠ .ok a := nofun

theorem once_eq_ok {name : String} {before : Option α} {read : Decoded α} {r : Option α} :
    once name before read = .ok r ↔ before = none ∧ ∃ a, read = .ok a ∧ some a = r := by
  cases before with
  | none => simp [once, map_ok]
  | some v => simp [once, refuse_ne_ok]

theorem required_eq_ok {name : String} {o : Option α} {a : α} :
    required name o = .ok a ↔ o = some a := by
  cases o <;> simp [required, refuse_ne_ok]

/-! ### Contents and what is found -/

theorem found_of_content {v : Node} {depth : Nat} {c : Content} (h : v.content depth = .ok c) :
    v.found = .ok c.found := by
  cases v with
  | null => cases h; rfl
  | bool b => cases h; rfl
  | number n =>
      simp only [Node.content, Node.found] at h ⊢
      cases hn : n.scalar? <;> rw [hn] at h <;> cases h
      rfl
  | text s =>
      cases s <;> cases h
      rfl
  | array items =>
      cases depth with
      | zero => cases h
      | succ depth =>
          obtain ⟨_, _, rfl⟩ := map_ok.mp h
          rfl
  | object members =>
      cases depth with
      | zero => cases h
      | succ depth =>
          obtain ⟨_, _, rfl⟩ := map_ok.mp h
          rfl
  | broken b => cases h

/-- What is no container has contents if it is found to be anything. -/
theorem content_of_found {v : Node} {f : Found} (depth : Nat) (h : v.found = .ok f)
    (harray : f ≠ .array) (hobject : f ≠ .object) :
    ∃ c, v.content depth = .ok c ∧ c.found = f := by
  cases v with
  | null => cases h; exact ⟨.null, rfl, rfl⟩
  | bool b => cases h; exact ⟨.scalar (.bool b), rfl, rfl⟩
  | number n =>
      simp only [Node.content, Node.found] at h ⊢
      cases hn : n.scalar? with
      | none => rw [hn] at h; cases h
      | some s => rw [hn] at h; cases h; exact ⟨.scalar s, rfl, rfl⟩
  | text s =>
      cases s <;> cases h
      exact ⟨_, rfl, rfl⟩
  | array items => cases h; exact absurd rfl harray
  | object members => cases h; exact absurd rfl hobject
  | broken b => cases h

theorem eq_array_of_found {v : Node} (h : v.found = .ok .array) : ∃ items, v = .array items := by
  cases v with
  | array items => exact ⟨items, rfl⟩
  | number n => simp only [Node.found] at h; cases hn : n.scalar? <;> rw [hn] at h <;> cases h
  | text s => cases s <;> cases h
  | _ => cases h

theorem content_eq_array {v : Node} {depth : Nat} {cs : List Content} :
    v.content (depth + 1) = .ok (.array cs) ↔
      ∃ items, v = .array items ∧ items.contents depth [] = .ok cs := by
  constructor
  · intro h
    obtain ⟨items, rfl⟩ := eq_array_of_found (found_of_content h)
    obtain ⟨_, hcs, heq⟩ := map_ok.mp h
    cases heq
    exact ⟨items, rfl, hcs⟩
  · intro hget
    obtain ⟨items, rfl, h⟩ := hget
    exact map_ok.mpr ⟨cs, h, rfl⟩

theorem eq_object_of_found {v : Node} (h : v.found = .ok .object) :
    ∃ members, v = .object members := by
  cases v with
  | object members => exact ⟨members, rfl⟩
  | number n => simp only [Node.found] at h; cases hn : n.scalar? <;> rw [hn] at h <;> cases h
  | text s => cases s <;> cases h
  | _ => cases h

theorem content_eq_object {v : Node} {depth : Nat} {ms : List (String × Content)} :
    v.content (depth + 1) = .ok (.object ms) ↔
      ∃ members, v = .object members ∧ members.contents depth [] = .ok ms := by
  constructor
  · intro h
    obtain ⟨members, rfl⟩ := eq_object_of_found (found_of_content h)
    obtain ⟨_, hms, heq⟩ := map_ok.mp h
    cases heq
    exact ⟨members, rfl, hms⟩
  · intro hget
    obtain ⟨members, rfl, h⟩ := hget
    exact map_ok.mpr ⟨ms, h, rfl⟩

theorem Items.contents_acc (depth : Nat) :
    ∀ (items : Items) (acc : List Content),
      items.contents depth acc = (items.contents depth []).map (acc.reverse ++ ·)
  | .closed, acc => by simp [Items.contents, Except.map]
  | .broken b, acc => rfl
  | .cons item rest, acc => by
      simp only [Items.contents]
      cases item.content depth with
      | error e => rfl
      | ok c =>
          dsimp only
          rw [contents_acc depth rest (c :: acc), contents_acc depth rest [c]]
          cases rest.contents depth [] <;> simp [Except.map]

theorem Items.contents_cons {depth : Nat} {item : Node} {rest : Items} {cs : List Content} :
    (Items.cons item rest).contents depth [] = .ok cs ↔
      ∃ c, item.content depth = .ok c ∧
        ∃ others, rest.contents depth [] = .ok others ∧ c :: others = cs := by
  simp only [Items.contents]
  cases item.content depth with
  | error e => simp
  | ok c =>
      dsimp only
      rw [Items.contents_acc, map_ok]
      simp

theorem Members.contents_acc (depth : Nat) :
    ∀ (members : Members) (acc : List (String × Content)),
      members.contents depth acc = (members.contents depth []).map (acc.reverse ++ ·)
  | .closed, acc => by simp [Members.contents, Except.map]
  | .broken b, acc => rfl
  | .cons (.error e) value rest, acc => rfl
  | .cons (.ok name) value rest, acc => by
      simp only [Members.contents]
      cases value.content depth with
      | error e => rfl
      | ok c =>
          dsimp only
          rw [contents_acc depth rest ((name, c) :: acc), contents_acc depth rest [(name, c)]]
          cases rest.contents depth [] <;> simp [Except.map]

theorem Members.contents_cons {depth : Nat} {key : Key} {value : Node} {rest : Members}
    {ms : List (String × Content)} :
    (Members.cons key value rest).contents depth [] = .ok ms ↔
      ∃ name c, key = .ok name ∧ value.content depth = .ok c ∧
        ∃ others, rest.contents depth [] = .ok others ∧ (name, c) :: others = ms := by
  simp only [Members.contents]
  cases key with
  | error e => simp
  | ok name =>
      cases value.content depth with
      | error e => simp
      | ok c =>
          dsimp only
          rw [Members.contents_acc, map_ok]
          simp

/-! ### Reading by contents -/

/-- Reading a node is the same as having contents, nested at most `depth` levels deep, and
reading these. -/
def Reads (depth : Nat) (read : Node → Decoded α) (get : Content → Decoded α) : Prop :=
  ∀ v a, read v = .ok a ↔ ∃ c, v.content depth = .ok c ∧ get c = .ok a

/-- A reader that looks only at what it finds does not have to look into a container, if it
refuses both kinds of these. -/
theorem reads_interpret (depth : Nat) {read : Found → Decoded α}
    (harray : ∀ a, read .array ≠ .ok a) (hobject : ∀ a, read .object ≠ .ok a) :
    Reads depth (Node.interpret read) (fun c => read c.found) := by
  intro v a
  simp only [Node.interpret, bind_eq_ok, orFault_eq_ok]
  constructor
  · intro hread
    obtain ⟨f, hf, ha⟩ := hread
    obtain ⟨c, hc, rfl⟩ := content_of_found depth hf
      (fun h => harray a (h ▸ ha)) (fun h => hobject a (h ▸ ha))
    exact ⟨c, hc, ha⟩
  · intro hget
    obtain ⟨c, hc, ha⟩ := hget
    exact ⟨c.found, found_of_content hc, ha⟩

theorem reads_whole (depth : Nat) : Reads depth (·.whole depth) .ok := by
  intro v c
  simp [Node.whole, orFault_eq_ok]

theorem reads_bind {depth : Nat} {read : Node → Decoded α} {get : Content → Decoded α}
    (h : Reads depth read get) (next : α → Decoded β) :
    Reads depth (fun v => (read v).bind next) (fun c => (get c).bind next) := by
  intro v b
  simp only [bind_eq_ok, h v]
  constructor
  · intro hread
    obtain ⟨a, ⟨c, hc, ha⟩, hb⟩ := hread
    exact ⟨c, hc, a, ha, hb⟩
  · intro hget
    obtain ⟨c, hc, a, ha, hb⟩ := hget
    exact ⟨a, ⟨c, hc, ha⟩, hb⟩

theorem reads_map {depth : Nat} {read : Node → Decoded α} {get : Content → Decoded α}
    (h : Reads depth read get) (f : α → β) :
    Reads depth (fun v => (read v).map f) (fun c => (get c).map f) := by
  intro v b
  simp only [map_ok, h v]
  constructor
  · intro hread
    obtain ⟨a, ⟨c, hc, ha⟩, hb⟩ := hread
    exact ⟨c, hc, a, ha, hb⟩
  · intro hget
    obtain ⟨c, hc, a, ha, hb⟩ := hget
    exact ⟨a, ⟨c, hc, ha⟩, hb⟩

theorem reads_once {depth : Nat} {read : Node → Decoded α} {get : Content → Decoded α}
    (h : Reads depth read get) (name : String) (before : Option α) :
    Reads depth (fun v => once name before (read v)) (fun c => once name before (get c)) := by
  intro v r
  simp only [once_eq_ok, h v]
  constructor
  · intro hread
    obtain ⟨hb, a, ⟨c, hc, ha⟩, hr⟩ := hread
    exact ⟨c, hc, hb, a, ha, hr⟩
  · intro hget
    obtain ⟨c, hc, hb, a, ha, hr⟩ := hget
    exact ⟨hb, a, ⟨c, hc, ha⟩, hr⟩

/-- A reader of containers has to be right about the two kinds of these. -/
theorem reads_containers {depth : Nat} {read : Node → Decoded α} {get : Content → Decoded α}
    (hread : ∀ v a, read v = .ok a → (∃ items, v = .array items) ∨ ∃ members, v = .object members)
    (hget : ∀ c a, get c = .ok a → (∃ cs, c = .array cs) ∨ ∃ ms, c = .object ms)
    (harray : ∀ items a, read (.array items) = .ok a ↔
      ∃ cs, items.contents depth [] = .ok cs ∧ get (.array cs) = .ok a)
    (hobject : ∀ members a, read (.object members) = .ok a ↔
      ∃ ms, members.contents depth [] = .ok ms ∧ get (.object ms) = .ok a) :
    Reads (depth + 1) read get := by
  intro v a
  constructor
  · intro h
    obtain ⟨items, rfl⟩ | ⟨members, rfl⟩ := hread v a h
    · obtain ⟨cs, hcs, ha⟩ := (harray items a).mp h
      exact ⟨.array cs, content_eq_array.mpr ⟨items, rfl, hcs⟩, ha⟩
    · obtain ⟨ms, hms, ha⟩ := (hobject members a).mp h
      exact ⟨.object ms, content_eq_object.mpr ⟨members, rfl, hms⟩, ha⟩
  · intro hget
    obtain ⟨c, hc, ha⟩ := hget
    obtain ⟨cs, rfl⟩ | ⟨ms, rfl⟩ := hget c a ha
    · obtain ⟨items, rfl, hcs⟩ := content_eq_array.mp hc
      exact (harray items a).mpr ⟨cs, hcs, ha⟩
    · obtain ⟨members, rfl, hms⟩ := content_eq_object.mp hc
      exact (hobject members a).mpr ⟨ms, hms, ha⟩

theorem interpret_refuse_ne_ok (v : Node) (mismatch : Found → Mismatch) (a : α) :
    v.interpret (fun f => refuse (mismatch f)) ≠ .ok a := by
  intro h
  obtain ⟨_, _, h⟩ := bind_eq_ok.mp h
  cases h

/-! ### Sequences -/

/-- Reads the contents of an array, item by item. -/
def Content.elements (get : Content → Decoded α) : Content → Decoded (Array α)
  | .array items => (items.mapM get).map List.toArray
  | c => refuse (.wrongKind c.found "a sequence")

theorem Content.elements_eq_ok {get : Content → Decoded α} {c : Content} {a : Array α} :
    c.elements get = .ok a ↔ ∃ items, c = .array items ∧ items.mapM get = .ok a.toList := by
  cases c with
  | array items =>
      simp only [Content.elements, map_ok, Content.array.injEq, exists_eq_left']
      constructor
      · intro hread
        obtain ⟨vs, hvs, rfl⟩ := hread
        exact hvs
      · intro h
        exact ⟨a.toList, h, by simp⟩
  | _ => simp [Content.elements, refuse_ne_ok]

theorem Items.each_eq_ok {depth : Nat} {read : Node → Decoded α} {get : Content → Decoded α}
    (h : Reads depth read get) :
    ∀ {items : Items} {acc r : Array α}, items.each read acc = .ok r ↔
      ∃ cs, items.contents depth [] = .ok cs ∧ ∃ vs, cs.mapM get = .ok vs ∧ acc ++ vs.toArray = r
  | .closed, acc, r => by simp [Items.each, Items.contents, pure, Except.pure]
  | .broken b, acc, r => by simp [Items.each, Items.contents]
  | .cons item rest, acc, r => by
      -- The item is read before the rest is looked at, but contents are only there together.
      have hcons : (Items.cons item rest).each read acc =
          (read item).bind fun v => rest.each read (acc.push v) := by
        simp only [Items.each]
        cases read item <;> rfl
      rw [hcons]
      simp only [bind_eq_ok, h item, Items.contents_cons, each_eq_ok h]
      constructor
      · intro hread
        obtain ⟨v, ⟨c, hc, hv⟩, cs, hcs, vs, hvs, rfl⟩ := hread
        refine ⟨c :: cs, ⟨c, hc, cs, hcs, rfl⟩, v :: vs, ?_, by simp⟩
        simp [hv, hvs, bind, Except.bind, pure, Except.pure]
      · intro hget
        obtain ⟨_, ⟨c, hc, cs, hcs, rfl⟩, vs, hvs, rfl⟩ := hget
        simp only [List.mapM_cons, do_eq_ok, pure_eq_ok] at hvs
        obtain ⟨v, hv, vs, hvs, rfl⟩ := hvs
        exact ⟨v, ⟨c, hc, hv⟩, cs, hcs, vs, hvs, by simp⟩

theorem Node.elements_eq_ok {read : Node → Decoded α} {v : Node} {a : Array α} :
    v.elements read = .ok a ↔ ∃ items, v = .array items ∧ items.each read #[] = .ok a := by
  cases v with
  | array items => simp [Node.elements]
  | _ => simp [Node.elements, Node.interpret, bind_eq_ok, refuse_ne_ok]

theorem reads_elements {depth : Nat} {read : Node → Decoded α} {get : Content → Decoded α}
    (h : Reads depth read get) :
    Reads (depth + 1) (Node.elements read) (Content.elements get) := by
  intro v a
  rw [Node.elements_eq_ok]
  constructor
  · intro hread
    obtain ⟨items, rfl, hr⟩ := hread
    obtain ⟨cs, hcs, vs, hvs, rfl⟩ := (Items.each_eq_ok h).mp hr
    exact ⟨.array cs, content_eq_array.mpr ⟨items, rfl, hcs⟩,
      Content.elements_eq_ok.mpr ⟨cs, rfl, by simpa using hvs⟩⟩
  · intro hget
    obtain ⟨c, hc, ha⟩ := hget
    obtain ⟨cs, rfl, hvs⟩ := Content.elements_eq_ok.mp ha
    obtain ⟨items, rfl, hcs⟩ := content_eq_array.mp hc
    exact ⟨items, rfl, (Items.each_eq_ok h).mpr ⟨cs, hcs, a.toList, hvs, by simp⟩⟩

/-- Reads the next of the contents of an array, if there is one. -/
def nextContent (get : Content → Decoded α) :
    List Content → Decoded (Option α × List Content)
  | [] => .ok (none, [])
  | c :: rest => (get c).map fun v => (some v, rest)

/-- Checks that no contents are left. -/
def noContent : List Content → Decoded Unit
  | [] => .ok ()
  | _ :: _ => .error (.fault .malformed)

/-- If going on with the items that are left is having contents and going on with these,
then so is reading an item first. -/
theorem Items.next_eq_ok {depth : Nat} {read : Node → Decoded α} {get : Content → Decoded α}
    (h : Reads depth read get) {onItems : Option α × Items → Decoded β}
    {onContents : Option α × List Content → Decoded β}
    (hon : ∀ o items b, onItems (o, items) = .ok b ↔
      ∃ cs, items.contents depth [] = .ok cs ∧ onContents (o, cs) = .ok b)
    {items : Items} {b : β} :
    (items.next read >>= onItems) = .ok b ↔
      ∃ cs, items.contents depth [] = .ok cs ∧ (nextContent get cs >>= onContents) = .ok b := by
  cases items with
  | closed =>
      have h' := hon none .closed b
      simpa [Items.next, nextContent, Items.contents, bind, Except.bind] using h'
  | broken e => simp [Items.next, Items.contents, bind, Except.bind]
  | cons item rest =>
      simp only [Items.next, do_eq_ok, map_ok, h item, Items.contents_cons]
      constructor
      · intro hread
        obtain ⟨_, ⟨v, ⟨c, hc, hv⟩, rfl⟩, hb⟩ := hread
        obtain ⟨cs, hcs, hb⟩ := (hon _ _ _).mp hb
        exact ⟨c :: cs, ⟨c, hc, cs, hcs, rfl⟩, (some v, cs), map_ok.mpr ⟨v, hv, rfl⟩, hb⟩
      · intro hget
        obtain ⟨_, ⟨c, hc, cs, hcs, rfl⟩, _, hn, hb⟩ := hget
        obtain ⟨v, hv, rfl⟩ := map_ok.mp hn
        exact ⟨(some v, rest), ⟨v, ⟨c, hc, hv⟩, rfl⟩, (hon _ _ _).mpr ⟨cs, hcs, hb⟩⟩

/-- What does not look at items may come before going on with them. -/
theorem Items.bind_eq_ok {depth : Nat} {items : Items} {x : Decoded α} {onItems : α → Decoded β}
    {onContents : List Content → α → Decoded β} {b : β}
    (hon : ∀ a, onItems a = .ok b ↔
      ∃ cs, items.contents depth [] = .ok cs ∧ onContents cs a = .ok b) :
    (x >>= onItems) = .ok b ↔
      ∃ cs, items.contents depth [] = .ok cs ∧ (x >>= onContents cs) = .ok b := by
  simp only [do_eq_ok, hon]
  constructor
  · intro hread
    obtain ⟨a, ha, cs, hcs, hb⟩ := hread
    exact ⟨cs, hcs, a, ha, hb⟩
  · intro hget
    obtain ⟨cs, hcs, a, ha, hb⟩ := hget
    exact ⟨a, ha, cs, hcs, hb⟩

theorem Items.finish_eq_ok (depth : Nat) {items : Items} {u : Unit} :
    items.finish = .ok u ↔ ∃ cs, items.contents depth [] = .ok cs ∧ noContent cs = .ok u := by
  cases items with
  | closed => simp [Items.finish, Items.contents, noContent]
  | broken b => simp [Items.finish, Items.contents]
  | cons item rest =>
      simp only [Items.finish, Items.contents_cons, reduceCtorEq, false_iff]
      rintro ⟨_, ⟨c, _, cs, _, rfl⟩, h⟩
      cases h

/-! ### Members -/

theorem Members.foldDecoded_eq_ok {depth : Nat} {read : σ → String → Node → Decoded σ}
    {get : σ → String × Content → Decoded σ}
    (h : ∀ s name, Reads depth (read s name) (fun c => get s (name, c))) :
    ∀ {members : Members} {s r : σ}, members.foldDecoded read s = .ok r ↔
      ∃ ms, members.contents depth [] = .ok ms ∧ ms.foldlM get s = .ok r
  | .closed, s, r => by simp [Members.foldDecoded, Members.contents, pure, Except.pure]
  | .broken b, s, r => by simp [Members.foldDecoded, Members.contents]
  | .cons (.error e) value rest, s, r => by simp [Members.foldDecoded, Members.contents]
  | .cons (.ok name) value rest, s, r => by
      have hcons : (Members.cons (.ok name) value rest).foldDecoded read s =
          (read s name value).bind fun s => rest.foldDecoded read s := by
        simp only [Members.foldDecoded]
        cases read s name value <;> rfl
      rw [hcons]
      simp only [bind_eq_ok, h s name value, Members.contents_cons, foldDecoded_eq_ok h]
      constructor
      · intro hread
        obtain ⟨s', ⟨c, hc, hs⟩, ms, hms, hr⟩ := hread
        refine ⟨(name, c) :: ms, ⟨name, c, rfl, hc, ms, hms, rfl⟩, ?_⟩
        rw [List.foldlM_cons, do_eq_ok]
        exact ⟨s', hs, hr⟩
      · intro hget
        obtain ⟨_, ⟨_, c, ⟨⟩, hc, ms, hms, rfl⟩, hr⟩ := hget
        rw [List.foldlM_cons, do_eq_ok] at hr
        obtain ⟨s', hs, hr⟩ := hr
        exact ⟨s', ⟨c, hc, hs⟩, ms, hms, hr⟩

/-! ### Operations -/

namespace Content

/-- The tag of an operation. -/
def operationKind (c : Content) : Decoded OperationKind :=
  (c.found.string "variant identifier").bind fun name =>
    match OperationKind.ofName? name with
    | some k => .ok k
    | none => refuse (.unknownVariant name OperationKind.names)

/-- Reads a member of an operation. -/
def readOperationMember (p : OperationParts) (m : String × Content) : Decoded OperationParts :=
  if m.1 = "op" then
    (once m.1 p.kind m.2.operationKind).map fun kind => { p with kind := kind }
  else
    .ok { p with others := m :: p.others }

/-- The operation that contents stand for. -/
def operation : Content → Decoded Operation
  | .object members => do
      let parts ← members.foldlM readOperationMember ⟨none, []⟩
      let kind ← required "op" parts.kind
      operationByName kind parts.others.reverse
  | .array items => do
      let (kind, items) ← nextContent operationKind items
      let kind ← required "op" kind
      operationByPosition kind items
  | c => refuse (.wrongKind c.found "internally tagged enum Op")

end Content

theorem reads_operationKind (depth : Nat) :
    Reads depth Node.operationKind Content.operationKind :=
  reads_bind (reads_interpret depth (fun _ => refuse_ne_ok _ _) (fun _ => refuse_ne_ok _ _)) _

theorem reads_operationMember (depth : Nat) (p : OperationParts) (name : String) :
    Reads depth (readOperationMember depth p name)
      (fun c => Content.readOperationMember p (name, c)) := by
  intro v r
  unfold readOperationMember Content.readOperationMember
  by_cases h : name = "op"
  · simp only [if_pos h]
    exact reads_map (reads_once (reads_operationKind depth) name p.kind) _ v r
  · simp only [if_neg h]
    exact reads_map (reads_whole depth) _ v r

theorem reads_operation (depth : Nat) :
    Reads (depth + 1) (Node.operation (depth + 1)) Content.operation := by
  refine reads_containers ?_ ?_ ?_ ?_
  · intro v o h
    cases v with
    | array items => exact .inl ⟨items, rfl⟩
    | object members => exact .inr ⟨members, rfl⟩
    | _ => exact absurd h (interpret_refuse_ne_ok _ _ _)
  · intro c o h
    cases c with
    | array cs => exact .inl ⟨cs, rfl⟩
    | object ms => exact .inr ⟨ms, rfl⟩
    | _ => exact absurd h (refuse_ne_ok _ _)
  · intro items o
    refine Items.next_eq_ok (reads_operationKind depth) fun kind rest o => ?_
    simp only [do_eq_ok, orFault_eq_ok]
    constructor
    · intro hread
      obtain ⟨k, hk, cs, hcs, ho⟩ := hread
      exact ⟨cs, hcs, k, hk, ho⟩
    · intro hget
      obtain ⟨cs, hcs, k, hk, ho⟩ := hget
      exact ⟨k, hk, cs, hcs, ho⟩
  · intro members o
    simp only [Node.operation, Content.operation, do_eq_ok, Nat.add_sub_cancel,
      Members.foldDecoded_eq_ok (reads_operationMember depth)]
    constructor
    · intro hread
      obtain ⟨p, ⟨ms, hms, hp⟩, ho⟩ := hread
      exact ⟨ms, hms, p, hp, ho⟩
    · intro hget
      obtain ⟨ms, hms, p, hp, ho⟩ := hget
      exact ⟨p, ⟨ms, hms, hp⟩, ho⟩

/-! ### Scripts -/

namespace Content

/-- A data type, by its name. -/
def dtype (c : Content) : Decoded DType :=
  (c.found.string "a string").bind fun name =>
    (DType.parse name).mapError fun e => .mismatch (.unknownType e)

/-- The schema that a script claims to follow. -/
def schemaVersion (c : Content) : Decoded (Option String) := c.found.optionalString "a string"

/-- Reads a member of a script. -/
def readScriptMember (p : ScriptParts) (m : String × Content) : Decoded ScriptParts :=
  match m.1 with
  | "schema_version" =>
      (once m.1 p.schemaVersion m.2.schemaVersion).map fun v => { p with schemaVersion := v }
  | "dtype" => (once m.1 p.dtype m.2.dtype).map fun v => { p with dtype := v }
  | "data" => (once m.1 p.data (m.2.elements element)).map fun v => { p with data := v }
  | "ops" =>
      (once m.1 p.operations (m.2.elements operation)).map fun v => { p with operations := v }
  | name => refuse (.unknownField name scriptFields)

/-- The script that contents stand for. -/
def script : Content → Decoded Script
  | .object members => do
      let p ← members.foldlM readScriptMember ⟨none, none, none, none⟩
      let dtype ← required "dtype" p.dtype
      let data ← required "data" p.data
      return ⟨p.schemaVersion.getD none, dtype, data, (p.operations.getD #[]).toList⟩
  | .array items => do
      let expected := "struct Script with 4 elements"
      let (schemaVersion, items) ← nextContent schemaVersion items
      let (dtype, items) ← nextContent dtype items
      let dtype ← requiredAt 1 expected dtype
      let (data, items) ← nextContent (elements element) items
      let data ← requiredAt 2 expected data
      let (operations, items) ← nextContent (elements operation) items
      noContent items
      return ⟨schemaVersion.getD none, dtype, data, (operations.getD #[]).toList⟩
  | c => refuse (.wrongKind c.found "struct Script")

end Content

theorem reads_dtype (depth : Nat) : Reads depth Node.dtype Content.dtype :=
  reads_bind (reads_interpret depth (fun _ => refuse_ne_ok _ _) (fun _ => refuse_ne_ok _ _)) _

theorem reads_schemaVersion (depth : Nat) :
    Reads depth Node.schemaVersion Content.schemaVersion :=
  reads_interpret depth (fun _ => nofun) (fun _ => nofun)

theorem reads_scriptData :
    Reads (maxDepth - 1) Node.scriptData (Content.elements Content.element) :=
  reads_elements (reads_bind (reads_whole (maxDepth - 2)) _)

theorem reads_scriptOperations :
    Reads (maxDepth - 1) Node.scriptOperations (Content.elements Content.operation) :=
  reads_elements (reads_operation (maxDepth - 3))

theorem reads_scriptMember (p : ScriptParts) (name : String) :
    Reads (maxDepth - 1) (readScriptMember p name)
      (fun c => Content.readScriptMember p (name, c)) := by
  intro v r
  unfold readScriptMember Content.readScriptMember
  split
  · exact reads_map (reads_once (reads_schemaVersion _) _ p.schemaVersion) _ v r
  · exact reads_map (reads_once (reads_dtype _) _ p.dtype) _ v r
  · exact reads_map (reads_once reads_scriptData _ p.data) _ v r
  · exact reads_map (reads_once reads_scriptOperations _ p.operations) _ v r
  · simp only [refuse_ne_ok, and_false, exists_false]

theorem reads_script : Reads maxDepth Node.script Content.script := by
  refine reads_containers ?_ ?_ ?_ ?_
  · intro v s h
    cases v with
    | array items => exact .inl ⟨items, rfl⟩
    | object members => exact .inr ⟨members, rfl⟩
    | _ => exact absurd h (interpret_refuse_ne_ok _ _ _)
  · intro c s h
    cases c with
    | array cs => exact .inl ⟨cs, rfl⟩
    | object ms => exact .inr ⟨ms, rfl⟩
    | _ => exact absurd h (refuse_ne_ok _ _)
  · -- Four values by position, and what is required of two of them in between.
    intro items s
    refine Items.next_eq_ok (reads_schemaVersion _) fun schemaVersion items s => ?_
    refine Items.next_eq_ok (reads_dtype _) fun dtype items s => ?_
    refine Items.bind_eq_ok fun dtype => ?_
    refine Items.next_eq_ok reads_scriptData fun data items s => ?_
    refine Items.bind_eq_ok fun data => ?_
    refine Items.next_eq_ok reads_scriptOperations fun operations items s => ?_
    simp only [do_eq_ok, Items.finish_eq_ok (maxDepth - 1)]
    constructor
    · intro hread
      obtain ⟨u, ⟨cs, hcs, hu⟩, hs⟩ := hread
      exact ⟨cs, hcs, u, hu, hs⟩
    · intro hget
      obtain ⟨cs, hcs, u, hu, hs⟩ := hget
      exact ⟨u, ⟨cs, hcs, hu⟩, hs⟩
  · intro members s
    simp only [Node.script, Content.script, do_eq_ok,
      Members.foldDecoded_eq_ok reads_scriptMember]
    constructor
    · intro hread
      obtain ⟨p, ⟨ms, hms, hp⟩, hs⟩ := hread
      exact ⟨ms, hms, p, hp, hs⟩
    · intro hget
      obtain ⟨ms, hms, p, hp, hs⟩ := hget
      exact ⟨p, ⟨ms, hms, hp⟩, hs⟩

/-! ### Documents -/

/-- A text is decoded if it has contents and these are read. -/
theorem decode_eq_ok {read : Node → Decoded α} {get : Content → Decoded α}
    (h : Reads maxDepth read get) {bytes : List UInt8} {a : α} :
    decode read bytes = .ok a ↔ ∃ c, decodeContent bytes = .ok c ∧ get c = .ok a := by
  simp only [decodeContent, decode, bind_eq_ok, Node.whole, orFault_eq_ok]
  cases (Document.ofBytes bytes).trailing with
  | true => simp
  | false => simp [h (Document.ofBytes bytes).root a]

/-- A text is that of a script if it has contents and these are those of a script. -/
theorem decodeScript_eq_ok {bytes : List UInt8} {s : Script} :
    decodeScript bytes = .ok s ↔ ∃ c, decodeContent bytes = .ok c ∧ c.script = .ok s :=
  decode_eq_ok reads_script

end StridedSlice.Json
