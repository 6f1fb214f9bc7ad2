import Mathlib.Data.List.Nodup
import StridedSlice.Proofs.Contents
/-!
# StridedSlice.Proofs.Shape

The **shapes** of objects: which names their members have, what stands under each name, and
which of them have to be there. Members may come in any order, and no name twice.

* `Shape.Admits`: an object has a shape;
* `Shape.admits_withTag`: a tagged object is its tag and an object of the shape without it,
  wherever the tag stands;
* `Reader`: a fold over members that takes one at a time and remembers the names it has met
  (`Reader.admits_iff`), and what its state holds in the end (`Reader.field_eq_some_iff`).
-/

namespace StridedSlice.Json

variable {α σ : Type}

/-! ### Shapes of objects -/

/-- What an object may hold. -/
structure Shape where
  /-- The names that are known, with what their values may be. -/
  fields : List (String × (Content → Prop))
  /-- The names that have to be there. -/
  required : List String

namespace Shape

/-- A member that has a known name and a value that is allowed under it. -/
def Allows (shape : Shape) (m : String × Content) : Prop :=
  ∃ f ∈ shape.fields, f.1 = m.1 ∧ f.2 m.2

/-- Members in any order: no name twice, all of them allowed, and none missing. -/
structure Admits (shape : Shape) (members : List (String × Content)) : Prop where
  nodup : (members.map Prod.fst).Nodup
  allowed : ∀ m ∈ members, shape.Allows m
  complete : ∀ name ∈ shape.required, name ∈ members.map Prod.fst

/-- A shape with one more field, which is required. -/
def withTag (shape : Shape) (tag : String) (allowed : Content → Prop) : Shape :=
  ⟨(tag, allowed) :: shape.fields, tag :: shape.required⟩

end Shape

theorem eq_of_mem_of_nodup {members : List (String × Content)} {name : String} {c c' : Content}
    (hnodup : (members.map Prod.fst).Nodup) (h : (name, c) ∈ members)
    (h' : (name, c') ∈ members) : c = c' :=
  congrArg Prod.snd (List.inj_on_of_nodup_map hnodup h h' rfl)

/-- The members with a given name, when no name occurs twice. -/
theorem filter_eq_singleton {members : List (String × Content)} {name : String}
    (hnodup : (members.map Prod.fst).Nodup) (h : name ∈ members.map Prod.fst) :
    ∃ c, members.filter (·.1 = name) = [(name, c)] := by
  induction members with
  | nil => simp at h
  | cons m rest ih =>
      rw [List.map_cons, List.nodup_cons] at hnodup
      by_cases hm : m.1 = name
      · have hrest : rest.filter (·.1 = name) = [] := by
          refine List.filter_eq_nil_iff.mpr fun m' hm' heq => hnodup.1 ?_
          rw [hm, ← of_decide_eq_true heq]
          exact List.mem_map_of_mem hm'
        exact ⟨m.2, by rw [List.filter_cons_of_pos (by simpa using hm), hrest, ← hm]⟩
      · rw [List.filter_cons_of_neg (by simpa using hm)]
        exact ih hnodup.2 (by simpa [Ne.symm hm] using h)

/-- A tagged object is the tag and an object of the shape without it. -/
theorem Shape.admits_withTag {shape : Shape} {tag : String} {allowed : Content → Prop}
    {members : List (String × Content)} (hfields : ∀ f ∈ shape.fields, f.1 ≠ tag)
    (hrequired : tag ∉ shape.required) :
    (shape.withTag tag allowed).Admits members ↔
      (∃ c, members.filter (·.1 = tag) = [(tag, c)] ∧ allowed c) ∧
        shape.Admits (members.filter (¬ ·.1 = tag)) := by
  have hother : ∀ m : String × Content, m.1 ≠ tag →
      ((shape.withTag tag allowed).Allows m ↔ shape.Allows m) := by
    intro m hm
    simp [Allows, withTag, Ne.symm hm]
  have htag : ∀ c, (shape.withTag tag allowed).Allows (tag, c) ↔ allowed c := by
    intro c
    constructor
    · intro h
      obtain ⟨f, hf, hname, hc⟩ := h
      rcases List.mem_cons.mp hf with rfl | hf
      · exact hc
      · exact absurd hname (hfields f hf)
    · intro hc
      exact ⟨(tag, allowed), List.mem_cons_self, rfl, hc⟩
  constructor
  · intro h
    obtain ⟨c, hc⟩ := filter_eq_singleton h.nodup (h.complete tag List.mem_cons_self)
    have hmem : (tag, c) ∈ members := List.mem_of_mem_filter (hc ▸ List.mem_singleton_self _)
    refine ⟨⟨c, hc, (htag c).mp (h.allowed _ hmem)⟩, ?_, ?_, ?_⟩
    · exact h.nodup.sublist (List.filter_sublist.map _)
    · intro m hm
      obtain ⟨hm, hne⟩ := List.mem_filter.mp hm
      exact (hother m (of_decide_eq_true hne)).mp (h.allowed m hm)
    · intro name hname
      obtain ⟨m, hm, rfl⟩ := List.mem_map.mp (h.complete name (List.mem_cons_of_mem _ hname))
      have hne : m.1 ≠ tag := fun heq => hrequired (heq ▸ hname)
      exact List.mem_map_of_mem (List.mem_filter.mpr ⟨hm, decide_eq_true hne⟩)
  · intro h
    obtain ⟨⟨c, hc, hallowed⟩, hrest⟩ := h
    -- Names without duplicates and allowed members do not depend on the order.
    have hperm : ((tag, c) :: members.filter (¬ ·.1 = tag)).Perm members := by
      have hp := List.filter_append_perm (fun m : String × Content => m.1 = tag) members
      simpa [hc] using hp
    refine ⟨?_, ?_, ?_⟩
    · refine (hperm.map Prod.fst).nodup_iff.mp (List.nodup_cons.mpr ⟨?_, hrest.nodup⟩)
      intro hmem
      obtain ⟨m, hm, heq⟩ := List.mem_map.mp hmem
      exact of_decide_eq_true (List.mem_filter.mp hm).2 heq
    · intro m hm
      rcases List.mem_cons.mp (hperm.mem_iff.mpr hm) with rfl | hm
      · exact (htag c).mpr hallowed
      · have hne := of_decide_eq_true (List.mem_filter.mp hm).2
        exact (hother m hne).mpr (hrest.allowed m hm)
    · intro name hname
      refine (hperm.map Prod.fst).mem_iff.mp ?_
      rcases List.mem_cons.mp hname with rfl | hname
      · exact List.mem_cons_self
      · exact List.mem_cons_of_mem _ (hrest.complete name hname)

/-! ### Reading the members of a shape -/

/-- `read` takes one member at a time into a state that remembers which names it has met:
a member is taken exactly if its name is new and the shape allows it. -/
structure Reader (shape : Shape) (read : σ → String × Content → Decoded σ)
    (has : σ → String → Prop) : Prop where
  takes : ∀ s m, (∃ s', read s m = .ok s') ↔ ¬has s m.1 ∧ shape.Allows m
  has_step : ∀ {s m s'}, read s m = .ok s' → ∀ name, has s' name ↔ has s name ∨ name = m.1

namespace Reader

variable {shape : Shape} {read : σ → String × Content → Decoded σ} {has : σ → String → Prop}

theorem has_foldlM (h : Reader shape read has) {members : List (String × Content)} {s s' : σ}
    (hfold : members.foldlM read s = .ok s') (name : String) :
    has s' name ↔ has s name ∨ name ∈ members.map Prod.fst := by
  induction members generalizing s with
  | nil =>
      rw [List.foldlM_nil, pure_eq_ok] at hfold
      simp [hfold]
  | cons m rest ih =>
      rw [List.foldlM_cons, do_eq_ok] at hfold
      obtain ⟨s₁, hstep, hrest⟩ := hfold
      rw [ih hrest, h.has_step hstep, List.map_cons, List.mem_cons, or_assoc]

theorem foldlM_ok_iff (h : Reader shape read has) {members : List (String × Content)} {s : σ} :
    (∃ s', members.foldlM read s = .ok s') ↔
      (members.map Prod.fst).Nodup ∧ ∀ m ∈ members, ¬has s m.1 ∧ shape.Allows m := by
  induction members generalizing s with
  | nil => exact ⟨fun _ => ⟨List.nodup_nil, nofun⟩, fun _ => ⟨s, rfl⟩⟩
  | cons m rest ih =>
      simp only [List.foldlM_cons, do_eq_ok, List.map_cons, List.nodup_cons, List.forall_mem_cons]
      constructor
      · intro hread
        obtain ⟨s', s₁, hstep, hrest⟩ := hread
        obtain ⟨hnodup, hall⟩ := ih.mp ⟨s', hrest⟩
        refine ⟨⟨?_, hnodup⟩, (h.takes s m).mp ⟨s₁, hstep⟩, ?_⟩
        · intro hmem
          obtain ⟨m', hm', heq⟩ := List.mem_map.mp hmem
          exact (hall m' hm').1 ((h.has_step hstep m'.1).mpr (.inr heq))
        · intro m' hm'
          obtain ⟨hnew, hallows⟩ := hall m' hm'
          exact ⟨fun hold => hnew ((h.has_step hstep m'.1).mpr (.inl hold)), hallows⟩
      · intro hall
        obtain ⟨⟨hm, hnodup⟩, hfirst, hothers⟩ := hall
        obtain ⟨s₁, hstep⟩ := (h.takes s m).mpr hfirst
        -- What is new to `s` and is not the name just met is new to `s₁`.
        have hnew : ∀ m' ∈ rest, ¬has s₁ m'.1 ∧ shape.Allows m' := by
          intro m' hm'
          refine ⟨fun hold => ?_, (hothers m' hm').2⟩
          rcases (h.has_step hstep m'.1).mp hold with hold | heq
          · exact (hothers m' hm').1 hold
          · exact hm (heq ▸ List.mem_map_of_mem hm')
        obtain ⟨s', hrest⟩ := ih.mpr ⟨hnodup, hnew⟩
        exact ⟨s', s₁, hstep, hrest⟩

/-- What is read from a state that has met nothing, and has then met all that is required,
is an object of the shape. -/
theorem admits_iff (h : Reader shape read has) {members : List (String × Content)} {s : σ}
    (hs : ∀ name, ¬has s name) :
    (∃ s', members.foldlM read s = .ok s' ∧ ∀ name ∈ shape.required, has s' name) ↔
      shape.Admits members := by
  constructor
  · intro hread
    obtain ⟨s', hfold, hcomplete⟩ := hread
    obtain ⟨hnodup, hall⟩ := h.foldlM_ok_iff.mp ⟨s', hfold⟩
    refine ⟨hnodup, fun m hm => (hall m hm).2, fun name hname => ?_⟩
    exact ((h.has_foldlM hfold name).mp (hcomplete name hname)).resolve_left (hs name)
  · intro hadmits
    obtain ⟨s', hfold⟩ :=
      (h.foldlM_ok_iff (s := s)).mpr ⟨hadmits.nodup, fun m hm => ⟨hs m.1, hadmits.allowed m hm⟩⟩
    refine ⟨s', hfold, fun name hname => ?_⟩
    exact (h.has_foldlM hfold name).mpr (.inr (hadmits.complete name hname))

/-- A field of the state that only the members of one name set, to what their values are,
holds the value of the member with that name. -/
theorem field_eq_some_iff (h : Reader shape read has) (field : σ → Option α) (name : String)
    (value : Content → Decoded α) (hhas : ∀ s, has s name ↔ field s ≠ none)
    (hmet : ∀ {s c s'}, read s (name, c) = .ok s' → ∃ a, value c = .ok a ∧ field s' = some a)
    (hkept : ∀ {s m s'}, read s m = .ok s' → m.1 ≠ name → field s' = field s)
    {members : List (String × Content)} {s s' : σ} (hfold : members.foldlM read s = .ok s')
    (a : α) :
    field s' = some a ↔ field s = some a ∨ ∃ c, (name, c) ∈ members ∧ value c = .ok a := by
  induction members generalizing s with
  | nil =>
      rw [List.foldlM_nil, pure_eq_ok] at hfold
      simp [hfold]
  | cons m rest ih =>
      rw [List.foldlM_cons, do_eq_ok] at hfold
      obtain ⟨s₁, hstep, hrest⟩ := hfold
      rw [ih hrest]
      obtain ⟨name', c'⟩ := m
      by_cases hname : name' = name
      · subst hname
        obtain ⟨a', hvalue, hfield⟩ := hmet hstep
        -- The member was taken, so its name had not been met.
        have hnew : field s = none := by
          by_contra hne
          exact ((h.takes s _).mp ⟨s₁, hstep⟩).1 ((hhas s).mpr hne)
        simp [hnew, hfield, hvalue, or_and_right, exists_or]
      · rw [hkept hstep hname]
        simp [Ne.symm hname]

end Reader

/-- Among members of one name there is exactly one, if it may occur once and has to occur. -/
theorem foldlM_once {name : String} {value : Content → Decoded α}
    {members : List (String × Content)} (hname : ∀ m ∈ members, m.1 = name) {a : α} :
    members.foldlM (fun before m => once m.1 before (value m.2)) none = .ok (some a) ↔
      ∃ c, members = [(name, c)] ∧ value c = .ok a := by
  cases members with
  | nil => simp [pure_eq_ok]
  | cons m rest =>
      obtain ⟨name', c⟩ := m
      obtain rfl : name' = name := hname (name', c) List.mem_cons_self
      simp only [List.foldlM_cons, do_eq_ok, once_eq_ok, true_and]
      constructor
      · intro h
        obtain ⟨_, ⟨a', ha', rfl⟩, hrest⟩ := h
        cases rest with
        | nil =>
            rw [List.foldlM_nil, pure_eq_ok] at hrest
            cases hrest
            exact ⟨c, rfl, ha'⟩
        | cons m' rest =>
            -- The name has been met, so nothing may follow.
            rw [List.foldlM_cons, do_eq_ok] at hrest
            obtain ⟨_, hstep, _⟩ := hrest
            cases (once_eq_ok.mp hstep).1
      · intro h
        obtain ⟨c', heq, ha⟩ := h
        cases heq
        exact ⟨some a, ⟨a, ha, rfl⟩, rfl⟩

end StridedSlice.Json
