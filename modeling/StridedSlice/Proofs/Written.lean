import StridedSlice.Event
import StridedSlice.Proofs.Integer
import StridedSlice.Proofs.Run
/-!
# StridedSlice.Proofs.Written

**The written form of a slice identifies it.** Reports and log lines quote a slice by its text
only. The text is put together from the parts of the slice with colons between them
(`Slice.text_eq_intercalate`), and no part has a colon of its own, so it can be taken apart again
and the parts be read (`Slice.ofText?_text`). From this it follows that no two slices have one
text, and that what a report or a log says about a slice is said of that slice alone
(`Slice.text_identifies`).
-/

namespace StridedSlice

namespace Slice

/-! ### Reading a written slice -/

/-- Reads a part of a written slice. An empty part is absent, and every other one is a decimal
integer of 64 bits. -/
def readPart (part : String) : Option (Option Int64) :=
  if part = "" then some none else (Text.signed? part).map some

/-- Reads a written slice by its colons. The first one has to be there; without the second one
the step is missing, so it is absent. -/
def ofText? (text : String) : Option Slice :=
  match (text.split ':').toList.map String.Slice.copy with
  | [start, stop] => return ⟨← readPart start, ← readPart stop, none⟩
  | [start, stop, step] => return ⟨← readPart start, ← readPart stop, ← readPart step⟩
  | _ => none

theorem readPart_partText (part : Option Int64) : readPart (partText part) = some part := by
  cases part with
  | none => rfl
  | some w =>
      have hread : Text.signed? (partText (some w)) = some w := Text.signed?_repr w
      have hne : partText (some w) ≠ "" := by
        intro hempty
        rw [hempty] at hread
        cases hread
      rw [readPart, if_neg hne, hread, Option.map_some]

/-! ### The parts of a written slice -/

/-- The texts between the colons: the step is among them only if there is one. -/
def writtenParts (s : Slice) : List String :=
  partText s.start :: partText s.stop :: s.step.toList.map fun w => partText (some w)

theorem text_eq_intercalate (s : Slice) :
    s.text = (String.singleton ':').intercalate s.writtenParts := by
  obtain ⟨start, stop, step⟩ := s
  cases step <;> simp [text, writtenParts, partText, String.append_assoc]

example : text ⟨some (-2), none, some 2⟩ = "-2::2" := by decide

/-- A part that is written has digits and perhaps a sign, but no colon. -/
theorem colon_not_mem_partText (part : Option Int64) : ':' ∉ (partText part).toList := by
  cases part with
  | none => exact List.not_mem_nil
  | some w =>
      intro hmem
      rcases Text.mem_repr hmem with hsign | hdigit
      · exact absurd hsign (by decide)
      · exact absurd hdigit (by decide)

theorem split_text (s : Slice) :
    (s.text.split ':').toList.map String.Slice.copy = s.writtenParts := by
  have hparts : ∀ part ∈ s.writtenParts, ':' ∉ part.toList := by
    intro part hpart
    simp only [writtenParts, List.mem_cons, List.mem_map] at hpart
    rcases hpart with rfl | rfl | ⟨w, -, rfl⟩ <;> exact colon_not_mem_partText _
  rw [text_eq_intercalate, String.toList_split_intercalate hparts]
  exact if_neg (List.cons_ne_nil _ _)

/-- **What is written is read back.** -/
theorem ofText?_text (s : Slice) : ofText? s.text = some s := by
  obtain ⟨start, stop, step⟩ := s
  rw [ofText?, split_text]
  cases step <;> simp [writtenParts, readPart_partText]

/-- No two slices have one text. -/
theorem text_inj {s t : Slice} : s.text = t.text ↔ s = t := by
  refine ⟨fun h => ?_, congrArg text⟩
  have hread : some s = some t := by rw [← ofText?_text s, h, ofText?_text]
  exact Option.some.inj hread

theorem text_injective : Function.Injective text := fun _ _ => text_inj.mp

end Slice

/-! ### Slices in reports and logs -/

/-- The diagnostic of an operation quotes its slice, if it has one. -/
theorem Operation.get?_slice_diagnostic (o : Operation) (op : Nat) (e : SliceError) :
    (o.diagnostic op e).data.get? "slice" = o.slice?.map fun s => .text s.text := by
  cases o with
  | assign s value => exact Attributes.get?_set ..
  | load s => exact Attributes.get?_set ..
  | assignAt index value => cases e <;> rfl

/-- The slice that an event is about. -/
def Event.slice? : Event → Option Slice
  | .zeroStep s _ => some s
  | .resolved s _ _ => some s
  | .lengthMismatch s _ _ => some s
  | .storing _ => none
  | .outOfBounds _ _ => none
  | .operationFailed _ _ _ => none
  | .running _ _ => none

/-- The log line of an event has a field for the slice that it is about. -/
theorem Event.lookup_spec_fields (e : Event) :
    e.fields.lookup "spec" = e.slice?.map Slice.text := by
  cases e <;> rfl

/-- **The text of a slice identifies it.** No two slices have one text, the parts between the
colons are read as the slice that was written, and so diagnostics of operations and events of
the log quote one slice only if it is the same one that they are about. -/
theorem Slice.text_identifies :
    (∀ s t : Slice, s.text = t.text ↔ s = t) ∧
      (∀ s : Slice, ofText? s.text = some s) ∧
      (∀ (o o' : Operation) (op op' : Nat) (e e' : SliceError),
        (o.diagnostic op e).data.get? "slice" = (o'.diagnostic op' e').data.get? "slice" ↔
          o.slice? = o'.slice?) ∧
      ∀ e e' : Event, e.fields.lookup "spec" = e'.fields.lookup "spec" ↔ e.slice? = e'.slice? := by
  refine ⟨fun s t => text_inj, ofText?_text, fun o o' op op' e e' => ?_, fun e e' => ?_⟩
  · have hquote : Function.Injective fun s : Slice => Json.text s.text :=
      fun s t h => text_inj.mp (Json.text.inj h)
    rw [o.get?_slice_diagnostic, o'.get?_slice_diagnostic]
    exact (Option.map_injective hquote).eq_iff
  · rw [e.lookup_spec_fields, e'.lookup_spec_fields]
    exact (Option.map_injective text_injective).eq_iff

end StridedSlice
