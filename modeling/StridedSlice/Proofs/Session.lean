import StridedSlice.Element
import StridedSlice.Foreign
import StridedSlice.Proofs.InPlace
/-!
# StridedSlice.Proofs.Session

**Sessions of foreign calls.** A caller owns a buffer and a cell for resolved slices, and
calls the entry points on them in any order. Every call answers as the core does
(`perform_eq_answer`), so a session goes as one of the core: null pointers are found first,
refusals leave all memory as it was, and no fault ever shows.
-/

namespace StridedSlice.Foreign

variable {α : Type}

/-! ### Callers and their calls -/

/-- What a caller owns. -/
structure Caller (α : Type) where
  buffer : Array α
  /-- The cell for resolved slices. -/
  out : Selection

/-- An entry point with its arguments. A data pointer is null or points at an offset into the
buffer of the caller. A source pointer is null or points to memory of its own. -/
inductive Call (α : Type)
  | storeScalar (data : Option Nat) (len : Nat) (slice : SliceArgument) (value : α)
  | storeSequence (data : Option Nat) (len : Nat) (slice : SliceArgument)
      (source : Option (Array α)) (sourceLen : Nat)
  | storeAt (data : Option Nat) (len : Nat) (index : Int64) (value : α)
  /-- The pointer to the cell is null unless it is `given`. -/
  | resolve (len : Nat) (slice : SliceArgument) (given : Bool)

namespace Caller

/-- The memory behind a data pointer. -/
def behind (c : Caller α) (data : Option Nat) : Option (Array α) :=
  data.map fun offset => c.buffer.extract offset c.buffer.size

/-- A call that writes an array, as the caller sees it. -/
def written (c : Caller α) (data : Option Nat) (w : Written α) : Status × Caller α :=
  match data, w.memory with
  | some offset, some memory =>
      (w.status, { c with buffer := c.buffer.extract 0 offset ++ memory })
  | _, _ => (w.status, c)

end Caller

/-- Calls an entry point. -/
def Call.perform (c : Caller α) : Call α → Status × Caller α
  | .storeScalar data len slice value =>
      c.written data (Foreign.storeScalar (c.behind data) len slice value)
  | .storeSequence data len slice source sourceLen =>
      c.written data (Foreign.storeSequence (c.behind data) len slice source sourceLen)
  | .storeAt data len index value =>
      c.written data (Foreign.storeAt (c.behind data) len index value)
  | .resolve len slice given =>
      let (status, out) := Foreign.resolve len slice (if given then some c.out else none)
      (status, { c with out := out.getD c.out })

/-! ### What the core makes of a call -/

namespace Caller

/-- The elements that a data pointer and a length stand for. -/
def window (c : Caller α) (data : Option Nat) (len : Nat) : Array α :=
  match data with
  | none => #[]
  | some offset => c.buffer.extract offset (offset + len)

/-- The caller after the elements that a data pointer stands for became `window`. -/
def withWindow (c : Caller α) (data : Option Nat) (window : Array α) : Caller α :=
  match data with
  | none => c
  | some offset => { c with buffer := Store.replaceBlock c.buffer offset window }

end Caller

/-- The elements of a source. -/
def sourceElements (source : Option (Array α)) (sourceLen : Nat) : Array α :=
  match source with
  | none => #[]
  | some memory => memory.extract 0 sourceLen

namespace Call

/-- Whether a pointer is null that something is expected behind. -/
def passesNull : Call α → Bool
  | .storeScalar data len _ _ => data.isNone && len != 0
  | .storeSequence data len _ source sourceLen =>
      (data.isNone && len != 0) || (source.isNone && sourceLen != 0)
  | .storeAt data len _ _ => data.isNone && len != 0
  | .resolve _ _ given => !given

/-- The operation of the core that a call stands for. -/
def core (t : ElementType) (c : Caller t.Value) :
    Call t.Value → Except SliceError (Caller t.Value)
  | .storeScalar data len slice value =>
      (Store.assign (t.convert t) (c.window data len) slice.get (.scalar value)).map
        (c.withWindow data)
  | .storeSequence data len slice source sourceLen =>
      (Store.assign (t.convert t) (c.window data len) slice.get
        (.sequence (sourceElements source sourceLen))).map (c.withWindow data)
  | .storeAt data len index value =>
      (Store.assignAt (t.convert t) (c.window data len) index value).map (c.withWindow data)
  | .resolve len slice _ => (slice.get.resolve len).map fun n => { c with out := n }

end Call

/-- The answer that goes with a result of the core. -/
def answerOf (c : Caller α) : Except SliceError (Caller α) → Status × Caller α
  | .ok after => (.ok, after)
  | .error e => (e.status, c)

/-- How a call is to be answered. -/
def Call.answer (t : ElementType) (c : Caller t.Value) (call : Call t.Value) :
    Status × Caller t.Value :=
  if call.passesNull then (.nullPointer, c) else answerOf c (call.core t c)

/-! ### Single calls -/

theorem OptionalIndex.get_eq_none_iff {i : OptionalIndex} : i.get = none ↔ i.present = 0 := by
  unfold get
  split_ifs with h
  · simp [h]
  · simp [h]

theorem OptionalIndex.get_eq_some_iff {i : OptionalIndex} {v : Int64} :
    i.get = some v ↔ i.present ≠ 0 ∧ i.value = v := by
  unfold get
  split_ifs with h
  · simp [h]
  · simp [h]

/-! ### Parts of the caller's memory -/

theorem extract_min_size (a : Array α) (i j : Nat) :
    a.extract i (min j a.size) = a.extract i j := by
  refine Array.ext_getElem? fun k => ?_
  rw [Array.getElem?_extract, Array.getElem?_extract]
  congr 1
  simp

/-- Writing back what was there changes nothing. -/
theorem update_extract (memory : Array α) (len : Nat) :
    update memory (memory.extract 0 len) = memory := by
  rw [update, Array.size_extract, Nat.sub_zero, ← extract_min_size memory 0 len,
    Array.extract_append_extract, Nat.zero_min, max_eq_right (Nat.min_le_right _ _),
    Array.extract_size]

/-- Elements written behind an offset are a block of the buffer. -/
theorem append_update_eq_replaceBlock (a block : Array α) (offset : Nat) :
    a.extract 0 offset ++ update (a.extract offset a.size) block =
      Store.replaceBlock a offset block := by
  have hend : min (offset + (a.extract offset a.size).size) a.size = a.size := by
    rw [Array.size_extract]
    omega
  rw [update, Store.replaceBlock, Array.extract_extract, Array.append_assoc, hend]

/-- What lies before an offset and what lies behind it make up the buffer. -/
theorem append_extract_eq_self (a : Array α) (offset : Nat) :
    a.extract 0 offset ++ a.extract offset a.size = a := by
  rw [Array.extract_append_extract, Nat.zero_min]
  exact Array.extract_eq_self_of_le (Nat.le_max_right _ _)

/-- A call that leaves its memory as it was leaves the caller as it was. -/
theorem written_behind (c : Caller α) (data : Option Nat) (status : Status) :
    c.written data ⟨status, c.behind data⟩ = (status, c) := by
  cases data with
  | none => rfl
  | some offset =>
      have hbuffer := append_extract_eq_self c.buffer offset
      exact congrArg (fun buffer => (status, { c with buffer := buffer })) hbuffer

theorem window_some (c : Caller α) (offset len : Nat) :
    c.window (some offset) len = (c.buffer.extract offset c.buffer.size).extract 0 len := by
  rw [Array.extract_extract, Nat.add_zero, extract_min_size]
  rfl

/-! ### Access -/

theorem access_some (memory : Array α) (len : Nat) :
    access (some memory) len = .ok (memory.extract 0 len) := by
  by_cases h : len = 0
  · rw [access, if_pos h, h, Array.extract_zero]
  · rw [access, if_neg h]

/-- Access is refused for a null pointer with a nonzero length. -/
theorem access_null {pointer : Option (Array α)} {len : Nat}
    (h : (pointer.isNone && len != 0) = true) : access pointer len = .error .nullPointer := by
  rw [Bool.and_eq_true, Option.isNone_iff_eq_none, bne_iff_ne] at h
  rw [h.1]
  exact if_neg h.2

theorem access_source {source : Option (Array α)} {sourceLen : Nat}
    (h : (source.isNone && sourceLen != 0) = false) :
    access source sourceLen = .ok (sourceElements source sourceLen) := by
  cases source with
  | none =>
      have hlen : sourceLen = 0 := by simpa using h
      rw [hlen]
      rfl
  | some memory => exact access_some memory sourceLen

theorem access_behind {c : Caller α} {data : Option Nat} {len : Nat}
    (h : (data.isNone && len != 0) = false) :
    access (c.behind data) len = .ok (c.window data len) := by
  cases data with
  | none =>
      have hlen : len = 0 := by simpa using h
      rw [hlen]
      rfl
  | some offset =>
      rw [window_some]
      exact access_some _ len

theorem access_behind_null {c : Caller α} {data : Option Nat} {len : Nat}
    (h : (data.isNone && len != 0) = true) :
    access (c.behind data) len = .error .nullPointer := by
  refine access_null ?_
  rwa [Caller.behind, Option.isNone_map]

/-! ### Single calls -/

/-- A call that does on the array what an operation of the core does is answered by its
result, unless its pointer is null. -/
theorem written_onArray {c : Caller α} {data : Option Nat} {len : Nat}
    {operation : InPlace α Unit} {result : Except SliceError (Array α)}
    (h : operation.run (c.window data len) = InPlace.outcome (c.window data len) result) :
    c.written data (onArray (c.behind data) len operation) =
      if (data.isNone && len != 0) = true then (.nullPointer, c)
      else answerOf c (result.map (c.withWindow data)) := by
  cases hdata : data.isNone && len != 0 with
  | true =>
      rw [onArray, access_behind_null hdata, if_pos rfl]
      exact written_behind c data .nullPointer
  | false =>
      rw [onArray, access_behind hdata, if_neg Bool.false_ne_true]
      dsimp only
      rw [h]
      cases result with
      | ok window =>
          cases data with
          | none => rfl
          | some offset =>
              have hblock := append_update_eq_replaceBlock c.buffer window offset
              exact congrArg (fun buffer => (Status.ok, { c with buffer := buffer })) hblock
      | error e =>
          -- The refused operation wrote nothing, so what is written back is what was there.
          have hback : (c.behind data).map (update · (c.window data len)) = c.behind data := by
            cases data with
            | none => rfl
            | some offset =>
                rw [window_some]
                exact congrArg some (update_extract _ len)
          show c.written data ⟨e.status, (c.behind data).map (update · (c.window data len))⟩ = _
          rw [hback]
          exact written_behind c data e.status

/-- **A call** is answered as the core says. -/
theorem perform_eq_answer (t : ElementType) (c : Caller t.Value) (call : Call t.Value) :
    call.perform c = call.answer t c := by
  have hconvert : t.convert t = id := funext (ElementType.convert_self t)
  cases call with
  | storeScalar data len slice value =>
      rw [Call.answer, Call.core, hconvert]
      exact written_onArray (InPlace.run_assign id _ _ _)
  | storeSequence data len slice source sourceLen =>
      rw [Call.answer, Call.core, hconvert, Call.passesNull]
      show c.written data (Foreign.storeSequence (c.behind data) len slice source sourceLen) = _
      rw [Foreign.storeSequence]
      -- The array is looked at before the source.
      cases hdata : data.isNone && len != 0 with
      | true =>
          rw [access_behind_null hdata, Bool.true_or, if_pos rfl]
          exact written_behind c data .nullPointer
      | false =>
          rw [access_behind hdata, Bool.false_or]
          cases hsource : source.isNone && sourceLen != 0 with
          | true =>
              rw [access_null hsource, if_pos rfl]
              exact written_behind c data .nullPointer
          | false =>
              rw [access_source hsource, if_neg Bool.false_ne_true]
              refine (written_onArray (InPlace.run_assign id _ _ _)).trans ?_
              rw [hdata, if_neg Bool.false_ne_true]
  | storeAt data len index value =>
      rw [Call.answer, Call.core, hconvert]
      exact written_onArray (InPlace.run_assignAt id _ _ _)
  | resolve len slice given =>
      cases given with
      | false => rfl
      | true =>
          have hchecked := Checked.resolve_eq slice.get len
          rw [Call.answer, Call.passesNull, Bool.not_true, if_neg Bool.false_ne_true, Call.core]
          cases hresolve : slice.get.resolve len with
          | error e =>
              rw [hresolve] at hchecked
              simp only [Call.perform, Foreign.resolve, if_true, hchecked]
              rfl
          | ok n =>
              rw [hresolve] at hchecked
              simp only [Call.perform, Foreign.resolve, if_true, hchecked]
              rfl

/-! ### Sessions -/

/-- One call of a session, with its answer and with the caller around it. -/
structure Exchange (α : Type) where
  before : Caller α
  call : Call α
  status : Status
  after : Caller α

/-- Makes calls one after the other, each with what the one before has left. -/
def session (answer : Caller α → Call α → Status × Caller α) (c : Caller α) :
    List (Call α) → List (Exchange α)
  | [] => []
  | call :: rest =>
      ⟨c, call, (answer c call).1, (answer c call).2⟩ :: session answer (answer c call).2 rest

/-- What one call gives, wherever it stands, is given all along a session. -/
theorem forall_mem_session {answer : Caller α → Call α → Status × Caller α}
    {P : Exchange α → Prop}
    (h : ∀ c call, P ⟨c, call, (answer c call).1, (answer c call).2⟩)
    (c : Caller α) (calls : List (Call α)) : ∀ x ∈ session answer c calls, P x := by
  induction calls generalizing c with
  | nil => exact fun x hx => absurd hx List.not_mem_nil
  | cons call rest ih =>
      intro x hx
      rcases List.mem_cons.mp hx with rfl | hrest
      · exact h c call
      · exact ih _ x hrest

/-- Calls that are answered alike make the same session. -/
theorem session_congr {f g : Caller α → Call α → Status × Caller α}
    (h : ∀ c call, f c call = g c call) (c : Caller α) (calls : List (Call α)) :
    session f c calls = session g c calls := by
  induction calls generalizing c with
  | nil => rfl
  | cons call rest ih => rw [session, session, h c call, ih]

/-- Only the answer of success comes with a change. -/
theorem answerOf_unchanged {c : Caller α} {result : Except SliceError (Caller α)}
    (h : (answerOf c result).1 ≠ .ok) : (answerOf c result).2 = c := by
  cases result with
  | ok after => exact absurd rfl h
  | error e => rfl

/-- The core knows of no faults. -/
theorem answerOf_ne_internalError (c : Caller α) (result : Except SliceError (Caller α)) :
    (answerOf c result).1 ≠ .internalError := by
  cases result with
  | ok after => exact Status.noConfusion
  | error e => cases e <;> exact Status.noConfusion

/-- **Foreign calls refine the core.** For every type of elements, every caller and every
sequence of calls, the session goes as the one that the core would have: the same status
after each call, and the same memory. A null pointer is the first thing that is answered,
with any slice; whatever status but success is answered, the caller's memory is as before;
and no call is answered with an internal error. The parts of a slice that count are those
with a nonzero flag. -/
theorem session_refines_core (t : ElementType) (c : Caller t.Value)
    (calls : List (Call t.Value)) :
    session Call.perform c calls = session (Call.answer t) c calls ∧
      (∀ x ∈ session Call.perform c calls,
        (x.call.passesNull = true → x.status = .nullPointer) ∧
          (x.status ≠ .ok → x.after = x.before) ∧ x.status ≠ .internalError) ∧
      ∀ i : OptionalIndex, (i.get = none ↔ i.present = 0) ∧
        ∀ v, i.get = some v ↔ i.present ≠ 0 ∧ i.value = v := by
  refine ⟨session_congr (perform_eq_answer t) c calls,
    forall_mem_session (fun c call => ?_) c calls,
    fun i => ⟨OptionalIndex.get_eq_none_iff, fun v => OptionalIndex.get_eq_some_iff⟩⟩
  dsimp only
  rw [perform_eq_answer, Call.answer]
  split_ifs with hnull
  · exact ⟨fun _ => rfl, fun _ => rfl, Status.noConfusion⟩
  · exact ⟨fun h => absurd h hnull, answerOf_unchanged, answerOf_ne_internalError c _⟩

end StridedSlice.Foreign
