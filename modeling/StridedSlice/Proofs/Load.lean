import StridedSlice.Proofs.Reading
import StridedSlice.Proofs.Session
/-!
# StridedSlice.Proofs.Load

**The protocol of foreign loads.** A load has an array, an output with room for some elements
and a cell for a number, and any of the three pointers may be null. What it answers, and what
it leaves in the output and in the cell, is a relation of its own (`LoadCall.Answers`), with
one case for each way in which a call can end. The cases exclude each other.

* `perform_answers`: every call ends in one of these ways;
* what callers rely on follows from the relation alone: a status other than success leaves the
  output as it was (`Answers.caller_eq`), the array is never changed (`Answers.window_eq`), and
  a call that was refused for want of room (`Answers.of_tooSmall`) succeeds with as much room
  as the cell asks for (`Answers.ok_of_room`).
-/

namespace StridedSlice.Foreign

variable {α : Type}

/-! ### Loads and their answers -/

/-- A caller who loads owns a cell for a number besides. -/
structure Loader (α : Type) extends Caller α where
  cell : Nat

/-- A pointer gives access to a number of elements. A null pointer promises nothing, and one
that is asked for no elements may point anywhere. -/
def Caller.Reaches (c : Caller α) (pointer : Option Nat) (count : Nat) : Prop :=
  ∀ first ∈ pointer, count = 0 ∨ first + count ≤ c.buffer.size

theorem Caller.Reaches.mono {c : Caller α} {pointer : Option Nat} {count count' : Nat}
    (h : c.Reaches pointer count') (hle : count ≤ count') : c.Reaches pointer count := by
  intro first hfirst
  have hreach := h first hfirst
  omega

/-- A load with its arguments. The pointers to the array and to the output are null or point at
offsets into the buffer of the caller. The pointer to the cell is null unless the positions are
to be `counted`. -/
structure LoadCall where
  data : Option Nat
  len : Nat
  slice : SliceArgument
  output : Option Nat
  capacity : Nat
  counted : Bool

namespace LoadCall

/-- Calls the entry point. -/
def perform (c : Loader α) (call : LoadCall) : Status × Loader α :=
  let loaded := load (c.behind call.data) call.len call.slice (c.behind call.output)
    call.capacity (if call.counted then some c.cell else none)
  let (status, caller) := c.written call.output ⟨loaded.status, loaded.output⟩
  (status, { caller with cell := loaded.count.getD c.cell })

/-- Behind every pointer that is not null there is as much memory as the call says, and no
element of the array lies in the output. -/
structure Valid (call : LoadCall) (c : Loader α) : Prop where
  data : c.Reaches call.data call.len
  output : c.Reaches call.output call.capacity
  apart : ∀ i ∈ call.data, ∀ j ∈ call.output, ∀ k < call.len,
    i + k < j ∨ j + call.capacity ≤ i + k

/-- The view that a call is about, where it has an array and a slice that can be resolved. -/
structure Selects (call : LoadCall) (c : Loader α) (view : View α) : Prop where
  data : call.data = none → call.len = 0
  view : View.ofSlice (c.window call.data call.len) call.slice.get = .ok view

/-- The caller after the number of positions was put in the cell, unless its pointer is null. -/
def report (call : LoadCall) (c : Loader α) (count : Nat) : Loader α :=
  { c with cell := if call.counted then count else c.cell }

/-- The caller after the elements of a view were copied: they are at the beginning of the
output, and everywhere else there is what was there before. -/
structure Copied (call : LoadCall) (c : Loader α) (view : View α) (after : Loader α) : Prop where
  cell : after.cell = if call.counted then view.size else c.cell
  out : after.out = c.out
  size : after.buffer.size = c.buffer.size
  elements : ∀ first ∈ call.output,
    after.buffer.extract first (first + view.size) = view.toArray
  others : ∀ p, (∀ first ∈ call.output, p < first ∨ first + view.size ≤ p) →
    after.buffer[p]? = c.buffer[p]?

/-- How a load is answered, and what it leaves. -/
inductive Answers (call : LoadCall) (c : Loader α) : Status → Loader α → Prop
  | nullData (hdata : call.data = none) (hlen : call.len ≠ 0) : Answers call c .nullPointer c
  | zeroStep (hdata : call.data = none → call.len = 0)
      (hstep : call.slice.step.present ≠ 0 ∧ call.slice.step.value = 0) :
      Answers call c .zeroStep c
  | tooSmall {view : View α} (hview : call.Selects c view) (hsmall : call.capacity < view.size) :
      Answers call c .outputTooSmall (call.report c view.size)
  | nullOutput {view : View α} (hview : call.Selects c view) (hroom : view.size ≤ call.capacity)
      (houtput : call.output = none) (hsome : 0 < view.size) :
      Answers call c .nullPointer (call.report c view.size)
  | copied {view : View α} {after : Loader α} (hview : call.Selects c view)
      (hroom : view.size ≤ call.capacity) (houtput : call.output = none → view.size = 0)
      (hcopied : call.Copied c view after) : Answers call c .ok after

namespace Selects

variable {call : LoadCall} {c : Loader α} {view : View α} (h : call.Selects c view)
include h

theorem unique {view' : View α} (h' : call.Selects c view') : view = view' :=
  Except.ok.inj (h.view.symm.trans h'.view)

theorem not_zeroStep :
    ¬ (call.slice.step.present ≠ 0 ∧ call.slice.step.value = 0) := by
  intro hstep
  have herror : call.slice.get.resolve (c.window call.data call.len).size = .error .zeroStep :=
    Slice.resolve_eq_error_iff.mpr ⟨OptionalIndex.get_eq_some_iff.mpr hstep, rfl⟩
  have hview := h.view
  rw [View.ofSlice_eq, herror] at hview
  cases hview

end Selects

end LoadCall

/-! ### Copying -/

theorem replaceBlock_empty (a : Array α) (first : Nat) : Store.replaceBlock a first #[] = a := by
  rw [Store.replaceBlock, Array.append_empty, Array.size_empty, Nat.add_zero]
  exact append_extract_eq_self a first

theorem lift_ok_bind {β γ : Type} (b : β) (f : β → InPlace α γ) :
    (InPlace.lift (.ok b) : InPlace α β) >>= f = f b := rfl

/-- What a walk gives is written one element after the other. -/
theorem receive_eq_putEach {n : Selection} {len : Nat} (h : n.Resolved len) {a : Array α}
    (places : List Nat) {w : Walk α} {items : List α} (hw : n.Shows a w items) :
    receive w places = InPlace.putEach (places.zip items) := by
  induction places generalizing w items with
  | nil => rfl
  | cons p rest ih =>
      obtain ⟨w', hnext, -, hw'⟩ := h.shows_next hw
      rw [receive, hnext, lift_ok_bind]
      cases items with
      | nil => rfl
      | cons v others =>
          dsimp only [List.head?_cons]
          rw [ih hw']
          rfl

/-- With as much room as there are elements, all of them are copied. -/
theorem run_receive {n : Selection} {len : Nat} (h : n.Resolved len) {a : Array α}
    {w : Walk α} {items : List α} (hw : n.Shows a w items) {room : Array α}
    (hroom : room.size = items.length) :
    (receive w (List.range items.length)).run room = .ok () items.toArray := by
  have hsize : items.toArray.size = room.size := by rw [List.size_toArray, hroom]
  have hin : ∀ p ∈ ((List.range items.length).zip items).map Prod.fst, p < room.size := by
    intro p hp
    rw [List.map_fst_zip (by simp), List.mem_range] at hp
    omega
  have hblock : Store.replaceBlock room 0 items.toArray = items.toArray := by
    rw [Store.replaceBlock, Array.extract_zero, Nat.zero_add, hsize]
    simp
  rw [receive_eq_putEach h _ hw, InPlace.run_putEach hin, List.range_eq_range',
    ← List.size_toArray, ← Store.replaceBlock_eq_writeAll (by omega), hblock]

/-! ### Single loads -/

theorem size_window {c : Caller α} {pointer : Option Nat} {count : Nat}
    (hreach : c.Reaches pointer count) (hnull : pointer = none → count = 0) :
    (c.window pointer count).size = count := by
  cases pointer with
  | none => rw [hnull rfl]; rfl
  | some first =>
      have hfirst := hreach first rfl
      rw [Caller.window, Array.size_extract]
      omega

theorem null_of_ne_zero {pointer : Option Nat} {len : Nat} (h : pointer = none) (hlen : len ≠ 0) :
    (pointer.isNone && len != 0) = true := by
  rw [h, Option.isNone_none, Bool.true_and, bne_iff_ne]
  exact hlen

theorem not_null_of_imp {pointer : Option Nat} {len : Nat} (h : pointer = none → len = 0) :
    (pointer.isNone && len != 0) = false := by
  cases pointer with
  | none => rw [h rfl]; rfl
  | some first => rfl

namespace LoadCall

variable {c : Loader α} {call : LoadCall}

/-- A call that gets as far as the view, before anything is copied. -/
theorem load_eq {view : View α} (hview : call.Selects c view) (output : Option (Array α))
    (count : Option Nat) :
    load (c.behind call.data) call.len call.slice output call.capacity count =
      if call.capacity < view.size then
        ⟨.outputTooSmall, output, count.map fun _ => view.size⟩
      else
        let copied := onArray output view.size (receive view.walk (List.range view.size))
        ⟨copied.status, copied.memory, count.map fun _ => view.size⟩ := by
  rw [load, access_behind (not_null_of_imp hview.data)]
  dsimp only
  rw [Reading.view_eq, hview.view]
  rfl

/-- What a call leaves is put together from what the load made of the output and of the
cell. -/
theorem perform_eq {loaded : Loaded α} {status : Status} {caller : Caller α}
    (hload : load (c.behind call.data) call.len call.slice (c.behind call.output) call.capacity
      (if call.counted then some c.cell else none) = loaded)
    (hwritten : c.written call.output ⟨loaded.status, loaded.output⟩ = (status, caller)) :
    call.perform c = (status, { caller with cell := loaded.count.getD c.cell }) := by
  rw [perform]
  dsimp only
  rw [hload, hwritten]

/-- A load that touches neither the output nor the cell leaves everything as it was. -/
theorem perform_of_untouched {status : Status}
    (hload : load (c.behind call.data) call.len call.slice (c.behind call.output) call.capacity
      (if call.counted then some c.cell else none) =
        ⟨status, c.behind call.output, if call.counted then some c.cell else none⟩) :
    call.perform c = (status, c) := by
  rw [perform_eq hload (written_behind _ _ _)]
  cases call.counted <;> rfl

/-- A load that only reports leaves the output as it was. -/
theorem perform_of_reported {status : Status} {count : Nat}
    (hload : load (c.behind call.data) call.len call.slice (c.behind call.output) call.capacity
      (if call.counted then some c.cell else none) =
        ⟨status, c.behind call.output,
          (if call.counted then some c.cell else none).map fun _ => count⟩) :
    call.perform c = (status, call.report c count) := by
  rw [perform_eq hload (written_behind _ _ _), report]
  cases call.counted <;> rfl

theorem perform_nullData (hdata : call.data = none) (hlen : call.len ≠ 0) :
    call.perform c = (.nullPointer, c) := by
  refine perform_of_untouched ?_
  rw [load, access_behind_null (null_of_ne_zero hdata hlen)]

theorem perform_error (hdata : call.data = none → call.len = 0) {e : SliceError}
    (hview : View.ofSlice (c.window call.data call.len) call.slice.get = .error e) :
    call.perform c = (e.status, c) := by
  refine perform_of_untouched ?_
  rw [load, access_behind (not_null_of_imp hdata)]
  dsimp only
  rw [Reading.view_eq, hview]
  rfl

section View

variable {view : View α} (hview : call.Selects c view)
include hview

theorem perform_tooSmall (hsmall : call.capacity < view.size) :
    call.perform c = (.outputTooSmall, call.report c view.size) := by
  refine perform_of_reported ?_
  rw [load_eq hview, if_pos hsmall]

variable (hroom : view.size ≤ call.capacity)
include hroom

theorem perform_nullOutput (houtput : call.output = none) (hsome : 0 < view.size) :
    call.perform c = (.nullPointer, call.report c view.size) := by
  refine perform_of_reported ?_
  rw [load_eq hview, if_neg hroom.not_gt, onArray,
    access_behind_null (null_of_ne_zero houtput hsome.ne')]

theorem perform_copied (hreach : c.Reaches call.output view.size)
    (houtput : call.output = none → view.size = 0) :
    call.perform c =
      (.ok, { c.withWindow call.output view.toArray with
        cell := if call.counted then view.size else c.cell }) := by
  obtain ⟨items, len, h, hw, hread⟩ := View.exists_readAs hview.view
  -- The part of the output that is looked at has one place for each element.
  have hsize : (c.window call.output view.size).size = items.length :=
    (size_window hreach houtput).trans hread.size
  have hrun : (receive view.walk (List.range view.size)).run (c.window call.output view.size) =
      InPlace.outcome (c.window call.output view.size) (.ok view.toArray) := by
    rw [hread.toArray.2]
    rw [hread.size] at hsize ⊢
    exact run_receive h hw hsize
  have hwritten := written_onArray hrun
  rw [not_null_of_imp houtput, if_neg Bool.false_ne_true] at hwritten
  rw [perform_eq ((load_eq hview _ _).trans (if_neg hroom.not_gt)) hwritten]
  cases call.counted <;> rfl

end View

/-- What was copied is a block of the buffer. -/
theorem copied_withWindow {view : View α} (hsize : view.toArray.size = view.size)
    (hreach : c.Reaches call.output view.size) :
    call.Copied c view { c.withWindow call.output view.toArray with
      cell := if call.counted then view.size else c.cell } := by
  cases houtput : call.output with
  | none =>
      refine ⟨rfl, rfl, rfl, fun first hfirst => ?_, fun _ _ => rfl⟩
      rw [houtput] at hfirst
      exact absurd hfirst (Option.not_mem_none first)
  | some offset =>
      rcases hreach offset houtput with hzero | hroom
      · -- The pointer may lead anywhere, but nothing is written behind it.
        have hempty : view.toArray = #[] := Array.eq_empty_of_size_eq_zero (hsize.trans hzero)
        have hbuffer := replaceBlock_empty c.buffer offset
        rw [hempty]
        refine ⟨rfl, rfl, congrArg Array.size hbuffer, fun first _ => ?_,
          fun p _ => congrArg (·[p]?) hbuffer⟩
        rw [hzero, Nat.add_zero, hempty]
        exact Array.extract_empty_of_stop_le_start le_rfl
      · rw [← hsize] at hroom
        refine ⟨rfl, rfl, Store.size_replaceBlock hroom, fun first hfirst => ?_, fun p hp => ?_⟩
        · obtain rfl : offset = first := Option.some.inj (houtput.symm.trans hfirst)
          have hblock := Store.extract_replaceBlock hroom
          rwa [hsize] at hblock
        · have houtside := hp offset houtput
          exact (Store.getElem?_replaceBlock hroom p).trans (if_neg (by omega))

/-! ### The protocol -/

/-- A zero step is the only thing that keeps a slice from being resolved. -/
theorem step_of_error {a : Array α} {e : SliceError}
    (hview : View.ofSlice a call.slice.get = .error e) :
    e = .zeroStep ∧ call.slice.step.present ≠ 0 ∧ call.slice.step.value = 0 := by
  rw [View.ofSlice_eq] at hview
  cases hresolve : call.slice.get.resolve a.size with
  | ok n => rw [hresolve] at hview; cases hview
  | error e' =>
      rw [hresolve] at hview
      cases hview
      obtain ⟨hstep, he⟩ := Slice.resolve_eq_error_iff.mp hresolve
      exact ⟨he, OptionalIndex.get_eq_some_iff.mp hstep⟩

/-- **Every load is answered** in one of the ways of the protocol. -/
theorem perform_answers (h : call.Valid c) :
    call.Answers c (call.perform c).1 (call.perform c).2 := by
  by_cases hnull : call.data = none ∧ call.len ≠ 0
  · rw [perform_nullData hnull.1 hnull.2]
    exact .nullData hnull.1 hnull.2
  have hdata : call.data = none → call.len = 0 := fun hnone =>
    by_contra fun hlen => hnull ⟨hnone, hlen⟩
  cases hofSlice : View.ofSlice (c.window call.data call.len) call.slice.get with
  | error e =>
      obtain ⟨rfl, hstep⟩ := step_of_error hofSlice
      rw [perform_error hdata hofSlice]
      exact .zeroStep hdata hstep
  | ok view =>
      have hview : call.Selects c view := ⟨hdata, hofSlice⟩
      rcases Nat.lt_or_ge call.capacity view.size with hsmall | hroom
      · rw [perform_tooSmall hview hsmall]
        exact .tooSmall hview hsmall
      by_cases hoff : call.output = none ∧ 0 < view.size
      · rw [perform_nullOutput hview hroom hoff.1 hoff.2]
        exact .nullOutput hview hroom hoff.1 hoff.2
      · have houtput : call.output = none → view.size = 0 := by
          intro hnone
          have hnot : ¬ 0 < view.size := fun hsome => hoff ⟨hnone, hsome⟩
          omega
        have hreach : c.Reaches call.output view.size := h.output.mono hroom
        obtain ⟨items, len, -, -, hread⟩ := View.exists_readAs hofSlice
        rw [perform_copied hview hroom hreach houtput]
        exact .copied hview hroom houtput (copied_withWindow hread.size_toArray hreach)

namespace Answers

variable {status : Status} {after : Loader α} (h : call.Answers c status after)
include h

/-- Without success, the output is as it was. -/
theorem caller_eq (hstatus : status ≠ .ok) : after.toCaller = c.toCaller := by
  cases h with
  | nullData | zeroStep | tooSmall | nullOutput => rfl
  | copied => exact absurd rfl hstatus

/-- The array is as it was. -/
theorem window_eq (hvalid : call.Valid c) :
    after.window call.data call.len = c.window call.data call.len := by
  cases h with
  | nullData | zeroStep | tooSmall | nullOutput => rfl
  | copied hview hroom houtput hcopied =>
      cases hdata : call.data with
      | none => rfl
      | some first =>
          refine Array.ext_getElem? fun i => ?_
          rw [Caller.window, Caller.window, Array.getElem?_extract, Array.getElem?_extract,
            hcopied.size]
          split_ifs with hi
          · -- The output does not reach into the array.
            refine hcopied.others (first + i) fun offset hoffset => ?_
            have hapart := hvalid.apart first hdata offset hoffset i (by omega)
            omega
          · rfl

/-- A call that is refused for want of room says how much it needs. -/
theorem of_tooSmall (hstatus : status = .outputTooSmall) :
    ∃ view, call.Selects c view ∧ after = call.report c view.size := by
  cases h with
  | nullData | zeroStep | nullOutput | copied => cases hstatus
  | tooSmall hview => exact ⟨_, hview, rfl⟩

/-- With enough room in an output that is not null, a view is copied. -/
theorem ok_of_room {view : View α} (hview : call.Selects c view)
    (hroom : view.size ≤ call.capacity) (houtput : call.output ≠ none) :
    status = .ok ∧ call.Copied c view after := by
  cases h with
  | nullData hdata hlen => exact absurd (hview.data hdata) hlen
  | zeroStep hdata hstep => exact absurd hstep hview.not_zeroStep
  | tooSmall hview' hsmall =>
      obtain rfl := hview.unique hview'
      omega
  | nullOutput hview' hroom' hnull => exact absurd hnull houtput
  | copied hview' hroom' houtput' hcopied =>
      obtain rfl := hview.unique hview'
      exact ⟨rfl, hcopied⟩

end Answers

/-- The same load once more, with an output that has room for `count` elements. -/
structure Retries (again call : LoadCall) (count : Nat) : Prop where
  data : again.data = call.data
  len : again.len = call.len
  slice : again.slice = call.slice
  output : again.output ≠ none
  room : count ≤ again.capacity

end LoadCall

/-- **The protocol of loads**, for all elements, all memory and all arguments. Every call is
answered in one of five ways, which are told apart by the pointers, the step, the number of
selected positions and the room for them, in this order. Unless it succeeds, the output is as
it was, and the array always is. A caller who was refused for want of room and was told the
number of positions may make room for them and call again: as long as the array is the same,
that call succeeds and reports the same number. -/
theorem load_protocol (c : Loader α) (call : LoadCall) (h : call.Valid c) :
    call.Answers c (call.perform c).1 (call.perform c).2 ∧
      ((call.perform c).1 ≠ .ok → (call.perform c).2.toCaller = c.toCaller) ∧
      (call.perform c).2.window call.data call.len = c.window call.data call.len ∧
      ((call.perform c).1 = .outputTooSmall → call.counted = true →
        ∀ (c' : Loader α) (again : LoadCall), again.Retries call (call.perform c).2.cell →
          again.Valid c' → c'.window call.data call.len = c.window call.data call.len →
          (again.perform c').1 = .ok ∧
            (again.counted = true →
              (again.perform c').2.cell = (call.perform c).2.cell)) := by
  have hanswers := LoadCall.perform_answers h
  refine ⟨hanswers, hanswers.caller_eq, hanswers.window_eq h,
    fun hsmall hcounted c' again hagain hvalid hwindow => ?_⟩
  obtain ⟨view, hview, hafter⟩ := hanswers.of_tooSmall hsmall
  have hcell : (call.perform c).2.cell = view.size := by
    rw [hafter, LoadCall.report, if_pos hcounted]
  -- The same elements and the same slice make the same view, wherever its copy goes.
  have hview' : again.Selects c' view := by
    refine ⟨?_, ?_⟩
    · rw [hagain.data, hagain.len]
      exact hview.data
    · rw [hagain.data, hagain.len, hagain.slice, hwindow]
      exact hview.view
  have hroom : view.size ≤ again.capacity := hcell.symm.trans_le hagain.room
  obtain ⟨hok, hcopied⟩ :=
    (LoadCall.perform_answers hvalid).ok_of_room hview' hroom hagain.output
  refine ⟨hok, fun hcounted' => ?_⟩
  rw [hcell, hcopied.cell, if_pos hcounted']

/-- A caller with room for two elements is told that there are three, and gets them with room
for three. -/
theorem load_protocol_two_calls :
    let c : Loader Int8 := ⟨⟨#[0, 1, 2, 3, 4, 5, 6, 7, -1, -1, -1], ⟨0, 0, 1, 0⟩⟩, 0⟩
    let call : LoadCall := ⟨some 0, 8, ⟨⟨0, 0⟩, ⟨0, 0⟩, ⟨1, -3⟩⟩, some 8, 2, true⟩
    call.Valid c ∧ (call.perform c).1 = .outputTooSmall ∧ (call.perform c).2.cell = 3 ∧
      (LoadCall.perform (call.perform c).2 { call with capacity := 3 }).1 = .ok := by
  intro c call
  have hvalid : call.Valid c := by
    refine ⟨?_, ?_, ?_⟩ <;> simp [Caller.Reaches, c, call]; omega
  have hwindow : c.window call.data call.len = #[0, 1, 2, 3, 4, 5, 6, 7] := rfl
  have hslice : call.slice.get = ⟨none, none, some (-3)⟩ := rfl
  have hview : call.Selects c ⟨#[0, 1, 2, 3, 4, 5, 6, 7], ⟨7, -1, -3, 3⟩⟩ :=
    ⟨nofun, by rw [hwindow, hslice]; rfl⟩
  have hsmall : call.perform c = (.outputTooSmall, call.report c 3) :=
    LoadCall.perform_tooSmall hview (by decide)
  have hretry : LoadCall.Retries { call with capacity := 3 } call 3 :=
    ⟨rfl, rfl, rfl, Option.some_ne_none 8, le_rfl⟩
  have hvalid' : LoadCall.Valid { call with capacity := 3 } (call.report c 3) := by
    refine ⟨?_, ?_, ?_⟩ <;> simp [Caller.Reaches, LoadCall.report, c, call]; omega
  obtain ⟨-, -, -, hagain⟩ := load_protocol c call hvalid
  rw [hsmall] at hagain ⊢
  exact ⟨hvalid, rfl, rfl, (hagain rfl rfl _ _ hretry hvalid' rfl).1⟩

end StridedSlice.Foreign
