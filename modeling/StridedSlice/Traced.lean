import StridedSlice.Event
/-!
# StridedSlice.Traced

A **traced** computation is an operation of the engine together with what it
logs: the events in order, and the result or the cause of failure. Operations are
written once, as traced computations, and their plain form is the `result`. The
laws `result_bind` and `events_bind` keep the two apart: what is logged never has
an influence on a result.
-/

namespace StridedSlice

/-- The events of an operation, and how it ended. -/
structure Traced (α : Type) where
  /-- What was logged, in order. -/
  events : List Event
  /-- The result, or why there is none. -/
  result : Except SliceError α

namespace Traced

variable {α β : Type}

/-- Succeeds without an event. -/
protected def pure (a : α) : Traced α := ⟨[], .ok a⟩

/-- Goes on with `f` if `x` succeeds; a failure ends the computation. -/
protected def bind (x : Traced α) (f : α → Traced β) : Traced β :=
  match x.result with
  | .error e => ⟨x.events, .error e⟩
  | .ok a => ⟨x.events ++ (f a).events, (f a).result⟩

instance : Monad Traced where
  pure := Traced.pure
  bind := Traced.bind

/-- Logs one event. -/
def emit (e : Event) : Traced Unit := ⟨[e], .ok ()⟩

/-- Logs one event and fails. -/
def refuse (e : Event) (cause : SliceError) : Traced α := ⟨[e], .error cause⟩

@[simp] theorem result_pure (a : α) : (pure a : Traced α).result = .ok a := rfl

@[simp] theorem events_pure (a : α) : (pure a : Traced α).events = [] := rfl

@[simp] theorem result_bind (x : Traced α) (f : α → Traced β) :
    (x >>= f).result = x.result.bind fun a => (f a).result := by
  change (Traced.bind x f).result = _
  unfold Traced.bind
  cases x.result <;> rfl

/-- A computation logs its own events, and then those of what follows, if anything
follows. -/
theorem events_bind (x : Traced α) (f : α → Traced β) :
    (x >>= f).events = x.events ++
      (match x.result with
        | .error _ => []
        | .ok a => (f a).events) := by
  change (Traced.bind x f).events = _
  unfold Traced.bind
  cases x.result <;> simp

@[simp] theorem result_emit (e : Event) : (emit e).result = .ok () := rfl

@[simp] theorem events_emit (e : Event) : (emit e).events = [e] := rfl

@[simp] theorem result_refuse (e : Event) (cause : SliceError) :
    (refuse e cause : Traced α).result = .error cause := rfl

@[simp] theorem events_refuse (e : Event) (cause : SliceError) :
    (refuse e cause : Traced α).events = [e] := rfl

end Traced

namespace Slice

/-- Resolves a slice and logs the outcome: the refused slice with the length as
given, or the resolved values with the length that they were resolved against. -/
def resolveTraced (s : Slice) (len : Nat) : Traced Selection :=
  match s.resolve len with
  | .error cause => .refuse (.zeroStep s len) cause
  | .ok selection => do
      Traced.emit (.resolved s (effectiveLength len) selection)
      pure selection

@[simp] theorem result_resolveTraced (s : Slice) (len : Nat) :
    (s.resolveTraced len).result = s.resolve len := by
  unfold resolveTraced
  cases s.resolve len <;> simp [Except.bind]

end Slice

end StridedSlice
