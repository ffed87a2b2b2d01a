import TreeControl.Trace.Event

/-! # Traced computations

A computation together with the events it reports, in order.  The events never influence the
value: `value_bind` and `events_bind` describe the two components of a sequence.  A traced
computation that may fail is an `ExceptT ε Traced α`; it keeps the events before the failure. -/

namespace TreeControl

/-- A value and the events reported while computing it. -/
structure Traced (α : Type) where
  value : α
  events : List Event := []

namespace Traced

variable {α β : Type}

instance : Monad Traced where
  pure a := ⟨a, []⟩
  bind x f := ⟨(f x.value).value, x.events ++ (f x.value).events⟩

@[simp] theorem value_pure (a : α) : (pure a : Traced α).value = a := rfl

@[simp] theorem events_pure (a : α) : (pure a : Traced α).events = [] := rfl

@[simp] theorem value_bind (x : Traced α) (f : α → Traced β) :
    (x >>= f).value = (f x.value).value := rfl

@[simp] theorem events_bind (x : Traced α) (f : α → Traced β) :
    (x >>= f).events = x.events ++ (f x.value).events := rfl

theorem ext {x y : Traced α} (hv : x.value = y.value) (he : x.events = y.events) : x = y := by
  cases x; cases y; cases hv; cases he; rfl

instance : LawfulMonad Traced :=
  LawfulMonad.mk' Traced (fun _ => ext rfl (List.append_nil _)) (fun _ _ => rfl)
    (fun _ _ _ => ext rfl (List.append_assoc ..))

/-- Reports one event. -/
def emit (e : Event) : Traced Unit := ⟨(), [e]⟩

/-- Reports several events. -/
def emitAll (es : List Event) : Traced Unit := ⟨(), es⟩

end Traced

/-- A traced computation that may fail. -/
abbrev Attempt (ε α : Type) := ExceptT ε Traced α

namespace Attempt

variable {ε ε' α β : Type}

/-- How the attempt ends. -/
def outcome (x : Attempt ε α) : Except ε α := x.run.value

/-- What the attempt reports. -/
def events (x : Attempt ε α) : List Event := x.run.events

/-- An attempt that reports nothing. -/
def ofExcept (x : Except ε α) : Attempt ε α := ExceptT.mk (pure x)

/-- Reports one event in an attempt. -/
def emit (e : Event) : Attempt ε Unit := ExceptT.lift (Traced.emit e)

/-! ### How attempts end -/

@[simp] theorem outcome_pure (a : α) : outcome (pure a : Attempt ε α) = .ok a := rfl

@[simp] theorem outcome_throw (e : ε) : outcome (throw e : Attempt ε α) = .error e := rfl

@[simp] theorem outcome_ofExcept (x : Except ε α) : outcome (ofExcept x) = x := rfl

@[simp] theorem outcome_emit (e : Event) : outcome (emit e : Attempt ε Unit) = .ok () := rfl

@[simp] theorem outcome_lift (x : Traced α) :
    outcome (ExceptT.lift x : Attempt ε α) = .ok x.value := rfl

@[simp] theorem outcome_adapt (x : Attempt ε α) (f : ε → ε') :
    outcome (ExceptT.adapt f x) = x.outcome.mapError f := rfl

/-- An attempt after another is made only if that one succeeds. -/
@[simp] theorem outcome_bind (x : Attempt ε α) (f : α → Attempt ε β) :
    outcome (x >>= f) = x.outcome >>= fun a => outcome (f a) := by
  show (ExceptT.bindCont f x.run.value).value = _
  unfold outcome
  cases x.run.value <;> rfl

/-! ### What attempts report -/

@[simp] theorem events_pure (a : α) : events (pure a : Attempt ε α) = [] := rfl

@[simp] theorem events_throw (e : ε) : events (throw e : Attempt ε α) = [] := rfl

@[simp] theorem events_ofExcept (x : Except ε α) : events (ofExcept x) = [] := rfl

@[simp] theorem events_emit (e : Event) : events (emit e : Attempt ε Unit) = [e] := rfl

@[simp] theorem events_lift (x : Traced α) :
    events (ExceptT.lift x : Attempt ε α) = x.events := List.append_nil x.events

@[simp] theorem events_adapt (x : Attempt ε α) (f : ε → ε') :
    events (ExceptT.adapt f x) = x.events := List.append_nil x.events

end Attempt

end TreeControl
