import GapText.Log.Event

/-!
# Values with the events on the way to them

`Logged α` is a value of `α` together with what was reported while it was computed. Sequencing
joins the reports in order. `Outcome σ α` is for operations that may be stopped by a fault: it holds
the state that is left, also after a fault, since what was done before it stays done.
-/

namespace GapText

/-- A value, and what was reported on the way to it. -/
structure Logged (α : Type) where
  value : α
  events : List Event := []
deriving DecidableEq, Repr

namespace Logged

variable {α β : Type}

/-- Reports one event. -/
def report (e : Event) : Logged Unit := ⟨(), [e]⟩

/-- Reports an event if there is reason to. -/
def reportIf (p : Prop) [Decidable p] (e : Event) : Logged Unit := ⟨(), if p then [e] else []⟩

instance : Monad Logged where
  pure a := ⟨a, []⟩
  bind x f := ⟨(f x.value).value, x.events ++ (f x.value).events⟩

@[simp] theorem value_pure (a : α) : (pure a : Logged α).value = a := rfl

@[simp] theorem value_bind (x : Logged α) (f : α → Logged β) :
    (x >>= f).value = (f x.value).value := rfl

@[simp] theorem value_map (f : α → β) (x : Logged α) : (f <$> x).value = f x.value := rfl

@[simp] theorem events_map (f : α → β) (x : Logged α) : (f <$> x).events = x.events := by
  show x.events ++ [] = x.events
  simp

/-- A fault is reported where it arises. -/
def ofExcept (r : Except Fault α) : Logged (Except Fault α) :=
  match r with
  | .ok a => ⟨.ok a, []⟩
  | .error f => ⟨.error f, [.stopped f]⟩

end Logged

/-- The state that an operation leaves, its result, and what it reported. -/
structure Outcome (σ α : Type) where
  state : σ
  result : Except Fault α
  events : List Event := []

namespace Outcome

variable {σ τ α β : Type}

/-- The operation ran to its end. -/
def done (s : σ) (a : α) (events : List Event := []) : Outcome σ α := ⟨s, .ok a, events⟩

/-- The operation was stopped by `f`, which is the last thing that it reports. -/
def stop (s : σ) (f : Fault) (events : List Event := []) : Outcome σ α :=
  ⟨s, .error f, events ++ [.stopped f]⟩

/-- An operation that leaves the state as it is. -/
def read (s : σ) (r : Except Fault α) : Outcome σ α :=
  match r with
  | .ok a => done s a
  | .error f => stop s f

/-- An operation that no fault can stop. -/
def ofLogged (x : Logged σ) (a : α) : Outcome σ α := ⟨x.value, .ok a, x.events⟩

/-- The same operation as part of a larger state. -/
def within (o : Outcome σ α) (put : σ → τ) : Outcome τ α := ⟨put o.state, o.result, o.events⟩

/-- Goes on with `f` unless a fault stopped the operation. -/
def andThen (o : Outcome σ α) (f : σ → α → Outcome σ β) : Outcome σ β :=
  match o.result with
  | .ok a =>
    let next := f o.state a
    ⟨next.state, next.result, o.events ++ next.events⟩
  | .error e => ⟨o.state, .error e, o.events⟩

/-- The same operation with its result in another form. -/
def answering (o : Outcome σ α) (f : α → β) : Outcome σ β := ⟨o.state, o.result.map f, o.events⟩

/-- What is left and what was reported, whether or not a fault came up. -/
def settle (o : Outcome σ α) : Logged σ := ⟨o.state, o.events⟩

end Outcome

end GapText
