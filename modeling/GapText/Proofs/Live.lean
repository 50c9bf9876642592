import GapText.Log.Logger

/-!
# Operations that write to the log as they run

Elsewhere an operation is a function, and what it reports becomes records afterwards: it can not so
much as know that there is a log. Here the logger is at hand all the time. Before a message is
composed the logger is asked for the level; a message is composed piece by piece from the state as
it then is; and a piece may look up something that is missing, which is logged in its turn and stops
the operation in the middle of the message (`Live.message`). So there are many ways in which a log
level could make a difference, from a record too many to another state.

`Plays x s o` says that it makes none: from the state `s`, whatever the logger, the operation `x`
leaves the state and the result of `o`, and of what `o` reports exactly the records that the logger
lets through. It is proved along the operation, one rule for each way of putting operations
together.
-/

namespace GapText

instance : LawfulMonad Logged :=
  LawfulMonad.mk' Logged (fun x => congrArg (Logged.mk x.value) (List.append_nil x.events))
    (fun _ _ => rfl) fun _ _ _ => congrArg (Logged.mk _) (List.append_assoc _ _ _)

/-- What is left when an operation has run, or was stopped. -/
structure Turn (σ α : Type) where
  logger : Logger
  state : σ
  result : Except Fault α

/-- An operation on a state of type `σ`, with a logger at hand. -/
def Live (σ α : Type) : Type := Logger → σ → Turn σ α

namespace Live

variable {σ τ α β : Type}

instance : Monad (Live σ) where
  pure a := fun g s => ⟨g, s, .ok a⟩
  bind x k := fun g s =>
    match (x g s).result with
    | .ok a => k a (x g s).logger (x g s).state
    | .error f => ⟨(x g s).logger, (x g s).state, .error f⟩

/-! ## Single steps -/

def look : Live σ σ := fun g s => ⟨g, s, .ok s⟩

def change (f : σ → σ) : Live σ Unit := fun g s => ⟨g, f s, .ok ()⟩

/-- Stops, without a word. -/
def raise (f : Fault) : Live σ α := fun g s => ⟨g, s, .error f⟩

def enabled (l : Level) : Live σ Bool := fun g s => ⟨g, s, .ok (g.enabled l)⟩

def log (r : Record) : Live σ Unit := fun g s => ⟨g.write r, s, .ok ()⟩

/-! ## Messages -/

/-- The text of the pieces up to the first one that can not be had, and why that one can not. -/
def compose (s : σ) : List (σ → Except Fault Bytes) → Bytes × Option Fault
  | [] => ([], none)
  | piece :: pieces =>
    match piece s with
    | .error f => ([], some f)
    | .ok text => (text ++ (compose s pieces).1, (compose s pieces).2)

/-- Logs a message, which is composed only for a level that is enabled. When a piece of it can not
be had, that is logged first, then the message as far as it goes, and the operation stops. -/
def message (l : Level) (pieces : List (σ → Except Fault Bytes)) : Live σ Unit := do
  if ← enabled l then
    match compose (← look) pieces with
    | (text, none) => log ⟨l, text⟩
    | (text, some f) => do
      log (Event.stopped f).record
      log ⟨l, text⟩
      raise f
  else return ()

/-- Logs a message of which every piece can be had. -/
def report (e : Event) : Live σ Unit := message e.level [fun _ => .ok e.text]

/-- Stops, and says so first. -/
def stop (f : Fault) : Live σ α := do
  report (.stopped f)
  raise f

/-- Looks up something that may be missing. -/
def demand (r : σ → Except Fault α) : Live σ α := do
  match r (← look) with
  | .ok a => return a
  | .error f => stop f

/-! ## Operations on a part -/

/-- An operation on a part of the state. -/
def within (get : τ → σ) (put : τ → σ → τ) (x : Live σ α) : Live τ α := fun g t =>
  let turn := x g (get t)
  ⟨turn.logger, put t turn.state, turn.result⟩

/-- An operation on a part that it leaves as it is. -/
def peek (get : τ → σ) (x : Live σ α) : Live τ α := within get (fun t _ => t) x

/-- The same operation with its result in another form. -/
def answer (x : Live σ α) (f : α → β) : Live σ β := do return f (← x)

/-- Goes on after a fault. -/
def settle (x : Live σ α) : Live σ Unit := fun g s =>
  let turn := x g s
  ⟨turn.logger, turn.state, .ok ()⟩

/-! ## What operations come to -/

/-- The logger makes no difference to `x`, and `x` none to the records of `o`. -/
def Plays (x : Live σ α) (s : σ) (o : Outcome σ α) : Prop :=
  ∀ g, x g s = ⟨g.writeAll o.events, o.state, o.result⟩

theorem writeAll_append (g : Logger) (es fs : List Event) :
    g.writeAll (es ++ fs) = (g.writeAll es).writeAll fs := List.foldl_append

variable {x : Live σ α} {k : α → Live σ β} {s : σ} {o : Outcome σ α} {e : Event}

theorem Plays.congr {o' : Outcome σ α} (h : Plays x s o) (ho : o = o') : Plays x s o' := ho ▸ h

theorem plays_pure (s : σ) (a : α) : Plays (pure a) s (.done s a) := fun _ => rfl

theorem plays_change (f : σ → σ) (s : σ) : Plays (change f) s (.done (f s) ()) := fun _ => rfl

/-- One operation and then another, which may depend on the result of the first. -/
theorem Plays.bind {h : σ → α → Outcome σ β} (hx : Plays x s o)
    (hk : ∀ a, o.result = .ok a → Plays (k a) o.state (h o.state a)) :
    Plays (x >>= k) s (o.andThen h) := by
  intro g
  obtain ⟨s', r, es⟩ := o
  show (match (x g s).result with
    | .ok a => k a (x g s).logger (x g s).state
    | .error f => ⟨(x g s).logger, (x g s).state, .error f⟩ : Turn σ β) = _
  rw [hx g]
  cases r with
  | error f => rfl
  | ok a =>
      show k a (g.writeAll es) s' = _
      rw [hk a rfl]
      show (⟨((g.writeAll es).writeAll _), _, _⟩ : Turn σ β) = _
      rw [← writeAll_append]
      rfl

theorem plays_look_bind {k : σ → Live σ β} {o : Outcome σ β} (hk : Plays (k s) s o) :
    Plays (look >>= k) s o := fun g => hk g

theorem plays_change_bind {k : Unit → Live σ β} {f : σ → σ} {o : Outcome σ β}
    (hk : Plays (k ()) (f s) o) : Plays (change f >>= k) s o := fun g => hk g

/-- After an operation that was not stopped. -/
theorem Plays.andThen {s' s'' : σ} {a : α} {es fs : List Event} {r : Except Fault β}
    (hx : Plays x s (.done s' a es)) (hk : Plays (k a) s' ⟨s'', r, fs⟩) :
    Plays (x >>= k) s ⟨s'', r, es ++ fs⟩ :=
  hx.bind (h := fun _ _ => ⟨s'', r, fs⟩) fun _ ha => by cases ha; exact hk

/-- After an operation that was stopped nothing follows. -/
theorem Plays.andThen_stop {s' : σ} {f : Fault} {es : List Event}
    (hx : Plays x s (.stop s' f es)) : Plays (x >>= k) s (.stop s' f es) :=
  hx.bind (h := fun _ _ => .stop s' f es) fun _ ha => by cases ha

/-- After something was asked for; an operation that gets no answer stops there. -/
theorem Plays.bind_read {r : Except Fault α} {o : Outcome σ β} (hx : Plays x s (.read s r))
    (hstop : ∀ f, r = .error f → o = .stop s f) (hk : ∀ a, r = .ok a → Plays (k a) s o) :
    Plays (x >>= k) s o := by
  cases r with
  | error f =>
      rw [hstop f rfl]
      exact hx.andThen_stop
  | ok a => exact hx.andThen (hk a rfl)

/-! ### Messages -/

/-- A record whose level is not enabled changes nothing. -/
theorem write_of_not_enabled {g : Logger} {r : Record} (h : g.enabled r.level = false) :
    g.write r = g := by
  simp [Logger.write, h]

/-- A message of which every piece can be had makes no difference, enabled or not. -/
theorem plays_message {l : Level} {pieces : List (σ → Except Fault Bytes)} (hlevel : e.level = l)
    (htext : compose s pieces = (e.text, none)) : Plays (message l pieces) s (.done s () [e]) := by
  intro g
  subst hlevel
  show (message e.level pieces : Live σ Unit) g s = ⟨g.write e.record, s, .ok ()⟩
  cases henabled : g.enabled e.level with
  | true => simp [message, bind, enabled, look, log, henabled, htext, Event.record]
  | false =>
      rw [write_of_not_enabled henabled]
      simp [message, bind, pure, enabled, henabled]

theorem plays_report (s : σ) (e : Event) : Plays (report e) s (.done s () [e]) :=
  plays_message rfl (by simp [compose])

theorem plays_report_bind {k : Unit → Live σ β} {s' : σ} {r : Except Fault β} {es : List Event}
    (hk : Plays (k ()) s ⟨s', r, es⟩) : Plays (report e >>= k) s ⟨s', r, e :: es⟩ :=
  (plays_report s e).andThen hk

theorem plays_stop (s : σ) (f : Fault) : Plays (stop f : Live σ α) s (.stop s f) :=
  plays_report_bind (r := .error f) fun _ => rfl

theorem plays_demand (r : σ → Except Fault α) (s : σ) : Plays (demand r) s (.read s (r s)) := by
  apply plays_look_bind
  cases r s with
  | ok a => exact plays_pure s a
  | error f => exact plays_stop s f

/-- What is not missing is looked up without a word. -/
theorem plays_demand_bind {r : σ → Except Fault α} {a : α} {o : Outcome σ β} (hr : r s = .ok a)
    (hk : Plays (k a) s o) : Plays (demand r >>= k) s o := by
  have hx := plays_demand r s
  rw [hr] at hx
  exact hx.andThen hk

theorem plays_demand_bind_stop {r : σ → Except Fault α} {f : Fault} (hr : r s = .error f) :
    Plays (demand r >>= k) s (.stop s f) := by
  have hx := plays_demand r s
  rw [hr] at hx
  exact hx.andThen_stop

/-! ### Parts -/

theorem Plays.within {get : τ → σ} {put : τ → σ → τ} {t : τ} (hx : Plays x (get t) o) :
    Plays (within get put x) t (o.within (put t)) := by
  intro g
  show (⟨(x g (get t)).logger, put t (x g (get t)).state, (x g (get t)).result⟩ : Turn τ α) = _
  rw [hx g]
  rfl

/-- What only looks at a part leaves the whole as it is. -/
theorem Plays.within_read {get : τ → σ} {put : τ → σ → τ} {t : τ} {r : Except Fault α}
    (hx : Plays x (get t) (.read (get t) r)) (hput : put t (get t) = t) :
    Plays (Live.within get put x) t (.read t r) := by
  refine Plays.congr (Plays.within hx) ?_
  cases r with
  | error f => exact congrArg (Outcome.stop · f) hput
  | ok a => exact congrArg (Outcome.done · a) hput

theorem Plays.peek {get : τ → σ} {t : τ} {r : Except Fault α}
    (hx : Plays x (get t) (.read (get t) r)) : Plays (peek get x) t (.read t r) :=
  hx.within_read rfl

theorem Plays.answer (hx : Plays x s o) (f : α → β) : Plays (answer x f) s (o.answering f) := by
  have hplays := hx.bind (h := fun s a => .done s (f a)) fun a _ => plays_pure _ (f a)
  obtain ⟨s', r, es⟩ := o
  cases r with
  | error e => exact hplays
  | ok a =>
      refine hplays.congr ?_
      show (⟨s', .ok (f a), es ++ []⟩ : Outcome σ β) = ⟨s', .ok (f a), es⟩
      rw [List.append_nil]

theorem Plays.settle (hx : Plays x s o) : Plays (settle x) s (.ofLogged o.settle ()) := by
  intro g
  show (⟨(x g s).logger, (x g s).state, .ok ()⟩ : Turn σ Unit) = _
  rw [hx g]
  rfl

/-! ### Operations that no fault can stop -/

theorem Plays.withinLogged {get : τ → σ} {put : τ → σ → τ} {t : τ} {y : Logged σ} {a : α}
    (hx : Plays x (get t) (.ofLogged y a)) :
    Plays (Live.within get put x) t (.ofLogged (put t <$> y) a) := by
  have hevents : (put t <$> y).events = y.events := Logged.events_map _ _
  unfold Outcome.ofLogged
  rw [hevents]
  exact hx.within

/-- One after the other, in the way of `Logged`. -/
theorem Plays.then {y : Logged σ} {f : σ → Logged σ} {a : α} {b : β}
    (hx : Plays x s (.ofLogged y a))
    (hk : Plays (k a) y.value (.ofLogged (f y.value) b)) :
    Plays (x >>= k) s (.ofLogged (y >>= f) b) :=
  Plays.andThen hx hk

/-- The same, when the first one is an operation on a part. -/
theorem Plays.thenWithin {get : τ → σ} {put : τ → σ → τ} {t : τ} {k : α → Live τ β} {y : Logged σ}
    {f : σ → Logged τ} {a : α} {b : β} (hx : Plays x (get t) (.ofLogged y a))
    (hk : Plays (k a) (put t y.value) (.ofLogged (f y.value) b)) :
    Plays (Live.within get put x >>= k) t (.ofLogged (y >>= f) b) :=
  Plays.andThen hx.within hk

end Live

end GapText
