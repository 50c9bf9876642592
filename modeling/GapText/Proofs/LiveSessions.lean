import GapText.Display.Render
import GapText.Proofs.Index
import GapText.Proofs.LiveOverlays
import GapText.Proofs.LiveText
import GapText.Workspace.Command

/-!
# Sessions with the log at hand

The commands and questions that a workspace takes, step by step. A command that names a buffer or an
arena which does not exist is no operation at all, with a log or without one.
-/

namespace GapText.Live.Session

variable {w : Workspace}

/-! ## Commands -/

def onBuffer {α : Type} (b : BufferId) (x : Live Buffer α) : Live Workspace α :=
  within (fun w => (w.buffer? b).getD {}) (fun w => w.setBuffer b) x

def onArena {α : Type} (a : ArenaId) (x : Live Arena α) : Live Workspace α :=
  within (fun w => (w.arena? a).getD {}) (fun w => w.setArena a) x

def onOverlaid {α : Type} (w : Workspace) (a : ArenaId) (b : BufferId) (x : Live Overlaid α) :
    Option (Live Workspace α) :=
  (w.overlaid? a b).map fun _ =>
    within (fun w => (w.overlaid? a b).getD {}) (fun w => w.setOverlaid a b) x

def setLocal (w : Workspace) (b : BufferId) (index : Int) (value : Int8) :
    Option (Live Workspace Unit) :=
  (w.buffer? b).map fun buf => do
    let flags ← demand fun w => buf.flags.assign w.slots index value
    change (·.setBuffer b { buf with flags })

/-- The overlay is looked up before the buffer that it belongs to is. -/
def deleteOverlay (w : Workspace) (a : ArenaId) (id : Int) : Option (Live Workspace Unit) := do
  let arena ← w.arena? a
  match arena.get id with
  | .error f => return stop f
  | .ok r =>
    match r.start.buffer with
    | none => return pure ()
    | some b => onOverlaid w a b (unlink id)

/-- The buffer is gone in the end, also when its overlays could not all be detached. -/
def killBuffer (w : Workspace) (b : BufferId) : Option (Live Workspace Unit) := do
  let buf ← w.buffer? b
  match buf.overlays.arena with
  | none => return change (·.dropBuffer b)
  | some a => (onOverlaid w a b clear).map (within id fun _ w => w.dropBuffer b)

def run (w : Workspace) : Workspace.Command → Option (Live Workspace Workspace.Answer)
  | .register name =>
    some (answer (within (·.slots) (fun w slots => { w with slots }) (registerSlot name))
      (.number ·))
  | .testLocal b index =>
    (w.buffer? b).map fun buf => demand fun w => (buf.flags.test w.slots index).map .flag
  | .setLocal b index value => (setLocal w b index value).map (answer · fun _ => .done)
  | .resetLocal b =>
    (w.buffer? b).map fun buf => do
      change (·.setBuffer b { buf with flags := {} })
      return .done
  | .setMarker m b p => some do
    change fun w => w.setMarker m (w.markerIn b p)
    return .done
  | .newBuffer multibyte => some do
    let n := (← look).buffers.size
    change (·.addBuffer multibyte)
    return .number n
  | .killBuffer b => (killBuffer w b).map (answer · fun _ => .done)
  | .edit b c => (w.buffer? b).map fun _ => answer (onBuffer b (Text.run c)) .judged
  | .makeOverlay a b p q props => (onOverlaid w a b (make b a p q props)).map (answer · .number)
  | .linkOverlay a b id => (onOverlaid w a b (link id)).map (answer · fun _ => .done)
  | .deleteOverlay a id => (deleteOverlay w a id).map (answer · fun _ => .done)
  | .putProperty a id name value =>
    (w.arena? a).map fun _ => answer (onArena a (putProperty id name value)) .properties
  | .deleteAll a b => (onOverlaid w a b clear).map (answer · fun _ => .done)
  | .recenter a b p => (onOverlaid w a b (recenter p)).map (answer · fun _ => .done)
  | .reclaim a => (w.arena? a).map fun _ => answer (onArena a reclaim) (.number ·)

/-- An operation, if its names are known, and what it comes to. -/
def Resolved {α : Type} (w : Workspace) (x : Option (Live Workspace α))
    (y : Option (Outcome Workspace α)) : Prop :=
  Option.Rel (fun x o => Plays x w o) x y

theorem resolved_map {α β : Type} {r : Option β} {x : β → Live Workspace α}
    {h : β → Outcome Workspace α} (hx : ∀ b, r = some b → Plays (x b) w (h b)) :
    Resolved w (r.map x) (r.map h) := by
  cases r with
  | none => exact .none
  | some b => exact .some (hx b rfl)

theorem Resolved.answer {α β : Type} {x : Option (Live Workspace α)}
    {y : Option (Outcome Workspace α)} (hx : Resolved w x y) (f : α → β) :
    Resolved w (x.map (Live.answer · f)) (y.map (·.answering f)) := by
  cases hx with
  | none => exact .none
  | some hplays => exact .some (hplays.answer f)

theorem Resolved.within {α : Type} {x : Option (Live Workspace α)}
    {y : Option (Outcome Workspace α)} (hx : Resolved w x y) (put : Workspace → Workspace) :
    Resolved w (x.map (Live.within id fun _ => put)) (y.map (·.within put)) := by
  cases hx with
  | none => exact .none
  | some hplays => exact .some (Plays.within hplays)

theorem resolved_onOverlaid {α : Type} {a : ArenaId} {b : BufferId} {x : Live Overlaid α}
    {f : Overlaid → Outcome Overlaid α} (hx : ∀ o, w.overlaid? a b = some o → Plays x o (f o)) :
    Resolved w (onOverlaid w a b x) (w.onOverlaid a b f) := by
  refine resolved_map fun o ho => ?_
  apply Plays.within
  rw [ho]
  exact hx o ho

theorem plays_onArena {α : Type} {a : ArenaId} {arena : Arena} {x : Live Arena α}
    {y : Outcome Arena α} (ha : w.arena? a = some arena) (hx : Plays x arena y) :
    Plays (onArena a x) w (y.within (w.setArena a)) := by
  apply Plays.within
  rw [ha]
  exact hx

theorem plays_onBuffer {α : Type} {b : BufferId} {buf : Buffer} {x : Live Buffer α}
    {y : Outcome Buffer α} (hb : w.buffer? b = some buf) (hx : Plays x buf y) :
    Plays (onBuffer b x) w (y.within (w.setBuffer b)) := by
  apply Plays.within
  rw [hb]
  exact hx

theorem plays_edit {b : BufferId} {buf : Buffer} (hb : w.buffer? b = some buf)
    (c : Buffer.Command) :
    Plays (answer (onBuffer b (Text.run c)) Workspace.Answer.judged) w
      (match buf.run c with
        | .ok x => .ofLogged (w.setBuffer b <$> x) (.judged none)
        | .error e => .done w (.judged (some e))) := by
  have hplays := (plays_onBuffer hb (Text.plays_run buf c)).answer Workspace.Answer.judged
  cases hr : buf.run c with
  | error e =>
      rw [hr] at hplays
      refine hplays.congr ?_
      show (⟨w.setBuffer b buf, _, _⟩ : Outcome Workspace Workspace.Answer) = _
      rw [Workspace.setBuffer_of_buffer? hb]
      rfl
  | ok x =>
      rw [hr] at hplays
      refine hplays.congr ?_
      show (⟨w.setBuffer b x.value, .ok (.judged none), x.events⟩ :
        Outcome Workspace Workspace.Answer) = ⟨_, _, (w.setBuffer b <$> x).events⟩
      rw [Logged.events_map]
      rfl

theorem resolved_setLocal (w : Workspace) (b : BufferId) (index : Int) (value : Int8) :
    Resolved w (setLocal w b index value) (w.setLocal b index value) := by
  unfold setLocal Workspace.setLocal
  cases w.buffer? b with
  | none => exact .none
  | some buf =>
      cases hf : buf.flags.assign w.slots index value with
      | error f =>
          simp only [bind, Option.bind, hf]
          exact .some (plays_demand_bind_stop hf)
      | ok flags =>
          simp only [bind, Option.bind, hf]
          exact .some (plays_demand_bind hf (plays_change _ _))

theorem resolved_deleteOverlay (w : Workspace) (a : ArenaId) (id : Int) :
    Resolved w (deleteOverlay w a id) (w.deleteOverlay a id) := by
  unfold deleteOverlay Workspace.deleteOverlay
  cases ha : w.arena? a with
  | none => exact .none
  | some arena =>
      cases hid : arena.get id with
      | error f =>
          simp only [bind, Option.bind, hid]
          exact .some (plays_stop w f)
      | ok r =>
          cases hb : r.start.buffer with
          | none =>
              simp only [bind, Option.bind, hid, hb]
              exact .some (plays_pure w ())
          | some b =>
              simp only [bind, Option.bind, hid, hb]
              refine resolved_onOverlaid fun o ho => ?_
              have harena : o.arena = arena := by
                have hfound := (Workspace.overlaid?_eq_some.mp ho).1
                rw [ha] at hfound
                exact (Option.some.inj hfound).symm
              exact plays_unlink (harena ▸ hid)

theorem resolved_killBuffer (w : Workspace) (b : BufferId) :
    Resolved w (killBuffer w b) (w.killBuffer b) := by
  unfold killBuffer Workspace.killBuffer
  cases hb : w.buffer? b with
  | none => exact .none
  | some buf =>
      cases ha : buf.overlays.arena with
      | none =>
          simp only [bind, Option.bind, ha]
          exact .some (plays_change _ w)
      | some a =>
          simp only [bind, Option.bind, ha]
          exact (resolved_onOverlaid fun o _ => plays_clear o).within (·.dropBuffer b)

theorem resolves (w : Workspace) (k : Workspace.Command) : Resolved w (run w k) (w.run k) := by
  cases k with
  | register name => exact .some ((plays_registerSlot w.slots name).within.answer _)
  | testLocal b index => exact resolved_map fun buf _ => plays_demand _ w
  | setLocal b index value => exact (resolved_setLocal w b index value).answer _
  | resetLocal b => exact resolved_map fun buf _ => plays_change_bind (plays_pure _ _)
  | setMarker m b p => exact .some (plays_change_bind (plays_pure _ _))
  | newBuffer multibyte => exact .some (plays_look_bind (plays_change_bind (plays_pure _ _)))
  | killBuffer b => exact (resolved_killBuffer w b).answer _
  | edit b c => exact resolved_map fun buf hb => plays_edit hb c
  | makeOverlay a b p q props =>
      exact (resolved_onOverlaid fun o _ => plays_make o b a p q props).answer _
  | linkOverlay a b id => exact (resolved_onOverlaid fun o _ => plays_link o id).answer _
  | deleteOverlay a id => exact (resolved_deleteOverlay w a id).answer _
  | putProperty a id name value =>
      exact resolved_map fun arena ha =>
        (plays_onArena ha (plays_putProperty arena id name value)).answer _
  | deleteAll a b => exact (resolved_onOverlaid fun o _ => plays_clear o).answer _
  | recenter a b p => exact (resolved_onOverlaid fun o _ => plays_recenter o p).answer _
  | reclaim a =>
      exact resolved_map fun arena ha => (plays_onArena ha (plays_reclaim arena)).answer _

/-! ## Questions -/

/-- What can be asked of a session without changing it, as far as there may be no answer. -/
inductive Question where
  | slotName (index : Int)
  | overlay (a : ArenaId) (id : Int)
  | property (a : ArenaId) (id : Int) (name : Bytes)
  | overlaysAt (a : ArenaId) (b : BufferId) (p : Int)
  | lists (a : ArenaId) (b : BufferId)
  | status (a : ArenaId) (b : BufferId)
  | draw (a : ArenaId) (b : BufferId) (tabWidth : Int) (s : Screen) (v : Viewport)
    (message : Bytes)

inductive Fact where
  | text (s : Bytes)
  | value (v : Option Bytes)
  | overlay (r : Overlay)
  | ids (l : List Int)
  | lists (l : List Int × List Int)
  | screen (drawn : Screen × Viewport)

/-- The answer, if the names of the question are known. -/
def Question.answer? (w : Workspace) : Question → Option (Except Fault Fact)
  | .slotName index => some ((w.slots.name index).map .text)
  | .overlay a id => (w.arena? a).map fun arena => (arena.get id).map .overlay
  | .property a id name => (w.arena? a).map fun arena => (arena.property? id name).map .value
  | .overlaysAt a b p => (w.overlaid? a b).map fun o => (o.overlaysAt p).map .ids
  | .lists a b => (w.overlaid? a b).map fun o => o.chains.map .lists
  | .status a b => (w.overlaid? a b).map fun o => (Display.statusLine o).map .text
  | .draw a b tabWidth s v message =>
    (w.overlaid? a b).map fun o => (Display.render tabWidth s o v message).map .screen

def askArena {α : Type} (w : Workspace) (a : ArenaId) (x : Live Arena α) :
    Option (Live Workspace α) :=
  (w.arena? a).map fun _ => peek (fun w => (w.arena? a).getD {}) x

def askOverlaid {α : Type} (w : Workspace) (a : ArenaId) (b : BufferId) (x : Live Overlaid α) :
    Option (Live Workspace α) :=
  (w.overlaid? a b).map fun _ => peek (fun w => (w.overlaid? a b).getD {}) x

def ask (w : Workspace) : Question → Option (Live Workspace Fact)
  | .slotName index => some (answer (demand (·.slots.name index)) .text)
  | .overlay a id => askArena w a (answer (record id) .overlay)
  | .property a id name => askArena w a (answer (property id name) .value)
  | .overlaysAt a b p => askOverlaid w a b (answer (overlaysAt p) .ids)
  | .lists a b => askOverlaid w a b (answer chains .lists)
  | .status a b => askOverlaid w a b (answer (demand Display.statusLine) .text)
  | .draw a b tabWidth s v message =>
    askOverlaid w a b (answer (demand (Display.render tabWidth s · v message)) .screen)

theorem plays_told {σ α β : Type} {x : Live σ α} {s : σ} {r : Except Fault α}
    (hx : Plays x s (.read s r)) (f : α → β) : Plays (answer x f) s (.read s (r.map f)) := by
  have hplays := hx.answer f
  cases r with
  | error e => exact hplays
  | ok a => exact hplays

theorem resolved_askArena {α : Type} {a : ArenaId} {x : Live Arena α}
    {r : Arena → Except Fault α} (hx : ∀ arena, Plays x arena (.read arena (r arena))) :
    Resolved w (askArena w a x) (((w.arena? a).map r).map (.read w)) := by
  unfold askArena
  cases ha : w.arena? a with
  | none => exact .none
  | some arena =>
      refine .some (Plays.peek ?_)
      rw [ha]
      exact hx arena

theorem resolved_askOverlaid {α : Type} {a : ArenaId} {b : BufferId} {x : Live Overlaid α}
    {r : Overlaid → Except Fault α} (hx : ∀ o, Plays x o (.read o (r o))) :
    Resolved w (askOverlaid w a b x) (((w.overlaid? a b).map r).map (.read w)) := by
  unfold askOverlaid
  cases ho : w.overlaid? a b with
  | none => exact .none
  | some o =>
      refine .some (Plays.peek ?_)
      rw [ho]
      exact hx o

theorem resolves_ask (w : Workspace) (q : Question) :
    Resolved w (ask w q) ((q.answer? w).map (.read w)) := by
  cases q with
  | slotName index => exact .some (plays_told (plays_demand _ w) _)
  | overlay a id => exact resolved_askArena fun arena => plays_told (plays_demand _ arena) _
  | property a id name =>
      exact resolved_askArena fun arena => plays_told (plays_property arena id name) _
  | overlaysAt a b p => exact resolved_askOverlaid fun o => plays_told (plays_overlaysAt o p) _
  | lists a b => exact resolved_askOverlaid fun o => plays_told (plays_chains o) _
  | status a b => exact resolved_askOverlaid fun o => plays_told (plays_demand _ o) _
  | draw a b tabWidth s v message =>
      exact resolved_askOverlaid fun o => plays_told (plays_demand _ o) _

end GapText.Live.Session
