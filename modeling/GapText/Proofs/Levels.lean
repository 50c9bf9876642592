import GapText.Proofs.LiveSessions
import GapText.Proofs.LiveViewer

/-!
# Log levels

A gap buffer, a session and a viewer share one log, and are asked for things in any order. Whatever
is asked, and whatever stops on the way, the level of the log changes neither what is answered nor
what is left; and what is written to the log at one level is what is written at `trace`, without the
records below that level (`World.log_level_silent`). Each request plays what the function of the
same name says (`World.plays_perform`); the rest is an induction over the requests.
-/

namespace GapText

/-- What shares one log. -/
structure World where
  gap : GapBuffer := .empty
  session : Workspace
  viewer : Viewer

namespace World

open Live

/-- A field of a buffer that is set without a check. -/
inductive Setting where
  | point (p : Position)
  | lower (p : Position)
  | upper (p : Position)
  | redrawAll (value : Bool)

def Setting.apply (b : Buffer) : Setting → Buffer
  | .point p => b.setPoint p
  | .lower p => b.setLower p
  | .upper p => b.setUpper p
  | .redrawAll value => { b with redrawAll := value }

inductive Request where
  | gap (c : GapBuffer.Command)
  /-- Replaces one byte of the array. -/
  | poke (offset : Nat) (b : UInt8)
  | session (c : Workspace.Command)
  | set (b : BufferId) (setting : Setting)
  | question (q : Session.Question)
  | viewer (c : Viewer.Command)

/-- What is answered when no fault comes up. A session that does not know a name has no answer. -/
inductive Reply where
  | done
  | session (a : Option Workspace.Answer)
  | fact (f : Option Session.Fact)
  | viewer (a : Viewer.Answer)

/-! ## Requests as functions -/

def inSession {α : Type} (w : World) (o : Option (Outcome Workspace α)) :
    Outcome World (Option α) :=
  match o with
  | none => .done w none
  | some o => (o.answering some).within fun session => { w with session }

def run (files : FileTree) (w : World) : Request → Outcome World Reply
  | .gap c => (Outcome.ofLogged (w.gap.run c) .done).within fun gap => { w with gap }
  | .poke offset b => .done { w with gap := w.gap.writeRaw offset b } .done
  | .session c => (inSession w (w.session.run c)).answering .session
  | .set b setting =>
    (inSession w ((w.session.buffer? b).map fun buf =>
      .done (w.session.setBuffer b (setting.apply buf)) .done)).answering .session
  | .question q => (inSession w ((q.answer? w.session).map (.read w.session))).answering .fact
  | .viewer c => ⟨{ w with viewer := (w.viewer.run files c).value.1 },
      .ok (.viewer (w.viewer.run files c).value.2), (w.viewer.run files c).events⟩

/-- What is reported, what is left and what is answered when one thing after the other is asked
for. -/
def history (files : FileTree) :
    List Request → World → List Event × World × List (Except Fault Reply)
  | [], w => ([], w, [])
  | k :: ks, w =>
    let o := w.run files k
    let rest := history files ks o.state
    (o.events ++ rest.1, rest.2.1, o.result :: rest.2.2)

/-! ## Requests with the log at hand -/

/-- An operation on the session, if the session knows its names. -/
def onSession {α : Type} (x : Workspace → Option (Live Workspace α)) : Live World (Option α) := do
  match x (← look).session with
  | none => return none
  | some x => within (·.session) (fun w session => { w with session }) (answer x some)

def perform (files : FileTree) : Request → Live World Reply
  | .gap c => answer (within (·.gap) (fun w gap => { w with gap }) (Gap.run c)) fun _ => .done
  | .poke offset b =>
    answer (change fun w => { w with gap := w.gap.writeRaw offset b }) fun _ => .done
  | .session c => answer (onSession fun w => Session.run w c) .session
  | .set b setting =>
    answer
      (onSession fun w => (w.buffer? b).map fun buf =>
        answer (change fun w => w.setBuffer b (setting.apply buf)) fun _ => Workspace.Answer.done)
      .session
  | .question q => answer (onSession fun w => Session.ask w q) .fact
  | .viewer c =>
    answer (within (·.viewer) (fun w viewer => { w with viewer }) (View.run files c)) .viewer

/-- One thing after the other is asked for; after a fault, the next. -/
def serve (files : FileTree) :
    List Request → Logger → World → Logger × World × List (Except Fault Reply)
  | [], g, w => (g, w, [])
  | k :: ks, g, w =>
    let turn := perform files k g w
    let rest := serve files ks turn.logger turn.state
    (rest.1, rest.2.1, turn.result :: rest.2.2)

theorem plays_onSession {α : Type} {w : World} {x : Workspace → Option (Live Workspace α)}
    {y : Option (Outcome Workspace α)} (hx : Session.Resolved w.session (x w.session) y) :
    Plays (onSession x) w (inSession w y) := by
  apply plays_look_bind
  generalize x w.session = r at hx ⊢
  cases hx with
  | none => exact plays_pure w none
  | some hplays => exact Plays.within (hplays.answer some)

/-- One request plays what the functions say. -/
theorem plays_perform (files : FileTree) (w : World) (k : Request) :
    Plays (perform files k) w (w.run files k) := by
  cases k with
  | gap c => exact (Plays.within (Gap.plays_run w.gap c)).answer _
  | poke offset b => exact (plays_change _ w).answer _
  | session c => exact (plays_onSession (Session.resolves w.session c)).answer _
  | set b setting =>
      apply Plays.answer
      exact plays_onSession (Session.resolved_map fun buf _ => (plays_change _ _).answer _)
  | question q => exact (plays_onSession (Session.resolves_ask w.session q)).answer _
  | viewer c => exact (Plays.within (View.plays_run w.viewer files c)).answer _

/-- So do all of them, one after the other. -/
theorem serve_eq (files : FileTree) (ks : List Request) (g : Logger) (w : World) :
    serve files ks g w = (g.writeAll (history files ks w).1, (history files ks w).2) := by
  induction ks generalizing g w with
  | nil => rfl
  | cons k ks ih =>
      unfold serve history
      dsimp only
      rw [plays_perform files w k g, ih, writeAll_append]

/-! ## What a level keeps -/

/-- Every record has one of the six levels of records. -/
theorem level_le_fatal (e : Event) : e.level.rank ≤ Level.fatal.rank := by
  cases e <;> dsimp only [Event.level] <;> decide

theorem level_ne_off (e : Event) : e.level ≠ .off := by
  intro h
  have hle := level_le_fatal e
  rw [h] at hle
  exact absurd hle (by decide)

/-- A logger that keeps records keeps of what is reported all that its level lets through. -/
theorem kept_writeAll {g : Logger} (hkeeping : g.keeping = true) (es : List Event) :
    (g.writeAll es).kept =
      g.kept ++ (es.map Event.record).filter fun r => decide (g.threshold.rank ≤ r.level.rank) := by
  induction es generalizing g with
  | nil => simp [Logger.writeAll]
  | cons e es ih =>
      have hoff : (e.record.level != .off) = true := bne_iff_ne.mpr (level_ne_off e)
      show ((g.write e.record).writeAll es).kept = _
      by_cases hlevel : g.threshold.rank ≤ e.record.level.rank
      · have hwrite : g.write e.record = { g with kept := g.kept ++ [e.record] } := by
          simp [Logger.write, Logger.enabled, hlevel, hoff, hkeeping]
        rw [hwrite, ih (g := { g with kept := g.kept ++ [e.record] }) hkeeping]
        simp [hlevel]
      · have hwrite : g.write e.record = g := by
          simp [Logger.write, Logger.enabled, hlevel]
        rw [hwrite, ih hkeeping]
        simp [hlevel]

/-- **The log level is silent.** Whatever is asked of a gap buffer, a session and a viewer, in any
order and with any faults on the way, and whatever the level: the answers, the faults and what is
left are those at `trace`, which are those of the functions; and the records are those at `trace`,
in order and with the same texts, whose level is at or above the given one, so none at `off`. -/
theorem log_level_silent (files : FileTree) (ks : List Request) (w : World) (l : Level) :
    let served (l : Level) := serve files ks { threshold := l, keeping := true } w
    (served l).2 = (served .trace).2 ∧
      (served l).1.kept =
        (served .trace).1.kept.filter (fun r => decide (l.rank ≤ r.level.rank)) ∧
      (served .off).1.kept = [] ∧
      (served .trace).2 = (history files ks w).2 ∧
      (served .trace).1.kept = (history files ks w).1.map Event.record := by
  intro served
  have hserved (l : Level) : served l = _ :=
    serve_eq files ks { threshold := l, keeping := true } w
  have hkept (l : Level) : (served l).1.kept =
      ((history files ks w).1.map Event.record).filter fun r => decide (l.rank ≤ r.level.rank) := by
    rw [hserved]
    exact kept_writeAll rfl _
  have htrace : (served .trace).1.kept = (history files ks w).1.map Event.record := by
    rw [hkept]
    exact List.filter_eq_self.mpr fun r _ => by simp [Level.trace]
  refine ⟨?_, ?_, ?_, ?_, htrace⟩
  · rw [hserved, hserved]
  · rw [hkept, htrace]
  · rw [hkept, List.filter_eq_nil_iff]
    intro r hr
    obtain ⟨e, -, rfl⟩ := List.mem_map.mp hr
    have hlt : e.level.rank < Level.off.rank := UInt8.lt_of_le_of_lt (level_le_fatal e) (by decide)
    show ¬decide (Level.off.rank ≤ e.level.rank) = true
    rw [decide_eq_true_iff]
    exact UInt8.not_le.mpr hlt
  · rw [hserved]

/-- A link that is made and one that can not be made, since the overlay is missing. -/
example :
    let ks : List Request :=
      [.session (.makeOverlay 0 0 1 1 []), .session (.linkOverlay 0 0 5), .gap (.insert 1 [65])]
    let served (l : Level) := serve {} ks { threshold := l, keeping := true }
      { session := .start true 1 0, viewer := .start 2 10 true }
    (served .debug).1.kept =
        [⟨.debug, Bytes.ascii "overlay 0 [1, 1) linked after center 1"⟩,
          ⟨.fatal, Bytes.ascii "no overlay with id 5"⟩] ∧
      (served .fatal).1.kept = [⟨.fatal, Bytes.ascii "no overlay with id 5"⟩] := by
  decide +kernel

end World

end GapText
