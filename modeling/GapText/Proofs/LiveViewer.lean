import GapText.Proofs.LiveOverlays
import GapText.Proofs.LiveText
import GapText.Viewer.Command

/-!
# Viewers with the log at hand

Loading, marking and keys, step by step. No fault comes up in a viewer, since its overlays never
leave its one arena; where a fault could come from, the operation goes on after it, as the function
does.
-/

namespace GapText.Live.View

variable (v : Viewer)

/-! ## Steps -/

def onPage {α : Type} (x : Live Overlaid α) : Live Viewer α :=
  within (·.page) (fun v page => { v with page }) x

def onBuffer {α : Type} (x : Live Buffer α) : Live Viewer α :=
  within (·.buffer) Viewer.setBuffer x

/-- The same step for one thing after the other. -/
def forEach {σ β : Type} (x : β → Live σ Unit) : List β → Live σ Unit
  | [] => return ()
  | b :: bs => do
    x b
    forEach x bs

def refuse {σ : Type} (e : ReadError) : Live σ (Except ReadError Bytes) := do
  report (.fileRefused e.message)
  return .error e

/-- Reads a file; only one that is not empty is reported as read. -/
def read {σ : Type} (t : FileTree) (path : Bytes) : Live σ (Except ReadError Bytes) :=
  match t.find? path with
  | none => refuse (.cannotOpen path)
  | some (.file content) =>
    if content = [] then return .ok content
    else do
      report (.fileRead path content.length)
      return .ok content
  | some _ => refuse (.notRegular path)

def startOver : Live Overlaid Unit := do
  settle clear
  onArena (settle reclaim)
  within (·.buffer) (fun o buffer => { o with buffer }) Text.erase

def loadBytes (s : Bytes) : Live Viewer Unit := do
  onPage startOver
  match ← onBuffer (Text.run (.insertExternal 1 s)) with
  | some e => change fun v => { v with message := e.message }
  | none => change fun v => v.setBuffer (v.buffer.setPoint .first)

def load (t : FileTree) (path : Bytes) : Live Viewer (Option ReadError) := do
  match ← read t path with
  | .error e => return some e
  | .ok s => do
    loadBytes s
    return none

def markBytes (lo hi : Int) : Live Overlaid Unit := do
  let b := (← look).buffer
  settle (make 0 0 (b.toChar lo) (b.toChar hi) [(Bytes.ascii "face", Bytes.ascii "match")])

def markMatches (word : Bytes) : Live Viewer Nat :=
  if word.isEmpty then return 0
  else do
    let b := (← look).buffer
    let inner := b.internalForm word
    let found := Bytes.matchesFrom inner 0 0 b.text.toList
    onPage (forEach (fun (i : Nat) => markBytes (i + 1) (i + 1 + inner.length)) found)
    report (.matchesMarked word found.length)
    return found.length

def deleteOverlays (ids : List Int) : Live Overlaid Unit :=
  forEach
    (fun id => do
      if ((← look).arena.find? id).any Overlay.isAttached then settle (unlink id) else return ())
    ids

def perform : Action → Live Viewer Unit
  | .left => change Viewer.moveLeft
  | .right => change Viewer.moveRight
  | .deleteHere => do
    let ids := (← look).overlaysHere
    onPage (deleteOverlays ids)
    change (·.say (Bytes.ascii "deleted " ++ Bytes.digits ids.length ++ Bytes.ascii " overlays"))
  | .deleteAll => do
    onPage (settle clear)
    change (·.say (Bytes.ascii "deleted all overlays"))
  | .recenter => do
    let p := (← look).buffer.point.char
    onPage (settle (recenter p))
    change (·.say (Bytes.ascii "recentered at " ++ Bytes.decimal p))
  | .nextTab => do
    let width := Viewer.tabAfter (← look).localTab
    change fun v => { v with localTab := width }.setTabFlag 1
    change (·.say (Bytes.ascii "local tab-width " ++ Bytes.decimal width))
  | .resetTab => do
    change (·.setTabFlag 0)
    change (·.say (Bytes.ascii "tab-width " ++ Bytes.decimal Viewer.defaultTab))
  | .quit => change fun v => { v with quitting := true }

def press (key : Int) : Live Viewer Unit := do
  change (·.say [])
  match Action.ofKey key with
  | some action => perform action
  | none => return ()

def interact : List Int → Live Viewer Nat
  | [] => do
    if (← look).quitting then return 0
    else do
      change Viewer.render
      press Viewer.quitKey
      return 1
  | key :: rest => do
    if (← look).quitting then return 0
    else do
      change Viewer.render
      press key
      let n ← interact rest
      return n + 1

def run (t : FileTree) : Viewer.Command → Live Viewer Viewer.Answer
  | .load s => answer (loadBytes s) fun _ => .done
  | .loadFile path => answer (load t path) .file
  | .mark word => answer (markMatches word) .count
  | .press key => answer (press key) fun _ => .done
  | .interact keys => answer (interact keys) .count
  | .moveLeft => answer (change Viewer.moveLeft) fun _ => .done
  | .moveRight => answer (change Viewer.moveRight) fun _ => .done
  | .render => answer (change Viewer.render) fun _ => .done
  | .edit c => answer (onBuffer (Text.run c)) .judged

/-! ## What they come to -/

/-- What an operation comes to that no fault can stop, and that leaves a state and an answer. -/
def ofReply {σ α : Type} (x : Logged (σ × α)) : Outcome σ α := ⟨x.value.1, .ok x.value.2, x.events⟩

theorem plays_forEach {σ β : Type} {x : β → Live σ Unit} {f : σ → β → Logged σ}
    (hx : ∀ b s, Plays (x b) s (.ofLogged (f s b) ())) : ∀ (bs : List β) (s : σ),
      Plays (forEach x bs) s (.ofLogged (bs.foldlM f s) ())
  | [], s => plays_pure s ()
  | b :: bs, s => by
      rw [List.foldlM_cons]
      exact (hx b s).then (plays_forEach hx bs _)

theorem plays_read {σ : Type} (s : σ) (t : FileTree) (path : Bytes) :
    Plays (read t path) s ⟨s, .ok (t.read path).value, (t.read path).events⟩ := by
  unfold read FileTree.read
  rcases t.find? path with _ | content | _ | _
  · exact plays_report_bind (plays_pure s _)
  · show Plays (if content = [] then _ else _) s ⟨s, .ok (Except.ok content),
      (if content ≠ [] then [Event.fileRead path content.length] else []) ++ []⟩
    by_cases hempty : content = []
    · rw [if_pos hempty, if_neg (not_not_intro hempty)]
      exact plays_pure s _
    · rw [if_neg hempty, if_pos hempty]
      exact plays_report_bind (plays_pure s _)
  · exact plays_report_bind (plays_pure s _)
  · exact plays_report_bind (plays_pure s _)

theorem plays_onPage {α : Type} {x : Live Overlaid α} {y : Outcome Overlaid α}
    (hx : Plays x v.page y) : Plays (onPage x) v (y.within fun page => { v with page }) :=
  Plays.within hx

theorem plays_onBuffer {α : Type} {x : Live Buffer α} {y : Outcome Buffer α}
    (hx : Plays x v.buffer y) : Plays (onBuffer x) v (y.within v.setBuffer) :=
  Plays.within hx

/-- A page without text, overlays and records. -/
def blank (o : Overlaid) : Logged Overlaid := do
  let o ← o.clear.settle
  let arena ← o.arena.reclaim.settle
  return ⟨arena, ← o.buffer.erase⟩

theorem blank_bind {α : Type} (o : Overlaid) (f : Overlaid → Logged α) :
    (do
      let o ← o.clear.settle
      let arena ← o.arena.reclaim.settle
      f ⟨arena, ← o.buffer.erase⟩) = blank o >>= f := by
  simp only [blank, bind_assoc, pure_bind]

theorem plays_startOver (o : Overlaid) : Plays startOver o (.ofLogged (blank o) ()) :=
  (plays_clear o).settle.then
    ((plays_reclaim _).settle.thenWithin (Text.plays_erase _).withinLogged)

theorem loadBytes_eq (s : Bytes) :
    v.loadBytes s = do
      let page ← blank v.page
      match page.buffer.insertExternal 1 s with
      | .error e => return { v with page, message := e.message }
      | .ok inserted => return { v with page }.setBuffer ((← inserted).setPoint .first) := by
  rw [← blank_bind]
  rfl

theorem plays_loadBytes (s : Bytes) : Plays (loadBytes s) v (.ofLogged (v.loadBytes s) ()) := by
  rw [loadBytes_eq]
  refine (plays_startOver v.page).thenWithin ?_
  generalize (blank v.page).value = page
  have hinsert := plays_onBuffer { v with page } (Text.plays_run page.buffer (.insertExternal 1 s))
  cases hr : page.buffer.insertExternal 1 s with
  | error e =>
      rw [Buffer.run, hr] at hinsert
      exact hinsert.andThen (plays_change _ _)
  | ok x =>
      rw [Buffer.run, hr] at hinsert
      exact hinsert.andThen (plays_change _ _)

/-- What loading a file comes to; one that can not be read leaves the viewer as it is. -/
def loaded (v : Viewer) (x : Logged (Except ReadError Viewer)) :
    Outcome Viewer (Option ReadError) :=
  match x.value with
  | .ok v => ⟨v, .ok none, x.events⟩
  | .error e => ⟨v, .ok (some e), x.events⟩

theorem plays_load (t : FileTree) (path : Bytes) :
    Plays (load t path) v (loaded v (v.load t path)) := by
  have hread := plays_read v t path
  unfold Viewer.load
  generalize t.read path = r at hread ⊢
  obtain ⟨content, es⟩ := r
  cases content with
  | error e => exact hread.andThen (plays_pure v (some e))
  | ok s => exact hread.andThen ((plays_loadBytes v s).andThen (plays_pure _ none))

/-! ### Marks -/

theorem plays_markBytes (o : Overlaid) (lo hi : Int) :
    Plays (markBytes lo hi) o (.ofLogged (Viewer.markBytes o lo hi) ()) :=
  plays_look_bind (plays_make o 0 0 _ _ _).settle

theorem plays_markMatches (word : Bytes) :
    Plays (markMatches word) v (ofReply (v.markMatches word)) := by
  unfold markMatches Viewer.markMatches
  split
  · exact plays_pure v 0
  · apply plays_look_bind
    refine Plays.andThen (plays_onPage v (plays_forEach (fun i o => plays_markBytes o _ _) _ _)) ?_
    exact plays_report_bind (plays_pure _ _)

theorem plays_deleteOverlays (o : Overlaid) (ids : List Int) :
    Plays (deleteOverlays ids) o (.ofLogged (Viewer.deleteOverlays o ids) ()) := by
  refine plays_forEach (fun id o => plays_look_bind ?_) ids o
  cases hr : o.arena.find? id with
  | none => exact plays_pure o ()
  | some r =>
      split
      · exact (plays_unlink (Arena.get_of_find? hr)).settle
      · exact plays_pure o ()

/-! ### Keys -/

theorem plays_perform (a : Action) : Plays (perform a) v (.ofLogged (v.perform a) ()) := by
  cases a with
  | left => exact plays_change _ v
  | right => exact plays_change _ v
  | deleteHere =>
      apply plays_look_bind
      exact (plays_deleteOverlays v.page _).thenWithin (plays_change _ _)
  | deleteAll => exact (plays_clear v.page).settle.thenWithin (plays_change _ _)
  | recenter =>
      apply plays_look_bind
      exact (plays_recenter v.page _).settle.thenWithin (plays_change _ _)
  | nextTab => exact plays_look_bind (plays_change_bind (plays_change _ _))
  | resetTab => exact plays_change_bind (plays_change _ _)
  | quit => exact plays_change _ v

theorem plays_press (key : Int) : Plays (press key) v (.ofLogged (v.press key) ()) := by
  apply plays_change_bind
  unfold Viewer.press
  dsimp only
  cases Action.ofKey key with
  | none => exact plays_pure _ ()
  | some a => exact plays_perform _ a

theorem plays_interact : ∀ (keys : List Int) (v : Viewer),
    Plays (interact keys) v (ofReply (v.interact keys))
  | [], v => by
      apply plays_look_bind
      unfold Viewer.interact
      split
      · exact plays_pure v 0
      · apply plays_change_bind
        exact (plays_press _ _).andThen (plays_pure _ _)
  | key :: rest, v => by
      apply plays_look_bind
      unfold Viewer.interact
      split
      · exact plays_pure v 0
      · apply plays_change_bind
        exact (plays_press _ _).andThen ((plays_interact rest _).andThen (plays_pure _ _))

theorem ofReply_map {σ τ α : Type} (f : τ → σ × α) (x : Logged τ) :
    ofReply (f <$> x) = ⟨(f x.value).1, .ok (f x.value).2, x.events⟩ := by
  unfold ofReply
  rw [Logged.events_map]
  rfl

theorem plays_loadFile (t : FileTree) (path : Bytes) :
    Plays (answer (load t path) Viewer.Answer.file) v (ofReply (v.run t (.loadFile path))) := by
  have hplays := (plays_load v t path).answer Viewer.Answer.file
  rw [Viewer.run]
  generalize v.load t path = x at hplays ⊢
  obtain ⟨r, es⟩ := x
  refine hplays.congr ?_
  cases r with
  | error e => exact congrArg (Outcome.mk v _) (List.append_nil es).symm
  | ok v' => exact congrArg (Outcome.mk v' _) (List.append_nil es).symm

theorem plays_edit (t : FileTree) (c : Buffer.Command) :
    Plays (answer (onBuffer (Text.run c)) Viewer.Answer.judged) v
      (ofReply (v.run t (.edit c))) := by
  have hplays := (plays_onBuffer v (Text.plays_run v.buffer c)).answer Viewer.Answer.judged
  rw [Viewer.run]
  cases hr : v.buffer.run c with
  | error e =>
      rw [hr] at hplays
      exact hplays
  | ok x =>
      rw [hr] at hplays
      dsimp only
      rw [ofReply_map]
      exact hplays

theorem plays_run (t : FileTree) (k : Viewer.Command) :
    Plays (run t k) v (ofReply (v.run t k)) := by
  cases k with
  | load s =>
      rw [Viewer.run, ofReply_map]
      exact (plays_loadBytes v s).answer _
  | loadFile path => exact plays_loadFile v t path
  | mark word =>
      rw [Viewer.run, ofReply_map]
      exact (plays_markMatches v word).answer _
  | press key =>
      rw [Viewer.run, ofReply_map]
      exact (plays_press v key).answer _
  | interact keys =>
      rw [Viewer.run, ofReply_map]
      exact (plays_interact keys v).answer _
  | moveLeft => exact (plays_change _ v).answer _
  | moveRight => exact (plays_change _ v).answer _
  | render => exact (plays_change _ v).answer _
  | edit c => exact plays_edit v t c

end GapText.Live.View
