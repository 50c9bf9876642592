import GapText.Buffer.Command
import GapText.Overlay.Overlaid

/-!
# Workspaces

A workspace holds several buffers over one slot table, several arenas for their overlays, and a few
markers. Buffers and arenas are known by number; a buffer that was killed leaves a number that is
not used again.
-/

namespace GapText

structure Workspace where
  slots : Slots := {}
  arenas : Array Arena
  buffers : Array (Option Buffer)
  markers : Array Marker
deriving DecidableEq, Repr

namespace Workspace

/-- A workspace with one empty buffer. -/
def start (multibyte : Bool) (arenas markers : Nat) : Workspace where
  arenas := Array.replicate arenas {}
  buffers := #[some { multibyte }]
  markers := Array.replicate markers {}

/-! ## Parts -/

def buffer? (w : Workspace) (b : BufferId) : Option Buffer := (w.buffers[b]?).join

def setBuffer (w : Workspace) (b : BufferId) (buf : Buffer) : Workspace :=
  { w with buffers := w.buffers.setIfInBounds b (some buf) }

def dropBuffer (w : Workspace) (b : BufferId) : Workspace :=
  { w with buffers := w.buffers.setIfInBounds b none }

def addBuffer (w : Workspace) (multibyte : Bool) : Workspace :=
  { w with buffers := w.buffers.push (some { multibyte }) }

def arena? (w : Workspace) (a : ArenaId) : Option Arena := w.arenas[a]?

def setArena (w : Workspace) (a : ArenaId) (arena : Arena) : Workspace :=
  { w with arenas := w.arenas.setIfInBounds a arena }

/-- A buffer seen with an arena. -/
def overlaid? (w : Workspace) (a : ArenaId) (b : BufferId) : Option Overlaid := do
  return ⟨← w.arena? a, ← w.buffer? b⟩

def setOverlaid (w : Workspace) (a : ArenaId) (b : BufferId) (o : Overlaid) : Workspace :=
  (w.setArena a o.arena).setBuffer b o.buffer

def marker (w : Workspace) (m : Nat) : Marker := w.markers.getD m {}

def setMarker (w : Workspace) (m : Nat) (marker : Marker) : Workspace :=
  { w with markers := w.markers.setIfInBounds m marker }

/-! ## Operations across parts -/

/-- Gives a slot a value local to a buffer. -/
def setLocal (w : Workspace) (b : BufferId) (index : Int) (value : Int8) :
    Option (Outcome Workspace Unit) := do
  let buf ← w.buffer? b
  match buf.flags.assign w.slots index value with
  | .error f => return .stop w f
  | .ok flags => return .done (w.setBuffer b { buf with flags }) ()

/-- A marker at a place of a buffer; without a buffer, or in one that is gone, it points nowhere. -/
def markerIn (w : Workspace) (b : Option BufferId) (p : Position) : Marker :=
  match b with
  | none => .nowhere
  | some b =>
    match w.buffer? b with
    | none => .nowhere
    | some buf => .inBuffer b buf.last p

/-- An operation on a buffer seen with an arena. -/
def onOverlaid {α : Type} (w : Workspace) (a : ArenaId) (b : BufferId)
    (f : Overlaid → Outcome Overlaid α) : Option (Outcome Workspace α) :=
  (w.overlaid? a b).map fun o => (f o).within (w.setOverlaid a b)

/-- Deletes an overlay, whichever buffer it belongs to. One that is detached already is left as it
is. -/
def deleteOverlay (w : Workspace) (a : ArenaId) (id : Int) :
    Option (Outcome Workspace Unit) := do
  let arena ← w.arena? a
  match arena.get id with
  | .error f => return .stop w f
  | .ok r =>
    match r.start.buffer with
    | none => return .done w ()
    | some b => w.onOverlaid a b (·.unlink id)

/-- Ends a buffer; its overlays are detached first. -/
def killBuffer (w : Workspace) (b : BufferId) : Option (Outcome Workspace Unit) := do
  let buf ← w.buffer? b
  match buf.overlays.arena with
  | none => return .done (w.dropBuffer b) ()
  | some a => (w.onOverlaid a b Overlaid.clear).map (·.within (·.dropBuffer b))

end Workspace

end GapText
