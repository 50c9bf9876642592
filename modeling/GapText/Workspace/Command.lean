import GapText.Workspace

/-!
# What can be asked of a workspace

Everything that changes a workspace, as data. A command that names a buffer or an arena which does
not exist has no outcome; one that misuses an index or an overlay's number is stopped by a fault.
-/

namespace GapText

namespace Workspace

inductive Command where
  | register (name : Bytes)
  | testLocal (b : BufferId) (index : Int)
  | setLocal (b : BufferId) (index : Int) (value : Int8)
  | resetLocal (b : BufferId)
  | setMarker (m : Nat) (b : Option BufferId) (p : Position)
  | newBuffer (multibyte : Bool)
  | killBuffer (b : BufferId)
  | edit (b : BufferId) (c : Buffer.Command)
  | makeOverlay (a : ArenaId) (b : BufferId) (p q : Int) (props : Properties)
  | linkOverlay (a : ArenaId) (b : BufferId) (id : Int)
  | deleteOverlay (a : ArenaId) (id : Int)
  | putProperty (a : ArenaId) (id : Int) (name value : Bytes)
  | deleteAll (a : ArenaId) (b : BufferId)
  | recenter (a : ArenaId) (b : BufferId) (p : Int)
  | reclaim (a : ArenaId)
deriving DecidableEq, Repr

/-- What a command answers when no fault stops it. -/
inductive Answer where
  | done
  | flag (b : Bool)
  | number (n : Int)
  | properties (ps : Properties)
  /-- An edit took place, or was refused. -/
  | judged (e : Option RangeError)
deriving DecidableEq, Repr

def run (w : Workspace) : Command → Option (Outcome Workspace Answer)
  | .register name =>
    some (((w.slots.register name).within fun slots => { w with slots }).answering (.number ·))
  | .testLocal b index =>
    (w.buffer? b).map fun buf => .read w ((buf.flags.test w.slots index).map .flag)
  | .setLocal b index value => (w.setLocal b index value).map (·.answering fun _ => .done)
  | .resetLocal b =>
    (w.buffer? b).map fun buf => .done (w.setBuffer b { buf with flags := {} }) .done
  | .setMarker m b p => some (.done (w.setMarker m (w.markerIn b p)) .done)
  | .newBuffer multibyte => some (.done (w.addBuffer multibyte) (.number w.buffers.size))
  | .killBuffer b => (w.killBuffer b).map (·.answering fun _ => .done)
  | .edit b c =>
    (w.buffer? b).map fun buf =>
      match buf.run c with
      | .ok x => .ofLogged (w.setBuffer b <$> x) (.judged none)
      | .error e => .done w (.judged (some e))
  | .makeOverlay a b p q props =>
    (w.onOverlaid a b (·.make b a p q props)).map (·.answering .number)
  | .linkOverlay a b id => (w.onOverlaid a b (·.link id)).map (·.answering fun _ => .done)
  | .deleteOverlay a id => (w.deleteOverlay a id).map (·.answering fun _ => .done)
  | .putProperty a id name value =>
    (w.arena? a).map fun arena =>
      ((arena.putProperty id name value).within (w.setArena a)).answering .properties
  | .deleteAll a b => (w.onOverlaid a b Overlaid.clear).map (·.answering fun _ => .done)
  | .recenter a b p => (w.onOverlaid a b (·.recenter p)).map (·.answering fun _ => .done)
  | .reclaim a =>
    (w.arena? a).map fun arena => (arena.reclaim.within (w.setArena a)).answering (.number ·)

end Workspace

end GapText
