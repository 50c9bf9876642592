import GapText.Buffer.Command
import GapText.Viewer.Keys

/-!
# What can be asked of a viewer

Everything that changes a viewer, as data: loading and marking, keys and drawing, and commands to
its buffer. Files are read from a tree that stays the same.
-/

namespace GapText

namespace Viewer

inductive Command where
  | load (s : Bytes)
  | loadFile (path : Bytes)
  | mark (word : Bytes)
  | press (key : Int)
  | interact (keys : List Int)
  | moveLeft
  | moveRight
  | render
  | edit (c : Buffer.Command)
deriving DecidableEq, Repr

inductive Answer where
  | done
  /-- So many matches were marked, or so many keys were read. -/
  | count (n : Nat)
  /-- The file was read, or was refused. -/
  | file (e : Option ReadError)
  /-- An edit took place, or was refused. -/
  | judged (e : Option RangeError)
deriving DecidableEq, Repr

def run (v : Viewer) (files : FileTree) : Command → Logged (Viewer × Answer)
  | .load s => (·, .done) <$> v.loadBytes s
  | .loadFile path => do
    match ← v.load files path with
    | .ok v => return (v, .file none)
    | .error e => return (v, .file (some e))
  | .mark word => (fun (v, n) => (v, .count n)) <$> v.markMatches word
  | .press key => (·, .done) <$> v.press key
  | .interact keys => (fun (v, n) => (v, .count n)) <$> v.interact keys
  | .moveLeft => pure (v.moveLeft, .done)
  | .moveRight => pure (v.moveRight, .done)
  | .render => pure (v.render, .done)
  | .edit c =>
    match v.buffer.run c with
    | .ok x => (fun b => (v.setBuffer b, .judged none)) <$> x
    | .error e => pure (v, .judged (some e))

end Viewer

end GapText
