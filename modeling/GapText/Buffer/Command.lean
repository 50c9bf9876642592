import GapText.Buffer.Edit

/-!
# What can be asked of a buffer

The edits and moves of one buffer as data, so that a whole history of them is a list. A command
whose place is out of range is refused, and the buffer stays as it is.
-/

namespace GapText

namespace Buffer

inductive Command where
  /-- Text in the internal form. -/
  | insert (c : Int) (s : Bytes)
  | insertExternal (c : Int) (s : Bytes)
  | delete (p q : Int)
  | narrow (p q : Int)
  | erase
  | widen
  | moveGap (c : Int)
  /-- Puts the point at a place of the text. -/
  | goTo (c : Int)
deriving DecidableEq, Repr

def run (b : Buffer) : Command → Except RangeError (Logged Buffer)
  | .insert c s => b.insert c s
  | .insertExternal c s => b.insertExternal c s
  | .delete p q => b.delete p q
  | .narrow p q => (b.narrow p q).map pure
  | .erase => .ok b.erase
  | .widen => .ok (pure b.widen)
  | .moveGap c => .ok (b.moveGap c)
  | .goTo c => .ok (pure (b.setPoint (b.position c)))

/-- The buffer after a command, refused or not. -/
def after (b : Buffer) (c : Command) : Logged Buffer :=
  match b.run c with
  | .ok x => x
  | .error _ => pure b

end Buffer

end GapText
