import GapText.Position

/-!
# Markers

A marker is a place in one buffer, or it points nowhere. It remembers numbers and is not moved by
edits; a place beyond the text is brought back to the text when the marker is set.
-/

namespace GapText

/-- A buffer's number among the buffers of its workspace. -/
abbrev BufferId := Nat

structure Marker where
  /-- The buffer pointed into. -/
  buffer : Option BufferId := none
  place : Position := .first
deriving DecidableEq, Repr, Inhabited

/-- The place itself when it lies in a text that ends at `last`, else the nearer end of that text.
Only the character position decides. -/
def Position.clip (p last : Position) : Position :=
  let p := if p.char < 1 then .first else p
  if last.char < p.char then last else p

namespace Marker

/-- A marker that points nowhere. -/
def nowhere : Marker := {}

/-- A marker at a place of buffer `b`, whose text ends at `last`. -/
def inBuffer (b : BufferId) (last p : Position) : Marker := ⟨some b, p.clip last⟩

def char? (m : Marker) : Option Int := m.buffer.map fun _ => m.place.char

def byte? (m : Marker) : Option Int := m.buffer.map fun _ => m.place.byte

end Marker

end GapText
