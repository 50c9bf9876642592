import GapText.Gap
import GapText.Overlay.Arena
import GapText.Slots

/-!
# Buffers

A buffer is a text with the places in it that are kept up to date: the point, the limits of the
accessible part, the gap and the end, each counted in characters and in bytes. In a multibyte buffer
the bytes of the text are the forms of its characters; in a unibyte buffer every byte is a
character.

The byte positions of the gap and of the end are those of the gap buffer; only their character
positions are kept here.
-/

namespace GapText

structure Buffer where
  multibyte : Bool := true
  text : GapBuffer := .empty
  point : Position := .first
  /-- The start of the accessible part. -/
  lower : Position := .first
  /-- The end of the accessible part. -/
  upper : Position := .first
  /-- The end of the text. -/
  endChar : Int := 1
  /-- The place of the gap. -/
  gapChar : Int := 1
  /-- Counts the edits, from one. -/
  tick : Int := 1
  /-- The tick of the last edit that changed characters. -/
  charsTick : Int := 1
  overlays : Chains := {}
  flags : LocalFlags := {}
  /-- Set when a change may show in more places than where it was made. -/
  redrawAll : Bool := false
deriving DecidableEq, Repr

namespace Buffer

/-- The end of the text, counted both ways. -/
def last (b : Buffer) : Position := ⟨b.endChar, b.text.endPos⟩

/-- The place of the gap, counted both ways. -/
def gap (b : Buffer) : Position := ⟨b.gapChar, b.text.gapPos⟩

/-- The point is where it is said to be; nothing is checked. -/
def setPoint (b : Buffer) (p : Position) : Buffer := { b with point := p }

def setLower (b : Buffer) (p : Position) : Buffer := { b with lower := p }

def setUpper (b : Buffer) (p : Position) : Buffer := { b with upper := p }

end Buffer

end GapText
