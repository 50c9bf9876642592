/-!
# Positions

Places in a text lie between its characters and are counted from one, in characters or in bytes:
position `p` is before the `p`-th character or byte, and the last position is one past the number of
them. There is no position zero, but numbers outside the text occur where a caller asks for a place
that does not exist, so a position is any integer.
-/

namespace GapText

/-- One place, counted both ways. -/
structure Position where
  /-- The place counted in characters. -/
  char : Int
  /-- The place counted in bytes. -/
  byte : Int
deriving DecidableEq, Repr

/-- The start of every text. -/
def Position.first : Position := ⟨1, 1⟩

end GapText
