import GapText.Buffer.Scan

/-!
# Characters and bytes

Converting a place counted in characters to one counted in bytes, and back. Where every character
is one byte the two are the same number. Elsewhere the text is walked, from whichever of four known
places is nearest: the start, the point, the gap and the end. Which one it is makes no difference to
the answer.
-/

namespace GapText

namespace Buffer

/-- True when every character of the text is one byte. -/
def isSingleByte (b : Buffer) : Bool := !b.multibyte || b.endChar == b.text.endPos

/-- The places known both ways. -/
def landmarks (b : Buffer) : List Position := [.first, b.point, b.gap, b.last]

/-- The landmark nearest to a target, counted by `key`; the first of several. -/
def nearest (b : Buffer) (key : Position → Int) (target : Int) : Position :=
  b.landmarks.foldl
    (fun best p => if (key p - target).natAbs < (key best - target).natAbs then p else best) .first

def advance (b : Buffer) : Nat → Int → Int
  | 0, p => p
  | n + 1, p => advance b n (b.next p)

def retreat (b : Buffer) : Nat → Int → Int
  | 0, p => p
  | n + 1, p => retreat b n (b.prev p)

/-- The byte position of a character position. -/
def toByte (b : Buffer) (c : Int) : Int :=
  if b.isSingleByte then c
  else
    let p := b.nearest Position.char c
    if p.char ≤ c then b.advance (c - p.char).toNat p.byte
    else b.retreat (p.char - c).toNat p.byte

def advanceTo (b : Buffer) (target : Int) : Nat → Position → Position
  | 0, p => p
  | n + 1, p =>
    if p.byte < target then advanceTo b target n ⟨p.char + 1, b.next p.byte⟩ else p

def retreatTo (b : Buffer) (target : Int) : Nat → Position → Position
  | 0, p => p
  | n + 1, p =>
    if target < p.byte then retreatTo b target n ⟨p.char - 1, b.prev p.byte⟩ else p

/-- The character position of a byte position; inside a character, that of the character. -/
def toChar (b : Buffer) (q : Int) : Int :=
  if b.isSingleByte then q
  else
    let p := b.nearest Position.byte q
    let p := b.advanceTo q (q - p.byte).toNat p
    (b.retreatTo q (p.byte - q).toNat p).char

/-- A character position, counted both ways. -/
def position (b : Buffer) (c : Int) : Position := ⟨c, b.toByte c⟩

/-- The bytes between two character positions. -/
def substring (b : Buffer) (lo hi : Int) : Bytes := b.text.slice (b.toByte lo) (b.toByte hi)

end Buffer

end GapText
