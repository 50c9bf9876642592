import GapText.Position
import GapText.Log.Logged

/-!
# The gap buffer

One array holds a text in two pieces with a gap between them, so that an edit next to the gap moves
no text:

    [text before the gap][gap][text after the gap][0]

The first byte of the gap and the last byte of the array are *guards*: both are zero, and since zero
heads a one-byte form, no character is ever read past the end of its piece. The gap is therefore
never empty. Its other bytes are whatever was left there; an edit does not clear them.

The fields are plain data, independent of each other. That they fit together in every state which
the operations reach is a fact about the operations; none of them checks it.
-/

namespace GapText

structure GapBuffer where
  /-- The array: both pieces of the text, the gap and the last guard. -/
  storage : Array UInt8
  /-- The offset in the array at which the gap starts. -/
  gapStart : Nat
  /-- How many bytes the gap has. -/
  gapSize : Nat
  /-- How many bytes the text has; fewer than none after a removal of more than there was. -/
  length : Int
deriving DecidableEq, Repr

namespace GapBuffer

/-- The gap of a fresh buffer, and what is added beyond the need whenever the gap has to grow. -/
def spareBytes : Nat := 2000

/-- The gap never grows by less. -/
def minGrowth : Nat := 20

/-- The byte position of the gap. -/
def gapPos (g : GapBuffer) : Int := g.gapStart + 1

/-- The byte position of the end of the text. -/
def endPos (g : GapBuffer) : Int := g.length + 1

/-- The offset in the array at which the text after the gap ends, where the last guard is. -/
def endOffset (g : GapBuffer) : Nat := (g.length + g.gapSize).toNat

/-! ## Reading -/

/-- A byte of the array. Outside it, there are only zeros. -/
def rawByte (g : GapBuffer) (offset : Nat) : UInt8 := g.storage.getD offset 0

/-- How far the text at a position is shifted by the gap. -/
def shift (g : GapBuffer) (p : Int) : Nat := if g.gapPos ≤ p then g.gapSize else 0

/-- The offset in the array of the byte at a position. -/
def offset (g : GapBuffer) (p : Int) : Nat := (p - 1 + g.shift p).toNat

/-- The byte of the text at a position. -/
def byteAt (g : GapBuffer) (p : Int) : UInt8 := g.rawByte (g.offset p)

/-- At most `n` bytes of the array as they lie there, from the text's position `p` on. -/
def bytesFrom (g : GapBuffer) (p : Int) (n : Nat) : Bytes :=
  (g.storage.extract (g.offset p) (g.offset p + n)).toList

/-- The bytes of the text from position `lo` up to position `hi`. -/
def slice (g : GapBuffer) (lo hi : Int) : Bytes :=
  (List.range (hi - lo).toNat).map fun (i : Nat) => g.byteAt (lo + i)

/-- The text itself: both pieces joined. A gap that lies beyond the end of the text does not make
the text any longer. -/
def toList (g : GapBuffer) : Bytes :=
  (g.storage.extract 0 (min g.gapStart g.length.toNat)).toList
    ++ (g.storage.extract (g.gapStart + g.gapSize) g.endOffset).toList

/-! ## Building -/

/-- A text in front of a fresh gap. -/
def ofList (s : Bytes) : GapBuffer where
  storage := s.toArray ++ Array.replicate (spareBytes + 1) 0
  gapStart := s.length
  gapSize := spareBytes
  length := s.length

/-- The empty text. -/
def empty : GapBuffer := ofList []

/-! ## Writing -/

/-- Replaces one byte of the array. -/
def writeRaw (g : GapBuffer) (offset : Nat) (b : UInt8) : GapBuffer :=
  { g with storage := g.storage.setIfInBounds offset b }

/-- Copies `n` bytes of one array, from offset `i` on, to offset `j` of another. -/
def copyInto (source : Array UInt8) (i : Nat) (a : Array UInt8) (j : Nat) : Nat → Array UInt8
  | 0 => a
  | n + 1 => copyInto source (i + 1) (a.setIfInBounds j (source.getD i 0)) (j + 1) n

/-- Copies `n` bytes within an array, those from `i` on to `j`. The first byte goes first, so that
they may come to lie over themselves further down. -/
def copyDown (a : Array UInt8) (i j : Nat) : Nat → Array UInt8
  | 0 => a
  | n + 1 => copyDown (a.setIfInBounds j (a.getD i 0)) (i + 1) (j + 1) n

/-- Copies `n` bytes within an array, those that end at `i` to where they end at `j`. The last byte
goes first, so that they may come to lie over themselves further up. -/
def copyUp (a : Array UInt8) (i j : Nat) : Nat → Array UInt8
  | 0 => a
  | n + 1 => copyUp (a.setIfInBounds (j - 1) (a.getD (i - 1) 0)) (i - 1) (j - 1) n

/-- Puts both guards in place. -/
def guarded (g : GapBuffer) : GapBuffer :=
  { g with
    storage := (g.storage.setIfInBounds g.gapStart 0).setIfInBounds (g.storage.size - 1) 0 }

/-- The gap at another offset: the text between its old place and the new one changes sides. -/
def relocate (g : GapBuffer) (target : Nat) : GapBuffer :=
  let gapEnd := g.gapStart + g.gapSize
  let storage :=
    if target < g.gapStart then copyUp g.storage g.gapStart gapEnd (g.gapStart - target)
    else copyDown g.storage gapEnd g.gapStart (target - g.gapStart)
  { g with storage, gapStart := target }

/-- Moves the gap to a byte position. -/
def moveGap (g : GapBuffer) (p : Int) : Logged GapBuffer :=
  if p = g.gapPos then pure g
  else ⟨guarded (g.relocate (p - 1).toNat), [.gapMoved g.gapPos p]⟩

/-- The gap larger by `n` bytes: both pieces of the text are copied to a longer array of zeros. -/
def enlarge (g : GapBuffer) (n : Nat) : GapBuffer :=
  let gapEnd := g.gapStart + g.gapSize
  let room := Array.replicate (g.storage.size + n) 0
  let left := copyInto g.storage 0 room 0 g.gapStart
  { g with
    storage := copyInto g.storage gapEnd left (gapEnd + n) (g.storage.size - gapEnd)
    gapSize := g.gapSize + n }

/-- Makes the gap larger. No number below one does anything. -/
def growGap (g : GapBuffer) (growth : Int) : Logged GapBuffer :=
  if growth ≤ 0 then pure g
  else
    let g := guarded (g.enlarge growth.toNat)
    ⟨g, [.gapGrown growth g.gapSize g.storage.size]⟩

/-- Sees to it that `need` bytes fit into the gap beside its guard. -/
def ensureGap (g : GapBuffer) (need : Int) : Logged GapBuffer :=
  if need < g.gapSize then pure g
  else g.growGap (max (need - g.gapSize + spareBytes) minGrowth)

/-- Writes `s` into the gap, which it shortens. -/
def fill (g : GapBuffer) (s : Bytes) : GapBuffer where
  storage := copyInto s.toArray 0 g.storage g.gapStart s.length
  gapStart := g.gapStart + s.length
  gapSize := g.gapSize - s.length
  length := g.length + s.length

/-- Lets the gap swallow the `n` bytes behind it. -/
def swallow (g : GapBuffer) (n : Nat) : GapBuffer :=
  { g with gapSize := g.gapSize + n, length := g.length - n }

/-- Puts bytes before position `p`. -/
def insert (g : GapBuffer) (p : Int) (s : Bytes) : Logged GapBuffer :=
  if s.isEmpty then pure g
  else do
    let g ← g.moveGap p
    let g ← g.ensureGap s.length
    return guarded (g.fill s)

/-- Removes the bytes from position `lo` up to position `hi`. -/
def delete (g : GapBuffer) (lo hi : Int) : Logged GapBuffer :=
  if hi ≤ lo then pure g
  else do
    let g ← g.moveGap lo
    return guarded (g.swallow (hi - lo).toNat)

/-! ## Commands -/

/-- What can be asked of a gap buffer. -/
inductive Command where
  | clear
  | load (s : Bytes)
  | insert (p : Int) (s : Bytes)
  | delete (lo hi : Int)
  | move (p : Int)
  | ensure (need : Int)
  | grow (growth : Int)
deriving DecidableEq, Repr

def run (g : GapBuffer) : Command → Logged GapBuffer
  | .clear => pure empty
  | .load s => pure (ofList s)
  | .insert p s => g.insert p s
  | .delete lo hi => g.delete lo hi
  | .move p => g.moveGap p
  | .ensure need => g.ensureGap need
  | .grow growth => g.growGap growth

end GapBuffer

end GapText
