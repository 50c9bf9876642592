import GapText.Display.Form
import GapText.Overlay.Overlaid

/-!
# Layout

The accessible part of a buffer as lines of *glyphs*: what is drawn for each character, how many
columns it takes, and the attribute that the overlays around it give it. A newline ends a line and
is not drawn itself. The same walk over the characters before the point says where the point lands.
-/

namespace GapText

namespace Display

/-! ## Faces -/

/-- A stretch of the text that is drawn with an attribute. -/
structure Span where
  start : Int
  stop : Int
  attr : Int
deriving DecidableEq, Repr

/-- The attribute of a face; the two that have a color are `match` and `highlight`. -/
def faceAttr (face : Bytes) : Int :=
  if face = Bytes.ascii "match" then 1
  else if face = Bytes.ascii "highlight" then 3
  else -1

/-- The stretch that an overlay colors; an overlay without a face, or without a place, or with
nothing in it, colors none. -/
def span? (r : Overlay) : Option Span := do
  let face ← r.props.get? (Bytes.ascii "face")
  let start ← r.start.char?
  let stop ← r.stop.char?
  if start < stop then some ⟨start, stop, faceAttr face⟩ else none

/-- The colored stretches in the order of the chains. -/
def spans (o : Overlaid) : Except Fault (List Span) :=
  o.linked.map (·.filterMap fun id => (o.arena.find? id).bind span?)

/-- The attribute at a place: that of the last stretch around it. -/
def attrAt (spans : List Span) (p : Int) : Int :=
  spans.foldl (fun attr s => if s.start ≤ p ∧ p < s.stop then s.attr else attr) 0

/-! ## Characters -/

/-- The character to be shown at a place. A unibyte buffer shows the bytes from `0x80` on as raw
bytes. -/
def codeAt (b : Buffer) (p : Int) : Int :=
  if b.multibyte then b.decodeAt p
  else
    let byte := b.text.byteAt p
    if 0x80 ≤ byte then Code.ofRaw byte else byte.toNat

/-- A character of the text, and the place before it. -/
structure Letter where
  place : Int
  code : Int
deriving DecidableEq, Repr

def lettersFrom (b : Buffer) : Nat → Position → List Letter
  | 0, _ => []
  | n + 1, p => ⟨p.char, codeAt b p.byte⟩ :: lettersFrom b n ⟨p.char + 1, b.next p.byte⟩

/-- The accessible characters. -/
def accessible (b : Buffer) : List Letter :=
  lettersFrom b (b.upper.char - b.lower.char).toNat b.lower

/-- Splits at newlines, which are left out. There is always a last line. -/
def splitLines : List Letter → List (List Letter)
  | [] => [[]]
  | l :: rest =>
    if l.code = newline then [] :: splitLines rest
    else
      match splitLines rest with
      | [] => [[l]]
      | line :: more => (l :: line) :: more

/-! ## Glyphs -/

structure Glyph where
  text : Bytes
  width : Nat
  attr : Int
deriving DecidableEq, Repr

/-- Lays out the rest of a line from column `col` on. -/
def glyphsFrom (tabWidth : Int) (spans : List Span) (col : Nat) : List Letter → List Glyph
  | [] => []
  | l :: rest =>
    let w := width tabWidth l.code col
    ⟨form tabWidth l.code col, w, attrAt spans l.place⟩
      :: glyphsFrom tabWidth spans (col + w) rest

/-- The column behind a line. -/
def lineWidth (tabWidth : Int) (line : List Letter) : Nat :=
  line.foldl (fun col l => col + width tabWidth l.code col) 0

/-- The lines of the accessible part. -/
def lines (tabWidth : Int) (spans : List Span) (b : Buffer) : List (List Glyph) :=
  (splitLines (accessible b)).map (glyphsFrom tabWidth spans 0)

/-- The line and column at which the point lands; the first ones when it is not accessible. -/
def pointCell (tabWidth : Int) (b : Buffer) : Nat × Nat :=
  let n := (b.upper.char - b.lower.char).toNat
  let k := b.point.char - b.lower.char
  if 0 ≤ k ∧ k ≤ n then
    let before := splitLines ((accessible b).take k.toNat)
    (before.length - 1, lineWidth tabWidth (before.getLastD []))
  else (0, 0)

end Display

end GapText
