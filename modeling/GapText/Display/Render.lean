import GapText.Display.Layout
import GapText.Screen

/-!
# Drawing a buffer

The screen shows a window of the laid-out lines and, on its last row, a line about the state of the
buffer. The window is moved no further than needed to have the point in it. Only glyphs that fit
into the window whole are drawn; they close up from the left, run by run of equal attributes.
-/

namespace GapText

/-- The line and the column at which the window starts. -/
structure Viewport where
  top : Int := 0
  left : Int := 0
deriving DecidableEq, Repr

namespace Display

/-- Moves the window so that a cell is in its `rows` and `cols`, if it has any. -/
def scroll (v : Viewport) (rows cols : Nat) (cell : Nat × Nat) : Viewport :=
  let (row, col) : Int × Int := (cell.1, cell.2)
  let top := if row < v.top then row else v.top
  let top := if 0 < rows ∧ top + rows ≤ row then row - rows + 1 else top
  let left :=
    if col < v.left then col
    else if 0 < cols ∧ v.left + cols ≤ col then col - cols + 1
    else v.left
  ⟨top, left⟩

/-- The glyphs of a line, which starts at column `x`, that lie inside the window whole. -/
def visible (left : Int) (cols : Nat) (x : Nat) : List Glyph → List Glyph
  | [] => []
  | g :: rest =>
    let others := visible left cols (x + g.width) rest
    if left ≤ x ∧ x + g.width - left ≤ cols then g :: others else others

/-- Draws text with an attribute, by the call made for it. -/
def drawRun (s : Screen) (row col : Int) (text : Bytes) (attr : Int) : Screen :=
  if attr = 0 then s.drawPlain row col text
  else if attr < 0 then s.drawReversed row col text 0 text.length
  else s.drawColored row col text attr

/-- The columns that glyphs take side by side. -/
def runWidth : List Glyph → Nat
  | [] => 0
  | g :: rest => g.width + runWidth rest

/-- Draws runs of glyphs side by side and blanks what is left of the row. -/
def drawRuns (s : Screen) (row col : Int) : List (List Glyph) → Screen
  | [] => s.blankFrom row col
  | run :: rest =>
    let text := run.flatMap (·.text)
    let attr := (run.head?.map (·.attr)).getD 0
    drawRuns (drawRun s row col text attr) row (col + runWidth run) rest

def drawLine (s : Screen) (row : Int) (glyphs : List Glyph) : Screen :=
  drawRuns s row 0 (glyphs.splitBy fun g h => g.attr == h.attr)

/-- The line of this number, if there is one. -/
def lineAt (lines : List (List Glyph)) (i : Int) : Option (List Glyph) :=
  if 0 ≤ i then lines[i.toNat]? else none

/-- Draws as many rows of lines as there are, from the window's top line on. -/
def drawWindow (s : Screen) (rows : Nat) (v : Viewport) (lines : List (List Glyph)) : Screen :=
  (List.range rows).foldl
    (fun s (i : Nat) =>
      match lineAt lines (v.top + i) with
      | some line => drawLine s i (visible v.left s.cols 0 line)
      | none => s)
    s

open Bytes

/-- The state of a buffer in one line: point and end, the gap, how many overlays hang on which side
of the center, and whether the text is multibyte. -/
def statusLine (o : Overlaid) : Except Fault Bytes := do
  let (before, after) ← o.chains
  let b := o.buffer
  let both (p : Position) : Bytes := decimal p.char ++ ascii "/" ++ decimal p.byte
  return ascii "pt " ++ both b.point ++ ascii "  z " ++ both b.last
    ++ ascii "  gap " ++ decimal b.text.gapPos ++ ascii "+" ++ digits b.text.gapSize
    ++ ascii "  ov " ++ digits before.length ++ ascii "|" ++ digits after.length
    ++ ascii " @" ++ decimal b.overlays.center
    ++ ascii (if b.multibyte then "  [MB]" else "  [UB]")

/-- The last row: the state of the buffer, and a message if there is one. -/
def footer (status message : Bytes) : Bytes :=
  if message.isEmpty then status else status ++ ascii "  | " ++ message

/-- Draws a buffer on a screen, through a window that follows the point. -/
def render (tabWidth : Int) (s : Screen) (o : Overlaid) (v : Viewport) (message : Bytes) :
    Except Fault (Screen × Viewport) := do
  let rows := s.rows - 1
  let lines := lines tabWidth (← spans o) o.buffer
  let cell := pointCell tabWidth o.buffer
  let v := scroll v rows s.cols cell
  let s := drawWindow s.clear rows v lines
  let footer := footer (← statusLine o) message
  let last : Int := s.rows - 1
  let s := (s.drawPlain last 0 footer).blankFrom last (min s.cols footer.length)
  return ((s.setCursor (cell.1 - v.top) (cell.2 - v.left)).refresh, v)

end Display

end GapText
