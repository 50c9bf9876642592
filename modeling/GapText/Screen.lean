import GapText.Bytes

/-!
# A screen in memory

A screen is a grid of cells, each with a byte and an attribute: `0` is plain, `-1` reverse video,
and a positive number names a pair of colors. Every drawing call is clipped to the grid, cell by
cell, so rows and columns outside it may be named. Next to the grid a screen knows where its cursor
was last put, which need not be inside, and how often it was refreshed.
-/

namespace GapText

namespace Screen

structure Cell where
  byte : UInt8 := 32
  attr : Int := 0
deriving DecidableEq, Repr, Inhabited

end Screen

structure Screen where
  rows : Nat
  cols : Nat
  cells : List (List Screen.Cell)
  cursor : Int × Int := (0, 0)
  refreshes : Nat := 0
deriving DecidableEq, Repr

namespace Screen

/-- A grid of plain blanks. -/
def blank (rows cols : Nat) : List (List Cell) := List.replicate rows (List.replicate cols {})

def ofSize (rows cols : Nat) : Screen := { rows, cols, cells := blank rows cols }

def clear (s : Screen) : Screen := { s with cells := blank s.rows s.cols }

/-- A line of cells after `text` was written over it from column `col` on. -/
def overwriteLine (line : List Cell) (col : Int) (text : Bytes) (attr : Int) : List Cell :=
  line.mapIdx fun j cell =>
    if col ≤ j then
      match text[((j : Int) - col).toNat]? with
      | some byte => { byte, attr }
      | none => cell
    else cell

/-- Writes `text` from a cell on, to the right. -/
def put (s : Screen) (row col : Int) (text : Bytes) (attr : Int) : Screen :=
  { s with
    cells := s.cells.mapIdx fun i line =>
      if (i : Int) = row then overwriteLine line col text attr else line }

def drawPlain (s : Screen) (row col : Int) (text : Bytes) : Screen := s.put row col text 0

/-- Writes `text` plainly but for `len` bytes from its byte `start` on, which are reversed. Negative
numbers count as zero. -/
def drawReversed (s : Screen) (row col : Int) (text : Bytes) (start len : Int) : Screen :=
  let lo := min (max 0 start).toNat text.length
  let hi := min text.length (lo + (max 0 len).toNat)
  ((s.put row col (text.take lo) 0).put row (col + lo) ((text.take hi).drop lo) (-1)).put row
    (col + hi) (text.drop hi) 0

def drawColored (s : Screen) (row col : Int) (text : Bytes) (pair : Int) : Screen :=
  s.put row col text pair

def setCursor (s : Screen) (row col : Int) : Screen := { s with cursor := (row, col) }

def refresh (s : Screen) : Screen := { s with refreshes := s.refreshes + 1 }

/-- Blanks a row from column `col` on. -/
def blankFrom (s : Screen) (row col : Int) : Screen :=
  let col := max 0 col
  s.put row col (Bytes.blanks (s.cols - col).toNat) 0

/-! ## Looking at it -/

def line (s : Screen) (row : Int) : List Cell :=
  if 0 ≤ row then s.cells.getD row.toNat [] else []

/-- The bytes of a row; none for a row outside the grid. -/
def rowText (s : Screen) (row : Int) : Bytes := (s.line row).map (·.byte)

/-- The attribute of a cell; plain outside the grid. -/
def attrAt (s : Screen) (row col : Int) : Int :=
  if 0 ≤ col then ((s.line row).getD col.toNat {}).attr else 0

/-! ## Commands -/

/-- What can be asked of a screen. -/
inductive Command where
  | clear
  | plain (row col : Int) (text : Bytes)
  | reversed (row col : Int) (text : Bytes) (start len : Int)
  | colored (row col : Int) (text : Bytes) (pair : Int)
  | blank (row col : Int)
  | cursor (row col : Int)
  | refresh
deriving DecidableEq, Repr

def run (s : Screen) : Command → Screen
  | .clear => s.clear
  | .plain row col text => s.drawPlain row col text
  | .reversed row col text start len => s.drawReversed row col text start len
  | .colored row col text pair => s.drawColored row col text pair
  | .blank row col => s.blankFrom row col
  | .cursor row col => s.setCursor row col
  | .refresh => s.refresh

end Screen

end GapText
