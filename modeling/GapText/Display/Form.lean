import GapText.Code.Form

/-!
# Characters on the screen

How one character is shown: a tab as blanks up to the next tab stop, a control character as a caret
and a letter, a raw byte in octal behind a backslash, a code beyond Unicode as a question mark, and
every other character as itself.
-/

namespace GapText

namespace Display

open Bytes

def newline : Int := 10
def tab : Int := 9
def rubout : Int := 0x7F

/-- A byte in three octal digits. -/
def octal (b : UInt8) : Bytes :=
  [b.toNat / 64, b.toNat / 8 % 8, b.toNat % 8].map fun d => UInt8.ofNat (48 + d)

/-- What is drawn for `c` in column `col` when tab stops are `tabWidth` columns apart. -/
def form (tabWidth : Int) (c : Int) (col : Int) : Bytes :=
  if c = tab then blanks (tabWidth - col.tmod tabWidth).toNat
  else if c = rubout then ascii "^?"
  else if c < 0x20 then ascii "^" ++ [Code.lowByte (c + 64)]
  else if c < 0x80 then [Code.lowByte c]
  else if Code.isRaw c then ascii "\\" ++ octal (Code.lowByte c)
  else if Code.maxUnicode < c then ascii "?"
  else Code.form c

/-- How many columns that takes. A character shown as itself takes one, whatever bytes it has. -/
def width (tabWidth : Int) (c : Int) (col : Int) : Nat :=
  if 0x80 ≤ c ∧ ¬ Code.isRaw c ∧ c ≤ Code.maxUnicode then 1
  else (form tabWidth c col).length

end Display

end GapText
