import GapText.Bytes

/-!
# The internal form of a character

A character is a code in `0 … 0x3FFFFF`. Codes up to `0x10FFFF` are those of Unicode, the last 128
(`0x3FFF80 …`) stand for the raw bytes `0x80 … 0xFF`, and what lies between is unassigned. In a
buffer a character is kept in its *form*: one head byte and up to four trail bytes. Forms of two to
four bytes are UTF-8, longer codes take a fifth byte, and a raw byte takes two bytes with head
`0xC0` or `0xC1`, which no other form uses.

Codes outside the range have a form too: below `0x80` the low byte of the code, above the range
the form of the raw byte with the same low seven bits.
-/

namespace GapText

namespace Code

/-- The last code of Unicode. -/
def maxUnicode : Int := 0x10FFFF

/-- The last code that is not a raw byte. -/
def maxFiveByte : Int := 0x3FFF7F

/-- The last code. -/
def maxCode : Int := 0x3FFFFF

/-- Every byte outside `0x80 … 0xBF` heads a form. -/
def isHead (b : UInt8) : Bool := b.toNat / 64 != 2

/-- How many bytes the form headed by `b` has, read off the ones that `b` starts with; a trail byte
is measured by the same rule. -/
def headLength (b : UInt8) : Nat :=
  if b.toNat < 128 then 1
  else if b.toNat / 32 % 2 = 0 then 2
  else if b.toNat / 16 % 2 = 0 then 3
  else if b.toNat / 8 % 2 = 0 then 4
  else 5

/-! ## Raw bytes -/

/-- True of the codes that stand for raw bytes. -/
def isRaw (c : Int) : Bool := decide (maxFiveByte < c)

/-- The character that stands for a raw byte; its code is `0x3FFF00` above the byte. -/
def ofRaw (b : UInt8) : Int := b.toNat + 0x3FFF00

/-- The low byte of a code, which for a raw byte's character is that byte. -/
def lowByte (c : Int) : UInt8 := UInt8.ofNat (c % 256).toNat

/-! ## Forms -/

/-- How many bytes the form of `c` has. -/
def formLength (c : Int) : Nat :=
  if c < 0x80 then 1
  else if c < 0x800 then 2
  else if c < 0x10000 then 3
  else if c < 0x200000 then 4
  else if c ≤ maxFiveByte then 5
  else 2

/-- A head byte: the mark that gives the length, with the leading bits of the code below it. -/
def head (mark : Nat) (bits : Int) : UInt8 := UInt8.ofNat (mark + bits.toNat)

/-- A trail byte carries the low six bits. -/
def trail (bits : Int) : UInt8 := UInt8.ofNat (0x80 + (bits % 64).toNat)

/-- The bytes that stand for `c` in a buffer. -/
def form (c : Int) : Bytes :=
  if c < 0x80 then [lowByte c]
  else if c < 0x800 then [head 0xC0 (c / 64), trail c]
  else if c < 0x10000 then [head 0xE0 (c / 4096), trail (c / 64), trail c]
  else if c < 0x200000 then
    [head 0xF0 (c / 262144), trail (c / 4096), trail (c / 64), trail c]
  else if c ≤ maxFiveByte then
    [0xF8, trail (c / 262144), trail (c / 4096), trail (c / 64), trail c]
  else [head 0xC0 (c / 64 % 2), trail c]

@[simp] theorem length_form (c : Int) : (form c).length = formLength c := by
  unfold form formLength
  repeat' split
  all_goals rfl

end Code

end GapText
