import GapText.Buffer.Convert
import GapText.Code.External

/-!
# Narrowing and edits

Narrowing restricts a buffer to a part of its text. Edits take place inside that part only; a place
outside it is refused before anything is changed. An edit moves the gap to where it is made, keeps
the point with the text around it, and leaves markers alone.
-/

namespace GapText

/-- A place or a stretch that is out of range. -/
inductive RangeError where
  | place (p : Int)
  | stretch (lo hi : Int)
deriving DecidableEq, Repr

def RangeError.message : RangeError → Bytes
  | place p => Bytes.ascii "Args out of range: " ++ Bytes.decimal p
  | stretch lo hi =>
    Bytes.ascii "Args out of range: " ++ Bytes.decimal lo ++ Bytes.ascii ", " ++ Bytes.decimal hi

/-- Two ends of a stretch, the lower one first. -/
def ordered (p q : Int) : Int × Int := if q < p then (q, p) else (p, q)

/-- A place further on by so many characters and bytes. -/
def Position.shift (p : Position) (chars bytes : Int) : Position := ⟨p.char + chars, p.byte + bytes⟩

namespace Buffer

/-! ## Narrowing -/

/-- The stretch between two places, in order, if it is accessible. -/
def region (b : Buffer) (p q : Int) : Except RangeError (Int × Int) :=
  let (lo, hi) := ordered p q
  if b.lower.char ≤ lo ∧ hi ≤ b.upper.char then .ok (lo, hi) else .error (.stretch lo hi)

/-- Restricts the buffer to the stretch between two positions. A point outside goes to the nearer
end. -/
def confine (b : Buffer) (lower upper : Position) : Buffer :=
  let point := if b.point.char < lower.char then lower else b.point
  let point := if upper.char < point.char then upper else point
  { b with lower, upper, point }

/-- Restricts the buffer to the stretch between two places of the text. -/
def narrow (b : Buffer) (p q : Int) : Except RangeError Buffer :=
  let (lo, hi) := ordered p q
  if lo < 1 ∨ b.endChar < hi then .error (.stretch lo hi)
  else .ok (b.confine (b.position lo) (b.position hi))

/-- Makes the whole text accessible. -/
def widen (b : Buffer) : Buffer := { b with lower := .first, upper := b.last }

/-! ## Edits -/

/-- Moves the gap; the text stays as it is. -/
def moveGap (b : Buffer) (c : Int) : Logged Buffer := do
  let text ← b.text.moveGap (b.toByte c)
  return { b with text, gapChar := c }

/-- The number of characters that a string of bytes makes in this buffer. -/
def countChars (b : Buffer) (s : Bytes) : Nat := if b.multibyte then Code.count s else s.length

/-- The buffer with a changed text, whose end and accessible end are `chars` characters and `bytes`
bytes further on. -/
def edited (b : Buffer) (text : GapBuffer) (gapChar chars bytes : Int) (point : Position) :
    Buffer :=
  { b with
    text, gapChar, point
    endChar := b.endChar + chars
    upper := b.upper.shift chars bytes
    tick := b.tick + 1
    charsTick := b.tick + 1 }

/-- Puts `s` before the place `c`, wherever that is. A point there or behind moves along. -/
def splice (b : Buffer) (c : Int) (s : Bytes) : Logged Buffer := do
  let chars := b.countChars s
  let text ← b.text.insert (b.toByte c) s
  let point := if c ≤ b.point.char then b.point.shift chars s.length else b.point
  return b.edited text (c + chars) chars s.length point

/-- Removes the characters from `lo` up to `hi`, wherever they are. A point among them goes to
`lo`, and one behind them moves along. -/
def cut (b : Buffer) (lo hi : Int) : Logged Buffer := do
  let start := b.position lo
  let stop := b.position hi
  let chars := hi - lo
  let bytes := stop.byte - start.byte
  let text ← b.text.delete start.byte stop.byte
  let point :=
    if hi ≤ b.point.char then b.point.shift (-chars) (-bytes)
    else if lo < b.point.char then start
    else b.point
  return b.edited text lo (-chars) (-bytes) point

/-- Puts bytes that are in the internal form already before a place of the accessible part. -/
def insert (b : Buffer) (c : Int) (s : Bytes) : Except RangeError (Logged Buffer) :=
  if c < b.lower.char ∨ b.upper.char < c then .error (.place c)
  else .ok (if s.isEmpty then pure b else b.splice c s)

/-- Text from outside as it is kept in this buffer. -/
def internalForm (b : Buffer) (s : Bytes) : Bytes :=
  if b.multibyte then Code.ofExternal s else s

/-- Puts bytes from outside before a place of the accessible part. -/
def insertExternal (b : Buffer) (c : Int) (s : Bytes) : Except RangeError (Logged Buffer) :=
  b.insert c (b.internalForm s)

/-- Removes what lies between two places of the accessible part. -/
def delete (b : Buffer) (p q : Int) : Except RangeError (Logged Buffer) :=
  (b.region p q).map fun (lo, hi) => if lo = hi then pure b else b.cut lo hi

/-- Removes the whole text, accessible or not. A buffer whose text is said to end before it starts
refuses that, and is left widened. -/
def erase (b : Buffer) : Logged Buffer :=
  let b := b.widen
  match b.delete 1 b.endChar with
  | .ok erased => (·.setPoint .first) <$> erased
  | .error e => ⟨b, [.eraseRefused e.message]⟩

end Buffer

end GapText
