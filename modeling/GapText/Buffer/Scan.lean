import GapText.Buffer.Basic
import GapText.Code.Decode

/-!
# Characters and their boundaries

Reading a character and stepping over it. Nothing here checks its argument: the caller knows that it
is the byte position of a character, or the end. A character is decoded from the array as it lies
there, which is sound because a form never lies on both sides of the gap, and a form that is cut
short ends at a guard.
-/

namespace GapText

namespace Buffer

/-- The longest form. -/
def maxForm : Nat := 5

/-- The character at a place of a multibyte text. -/
def decodeAt (b : Buffer) (p : Int) : Int := (Code.decode (b.text.bytesFrom p maxForm)).code

/-- The character at a place. -/
def charAt (b : Buffer) (p : Int) : Int :=
  if b.multibyte then b.decodeAt p else (b.text.byteAt p).toNat

/-- The place behind the character at `p`. -/
def next (b : Buffer) (p : Int) : Int :=
  if b.multibyte then p + Code.headLength (b.text.byteAt p) else p + 1

/-- The last place with a head byte that is not behind `p`, looked for in `n` steps. -/
def headBefore (b : Buffer) : Nat → Int → Int
  | 0, p => p
  | n + 1, p => if Code.isHead (b.text.byteAt p) then p else headBefore b n (p - 1)

/-- The place before the character that ends at `p`. -/
def prev (b : Buffer) (p : Int) : Int :=
  if b.multibyte then b.headBefore p.toNat (p - 1) else p - 1

/-! ## Walks -/

def stepsForward (b : Buffer) : Nat → Int → List Int
  | 0, _ => []
  | n + 1, p => if p < b.text.endPos then p :: stepsForward b n (b.next p) else []

/-- The places of all characters, met by stepping forward from the start of the text. -/
def forward (b : Buffer) : List Int := b.stepsForward b.text.length.toNat 1

def stepsBackward (b : Buffer) : Nat → Int → List Int
  | 0, _ => []
  | n + 1, p => if 1 < p then b.prev p :: stepsBackward b n (b.prev p) else []

/-- The places of all characters, met by stepping backward from the end of the text. -/
def backward (b : Buffer) : List Int := b.stepsBackward b.text.length.toNat b.text.endPos

end Buffer

end GapText
