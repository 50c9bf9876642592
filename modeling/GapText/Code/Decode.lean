import GapText.Code.Form

/-!
# Reading a character

`decode` reads the character at the start of a byte string. It never fails: when the string does
not start with a head byte and all of its trail bytes, the first byte alone is the answer, with
length one. A byte past the end of the string counts as a zero byte, which is a head and so ends
every form.
-/

namespace GapText

namespace Code

/-- A character read from a byte string, and how many bytes it took. -/
structure Decoded where
  code : Int
  length : Nat
deriving DecidableEq, Repr

/-- The bits of the code that a head byte carries in a form of `n` bytes. -/
def headBits (n : Nat) (b : UInt8) : Int :=
  match n with
  | 2 => (b.toNat : Int) % 32
  | 3 => (b.toNat : Int) % 16
  | 4 => (b.toNat : Int) % 8
  | _ => 0

/-- The code spelled by a head of a form of `n` bytes and its trail; the heads `0xC0` and `0xC1`
are those of raw bytes. -/
def assemble (n : Nat) (b : UInt8) (tail : Bytes) : Int :=
  let c := tail.foldl (fun c t => c * 64 + (t.toNat : Int) % 64) (headBits n b)
  if n = 2 ∧ b < 0xC2 then c + 0x3FFF80 else c

/-- The character at the start of a byte string. -/
def decode : Bytes → Decoded
  | [] => ⟨0, 1⟩
  | b :: rest =>
    let n := if isHead b then headLength b else 1
    let tail := rest.take (n - 1)
    if n = 1 ∨ tail.length < n - 1 ∨ tail.any isHead then ⟨b.toNat, 1⟩
    else ⟨assemble n b tail, n⟩

/-- The number of characters that a string of forms holds, counted by stepping from head to head.
The last form may be cut short. -/
def count : Bytes → Nat
  | [] => 0
  | b :: rest => 1 + count (rest.drop (headLength b - 1))
termination_by s => s.length
decreasing_by simp only [List.length_drop, List.length_cons]; omega

end Code

end GapText
