/-!
# Byte strings

Everything that comes to the editor from outside and everything that leaves it is a string of
bytes: text, names, paths, property values, log records, the rows of a screen. No reader of such a
string assumes that it is text in some encoding; the buffer's own coding (`GapText.Code`) is the
only place that gives bytes a meaning as characters.
-/

namespace GapText

abbrev Bytes := List UInt8

namespace Bytes

/-- The bytes of an ASCII text. -/
def ascii (s : String) : Bytes := s.toList.map fun c => UInt8.ofNat c.toNat

/-- The decimal digits of a natural number, without leading zeros. -/
def digits (n : Nat) : Bytes := (Nat.toDigits 10 n).map fun c => UInt8.ofNat c.toNat

/-- The decimal form of an integer; only negative numbers carry a sign. -/
def decimal : Int → Bytes
  | .ofNat n => digits n
  | .negSucc n => ascii "-" ++ digits (n + 1)

/-- ASCII letters in upper case, every other byte as it is. -/
def upper (s : Bytes) : Bytes := s.map fun b => if 97 ≤ b ∧ b ≤ 122 then b - 32 else b

/-- A text that ends at its first zero byte, if it has one. -/
def untilZero (s : Bytes) : Bytes := s.takeWhile (· != 0)

/-- `n` blanks. -/
def blanks (n : Nat) : Bytes := List.replicate n 32

/-- The offsets at which `word` starts in a text, found from left to right and never overlapping:
after a match the search goes on behind it. `skip` bytes are passed over first, and `offset` is
where the text starts. -/
def matchesFrom (word : Bytes) (offset skip : Nat) : Bytes → List Nat
  | [] => []
  | b :: rest =>
    match skip with
    | skip + 1 => matchesFrom word (offset + 1) skip rest
    | 0 =>
      if word.isPrefixOf (b :: rest) then
        offset :: matchesFrom word (offset + 1) (word.length - 1) rest
      else matchesFrom word (offset + 1) 0 rest

end Bytes

end GapText
