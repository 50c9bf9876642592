import GapText.Proofs.Gap
import GapText.Proofs.Places

/-!
# Walking over a text

The invariant of a buffer ties its fields to one text: the bytes of the gap buffer are those of the
text's characters, and each of the places that are kept up to date is a place of the text
(`Sound`). Steps then go from one character to the next, walks count them, and a conversion gives
the byte position of its character from whichever place it starts.
-/

namespace GapText.Buffer

open Code

/-- The bytes of a buffer are those of a text. -/
structure HasText (b : Buffer) (cs : List Int) : Prop where
  wellFormed : b.text.WellFormed
  allowed : ∀ c ∈ cs, Allowed b.multibyte c
  contents_eq : b.text.contents = encode b.multibyte cs
  endChar_eq : b.endChar = cs.length + 1

/-- The places of a buffer are places of its text, and the accessible part ends behind its start. -/
structure Sound (b : Buffer) (cs : List Int) : Prop extends HasText b cs where
  point : IsPlace b.multibyte cs b.point
  lower : IsPlace b.multibyte cs b.lower
  upper : IsPlace b.multibyte cs b.upper
  gap : IsPlace b.multibyte cs b.gap
  lower_le_upper : b.lower.char ≤ b.upper.char

variable {b : Buffer} {cs : List Int} {k : Int}

theorem HasText.endPos_eq (h : HasText b cs) :
    b.text.endPos = (encode b.multibyte cs).length + 1 := by
  have hlen := GapBuffer.length_contents b.text
  have hle := h.wellFormed.gap_le
  rw [h.contents_eq] at hlen
  unfold GapBuffer.endPos
  omega

theorem HasText.last (h : HasText b cs) : IsPlace b.multibyte cs b.last where
  one_le := by
    have hend := h.endChar_eq
    show 1 ≤ b.endChar
    omega
  le_last := Int.le_of_eq h.endChar_eq
  byte_eq := by
    show b.text.endPos = bytePos b.multibyte cs b.endChar
    rw [h.endChar_eq, bytePos_last, h.endPos_eq]

/-- Every byte position of a place is in the text. -/
theorem HasText.byte_mem (h : HasText b cs) {p : Position} (hp : IsPlace b.multibyte cs p) :
    1 ≤ p.byte ∧ p.byte ≤ b.text.endPos := by
  have hone := bytePos_le (m := b.multibyte) (Int.le_refl 1) hp.one_le hp.le_last
  have hlast := bytePos_le (m := b.multibyte) hp.one_le hp.le_last (Int.le_refl _)
  rw [bytePos_one] at hone
  rw [bytePos_last] at hlast
  rw [hp.byte_eq, h.endPos_eq]
  exact ⟨hone, hlast⟩

theorem HasText.byte_lt_endPos (h : HasText b cs) {p : Position}
    (hp : IsPlace b.multibyte cs p) (hchar : p.char ≤ cs.length) : p.byte < b.text.endPos := by
  rw [hp.byte_eq, h.endPos_eq, ← bytePos_last]
  exact bytePos_lt hp.one_le (by omega) (Int.le_refl _)

/-! ## Steps -/

/-- The byte at the start of a character is its head, and the other bytes that it takes are not. -/
theorem HasText.bytes_of_char (h : HasText b cs) (hm : b.multibyte = true) (h₁ : 1 ≤ k)
    (h₂ : k ≤ cs.length) :
    ∃ n : Nat, bytePos true cs (k + 1) = bytePos true cs k + n + 1 ∧
      isHead (b.text.byteAt (bytePos true cs k)) = true ∧
      headLength (b.text.byteAt (bytePos true cs k)) = n + 1 ∧
      ∀ i < n, isHead (b.text.byteAt (bytePos true cs k + i + 1)) = false := by
  obtain ⟨pre, c, post, rfl, rfl⟩ := exists_append_cons h₁ h₂
  have hallowed := h.allowed c (by simp)
  have hbytes := h.contents_eq
  rw [hm] at hallowed hbytes
  obtain ⟨x, tail, hx, hhead, hlen, htail⟩ := exists_encodeChar hallowed
  rw [encode_append, encode_cons, hx, List.cons_append] at hbytes
  have hfirst : b.text.byteAt ((encode true pre).length + 1) = x := by
    apply GapBuffer.byteAt_of_getElem?
    rw [hbytes, List.getElem?_append_right (Nat.le_refl _), Nat.sub_self, List.getElem?_cons_zero]
  have hrest : ∀ i < tail.length, b.text.byteAt ((encode true pre).length + 1 + i + 1) ∈ tail := by
    intro i hi
    have hat : b.text.contents[(encode true pre).length + 1 + i]? = some tail[i] := by
      rw [hbytes, List.getElem?_append_right (by omega),
        show (encode true pre).length + 1 + i - (encode true pre).length = i + 1 by omega,
        List.getElem?_cons_succ, List.getElem?_append_left hi, List.getElem?_eq_getElem hi]
    have hbyte := GapBuffer.byteAt_of_getElem? hat
    push_cast at hbyte
    rw [hbyte]
    exact List.getElem_mem hi
  rw [hx, List.length_cons] at hlen
  refine ⟨tail.length, ?_, ?_, ?_, ?_⟩
  · rw [bytePos_succ, hx, List.length_cons]
    omega
  · rw [bytePos_length_add_one, hfirst]
    exact hhead
  · rw [bytePos_length_add_one, hfirst]
    exact hlen
  · intro i hi
    rw [bytePos_length_add_one]
    exact htail _ (hrest i hi)

/-- A step forward from a character is to the next one. -/
theorem HasText.next_bytePos (h : HasText b cs) (h₁ : 1 ≤ k) (h₂ : k ≤ cs.length) :
    b.next (bytePos b.multibyte cs k) = bytePos b.multibyte cs (k + 1) := by
  unfold next
  cases hm : b.multibyte with
  | false =>
      rw [if_neg Bool.false_ne_true, bytePos_succ_false h₁ h₂]
  | true =>
      obtain ⟨n, hsucc, -, hlen, -⟩ := h.bytes_of_char hm h₁ h₂
      rw [if_pos rfl, hlen, hsucc]
      omega

/-- The search for a head passes over bytes that are none. -/
theorem headBefore_eq {q : Int} (hq : isHead (b.text.byteAt q) = true) {n j : Nat} (hj : j < n)
    (hbetween : ∀ i < j, isHead (b.text.byteAt (q + i + 1)) = false) :
    b.headBefore n (q + j) = q := by
  induction j generalizing n with
  | zero =>
      obtain ⟨n, rfl⟩ := Nat.exists_eq_add_one_of_ne_zero (Nat.ne_of_gt hj)
      show b.headBefore (n + 1) (q + 0) = q
      rw [Int.add_zero, headBefore, if_pos hq]
  | succ j ih =>
      obtain ⟨n, rfl⟩ := Nat.exists_eq_add_one_of_ne_zero (Nat.ne_of_gt (Nat.zero_lt_of_lt hj))
      have hhere := hbetween j (Nat.lt_succ_self j)
      rw [show q + ((j + 1 : Nat) : Int) = q + j + 1 by omega, headBefore,
        if_neg (by rw [hhere]; exact Bool.false_ne_true), Int.add_sub_cancel]
      exact ih (by omega) fun i hi => hbetween i (Nat.lt_succ_of_lt hi)

/-- A step back from the end of a character is to its start. -/
theorem HasText.prev_bytePos (h : HasText b cs) (h₁ : 1 ≤ k) (h₂ : k ≤ cs.length) :
    b.prev (bytePos b.multibyte cs (k + 1)) = bytePos b.multibyte cs k := by
  unfold prev
  cases hm : b.multibyte with
  | false =>
      rw [if_neg Bool.false_ne_true, bytePos_succ_false h₁ h₂, Int.add_sub_cancel]
  | true =>
      obtain ⟨n, hsucc, hhead, -, htail⟩ := h.bytes_of_char hm h₁ h₂
      have hone : bytePos true cs 1 ≤ bytePos true cs k :=
        bytePos_le (Int.le_refl 1) h₁ (by omega)
      rw [bytePos_one] at hone
      -- there are as many steps as positions before the end, more than a character has bytes
      rw [if_pos rfl, hsucc, Int.add_sub_cancel]
      exact headBefore_eq hhead (by omega) htail

/-! ## Walks -/

theorem HasText.advance_bytePos (h : HasText b cs) {n : Nat} (h₁ : 1 ≤ k)
    (h₂ : k + n ≤ cs.length + 1) :
    b.advance n (bytePos b.multibyte cs k) = bytePos b.multibyte cs (k + n) := by
  induction n generalizing k with
  | zero =>
      show bytePos b.multibyte cs k = bytePos b.multibyte cs (k + 0)
      rw [Int.add_zero]
  | succ n ih =>
      rw [advance, h.next_bytePos h₁ (by omega), ih (by omega) (by omega)]
      congr 1
      omega

theorem HasText.retreat_bytePos (h : HasText b cs) {n : Nat} (h₁ : 1 ≤ k)
    (h₂ : k + n ≤ cs.length + 1) :
    b.retreat n (bytePos b.multibyte cs (k + n)) = bytePos b.multibyte cs k := by
  induction n with
  | zero =>
      show bytePos b.multibyte cs (k + 0) = bytePos b.multibyte cs k
      rw [Int.add_zero]
  | succ n ih =>
      rw [show k + ((n + 1 : Nat) : Int) = k + n + 1 by omega, retreat,
        h.prev_bytePos (by omega) (by omega), ih (by omega)]

/-! ## Conversion -/

theorem foldl_closer_mem (closer : Position → Position → Bool) :
    ∀ (ps : List Position) (best : Position),
      ps.foldl (fun best p => if closer p best then p else best) best ∈ best :: ps
  | [], best => List.mem_cons_self
  | p :: ps, best => by
      have hrest := foldl_closer_mem closer ps (if closer p best then p else best)
      rw [List.foldl_cons]
      rcases List.mem_cons.mp hrest with heq | hmem
      · rw [heq]
        split
        · exact List.mem_cons_of_mem _ List.mem_cons_self
        · exact List.mem_cons_self
      · exact List.mem_cons_of_mem _ (List.mem_cons_of_mem _ hmem)

theorem nearest_mem (b : Buffer) (key : Position → Int) (target : Int) :
    b.nearest key target ∈ b.landmarks := by
  have hmem := foldl_closer_mem
    (fun p best => (key p - target).natAbs < (key best - target).natAbs) b.landmarks .first
  simp only [decide_eq_true_eq] at hmem
  rcases List.mem_cons.mp hmem with heq | hmem
  · unfold nearest
    rw [heq]
    exact List.mem_cons_self
  · exact hmem

theorem Sound.landmark (h : Sound b cs) {p : Position} (hp : p ∈ b.landmarks) :
    IsPlace b.multibyte cs p := by
  simp only [landmarks, List.mem_cons, List.not_mem_nil, or_false] at hp
  rcases hp with rfl | rfl | rfl | rfl
  · exact isPlace_first _ _
  · exact h.point
  · exact h.gap
  · exact h.last

theorem HasText.bytePos_of_isSingleByte (h : HasText b cs) (hb : b.isSingleByte = true)
    (h₁ : 1 ≤ k) (h₂ : k ≤ cs.length + 1) : bytePos b.multibyte cs k = k := by
  refine bytePos_of_length_encode ?_ h₁ h₂
  cases hm : b.multibyte with
  | false => exact length_encode_false cs
  -- the ends are compared: the text has as many bytes as characters
  | true =>
      have hlast := h.endPos_eq
      rw [hm] at hlast
      simp only [isSingleByte, hm, Bool.not_true, Bool.false_or, beq_iff_eq, h.endChar_eq] at hb
      omega

/-- The walk to a character from the nearest landmark, which a conversion makes unless every
character is a single byte. -/
def walkToByte (b : Buffer) (c : Int) : Int :=
  let p := b.nearest Position.char c
  if p.char ≤ c then b.advance (c - p.char).toNat p.byte
  else b.retreat (p.char - c).toNat p.byte

theorem toByte_def (b : Buffer) (c : Int) :
    b.toByte c = if b.isSingleByte then c else b.walkToByte c := rfl

/-- The walk leads to the character from whichever place it starts. -/
theorem Sound.walkToByte_eq (h : Sound b cs) (h₁ : 1 ≤ k) (h₂ : k ≤ cs.length + 1) :
    b.walkToByte k = bytePos b.multibyte cs k := by
  -- which landmark is nearest does not matter, only that it is a place of the text
  have hp := h.landmark (nearest_mem b Position.char k)
  unfold walkToByte
  generalize b.nearest Position.char k = p at hp
  obtain ⟨hone, hlast, hbyte⟩ := hp
  dsimp only
  rw [hbyte]
  by_cases hk : p.char ≤ k
  · rw [if_pos hk, h.advance_bytePos hone (by omega)]
    congr 1
    omega
  · rw [if_neg hk]
    have hback := h.retreat_bytePos (n := (p.char - k).toNat) h₁ (by omega)
    rwa [show k + ((p.char - k).toNat : Int) = p.char by omega] at hback

/-- A conversion gives the byte position of the character. -/
theorem Sound.toByte_eq (h : Sound b cs) (h₁ : 1 ≤ k) (h₂ : k ≤ cs.length + 1) :
    b.toByte k = bytePos b.multibyte cs k := by
  rw [toByte_def]
  split
  · rename_i hb
    rw [h.bytePos_of_isSingleByte hb h₁ h₂]
  · exact h.walkToByte_eq h₁ h₂

theorem Sound.position (h : Sound b cs) (h₁ : 1 ≤ k) (h₂ : k ≤ cs.length + 1) :
    IsPlace b.multibyte cs (b.position k) := ⟨h₁, h₂, h.toByte_eq h₁ h₂⟩

/-- What lies between two places is kept by the bytes between them. -/
theorem Sound.substring_eq {pre mid post : List Int} (h : Sound b (pre ++ mid ++ post)) :
    b.substring (pre.length + 1) ((pre ++ mid).length + 1) = encode b.multibyte mid := by
  have hbytes := h.contents_eq
  rw [encode_append, encode_append] at hbytes
  have hlo : b.toByte (pre.length + 1) = (encode b.multibyte pre).length + 1 := by
    rw [h.toByte_eq (by omega) (by simp only [List.length_append]; omega), List.append_assoc,
      bytePos_length_add_one]
  have hhi : b.toByte ((pre ++ mid).length + 1) = (encode b.multibyte (pre ++ mid)).length + 1 := by
    rw [h.toByte_eq (by omega) (by simp only [List.length_append]; omega), bytePos_length_add_one]
  unfold substring
  rw [hlo, hhi, encode_append]
  exact GapBuffer.slice_eq hbytes

end GapText.Buffer
