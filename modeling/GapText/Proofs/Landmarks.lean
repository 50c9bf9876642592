import GapText.Proofs.Editor

/-!
# Characters and bytes, back and forth

A byte position lies in one character of the text, or at its end (`IsCharOf`). The walk from the
nearest landmark to a byte may run past the character and has to come back, but wherever it starts
it ends at that character. So the two conversions are inverse to each other as far as they can be,
and what they give depends on the text alone: not on the point, the gap or the shortcut for texts
of single bytes.
-/

namespace GapText

namespace Code

/-- The character in which a byte position lies; behind the last one there is only the end. -/
structure IsCharOf (m : Bool) (cs : List Int) (q c : Int) : Prop where
  one_le : 1 ≤ c
  le_last : c ≤ cs.length + 1
  byte_le : bytePos m cs c ≤ q
  lt_next : c = cs.length + 1 ∨ q < bytePos m cs (c + 1)

variable {m : Bool} {cs : List Int} {q c d : Int}

/-- A character is at or before the one of a byte just when it starts at or before the byte. -/
theorem IsCharOf.le_iff (h : IsCharOf m cs q c) (h₁ : 1 ≤ d) (h₂ : d ≤ cs.length + 1) :
    d ≤ c ↔ bytePos m cs d ≤ q := by
  constructor
  · intro hle
    exact Int.le_trans (bytePos_le h₁ hle h.le_last) h.byte_le
  · intro hq
    by_contra hlt
    rcases h.lt_next with hlast | hnext
    · omega
    · have hone := h.one_le
      have hmono := bytePos_le (m := m) (k := c + 1) (l := d) (by omega) (by omega) h₂
      omega

theorem IsCharOf.unique (h : IsCharOf m cs q c) (h' : IsCharOf m cs q d) : c = d :=
  Int.le_antisymm ((h'.le_iff h.one_le h.le_last).mpr h.byte_le)
    ((h.le_iff h'.one_le h'.le_last).mpr h'.byte_le)

theorem IsPlace.isCharOf {p : Position} (hp : IsPlace m cs p) (hle : p.byte ≤ q)
    (hnext : p.char = cs.length + 1 ∨ q < bytePos m cs (p.char + 1)) : IsCharOf m cs q p.char :=
  ⟨hp.one_le, hp.le_last, hp.byte_eq ▸ hle, hnext⟩

/-- A place lies before the one behind its character. -/
theorem IsPlace.lt_next {p : Position} (hp : IsPlace m cs p) :
    p.char = cs.length + 1 ∨ p.byte < bytePos m cs (p.char + 1) := by
  rcases Int.lt_or_eq_of_le hp.le_last with hlt | heq
  · rw [hp.byte_eq]
    exact Or.inr (bytePos_lt hp.one_le (Int.lt_add_one_of_le (Int.le_refl _)) hlt)
  · exact Or.inl heq

end Code

namespace Buffer

open Code

variable {b : Buffer} {cs : List Int} {p : Position} {q : Int}

/-! ## Walks to a byte -/

theorem HasText.isPlace_next (h : HasText b cs) (hp : IsPlace b.multibyte cs p)
    (hlt : p.byte < b.text.endPos) :
    IsPlace b.multibyte cs ⟨p.char + 1, b.next p.byte⟩ ∧ p.byte < b.next p.byte := by
  have hone := hp.one_le
  have hchar : p.char ≤ cs.length := by
    by_contra hlast
    have heq : p.char = cs.length + 1 := Int.le_antisymm hp.le_last (by omega)
    rw [hp.byte_eq, heq, bytePos_last, ← h.endPos_eq] at hlt
    exact Int.lt_irrefl _ hlt
  have hstep : b.next p.byte = bytePos b.multibyte cs (p.char + 1) := by
    rw [hp.byte_eq]
    exact h.next_bytePos hone hchar
  refine ⟨⟨?_, ?_, hstep⟩, ?_⟩
  · show 1 ≤ p.char + 1
    omega
  · show p.char + 1 ≤ cs.length + 1
    omega
  · rw [hstep, hp.byte_eq]
    exact bytePos_lt hone (by omega) (by omega)

theorem HasText.isPlace_prev (h : HasText b cs) (hp : IsPlace b.multibyte cs p)
    (hlt : 1 < p.byte) :
    IsPlace b.multibyte cs ⟨p.char - 1, b.prev p.byte⟩ ∧ b.prev p.byte < p.byte := by
  have hlast := hp.le_last
  have hchar : 1 < p.char := by
    by_contra hfirst
    have heq : p.char = 1 := Int.le_antisymm (by omega) hp.one_le
    rw [hp.byte_eq, heq, bytePos_one] at hlt
    exact Int.lt_irrefl 1 hlt
  have hstep : b.prev p.byte = bytePos b.multibyte cs (p.char - 1) := by
    have hprev := h.prev_bytePos (k := p.char - 1) (by omega) (by omega)
    rwa [Int.sub_add_cancel, ← hp.byte_eq] at hprev
  refine ⟨⟨?_, ?_, hstep⟩, ?_⟩
  · show 1 ≤ p.char - 1
    omega
  · show p.char - 1 ≤ cs.length + 1
    omega
  · rw [hstep, hp.byte_eq]
    exact bytePos_lt (by omega) (by omega) hlast

/-- A walk forward to a byte of the text gets there, from place to place. -/
theorem HasText.advanceTo (h : HasText b cs) (hq : q ≤ b.text.endPos) {n : Nat}
    (hp : IsPlace b.multibyte cs p) (hn : q - p.byte ≤ n) :
    IsPlace b.multibyte cs (b.advanceTo q n p) ∧ q ≤ (b.advanceTo q n p).byte := by
  induction n generalizing p with
  | zero =>
      refine ⟨hp, ?_⟩
      show q ≤ p.byte
      omega
  | succ n ih =>
      rw [Buffer.advanceTo]
      split
      · rename_i hlt
        obtain ⟨hplace, hmore⟩ := h.isPlace_next hp (by omega)
        refine ih hplace ?_
        show q - b.next p.byte ≤ n
        omega
      · rename_i hge
        exact ⟨hp, Int.not_lt.mp hge⟩

/-- A walk back to a byte, from a place not before its character, stops at that character. -/
theorem HasText.retreatTo (h : HasText b cs) (hq : 1 ≤ q) {n : Nat}
    (hp : IsPlace b.multibyte cs p) (hn : p.byte - q ≤ n)
    (hnext : p.char = cs.length + 1 ∨ q < bytePos b.multibyte cs (p.char + 1)) :
    IsCharOf b.multibyte cs q (b.retreatTo q n p).char := by
  induction n generalizing p with
  | zero => exact hp.isCharOf (by omega) hnext
  | succ n ih =>
      rw [Buffer.retreatTo]
      split
      · rename_i hlt
        obtain ⟨hplace, hless⟩ := h.isPlace_prev hp (by omega)
        -- the place left behind starts the next character, and the byte is before it
        refine ih hplace ?_ (Or.inr ?_)
        · show b.prev p.byte - q ≤ n
          omega
        · show q < bytePos b.multibyte cs (p.char - 1 + 1)
          rw [Int.sub_add_cancel, ← hp.byte_eq]
          exact hlt
      · rename_i hge
        exact hp.isCharOf (Int.not_lt.mp hge) hnext

/-- The walk to a byte from the nearest landmark, which a conversion makes unless every character
is a single byte. -/
def walkToChar (b : Buffer) (q : Int) : Int :=
  let p := b.nearest Position.byte q
  let p := b.advanceTo q (q - p.byte).toNat p
  (b.retreatTo q (p.byte - q).toNat p).char

theorem toChar_def (b : Buffer) (q : Int) :
    b.toChar q = if b.isSingleByte then q else b.walkToChar q := rfl

/-- The walk ends at the character of the byte, from whichever place it starts. -/
theorem Sound.isCharOf_walkToChar (h : Sound b cs) (h₁ : 1 ≤ q) (h₂ : q ≤ b.text.endPos) :
    IsCharOf b.multibyte cs q (b.walkToChar q) := by
  have hp := h.landmark (nearest_mem b Position.byte q)
  unfold walkToChar
  generalize b.nearest Position.byte q = p at hp
  obtain ⟨hplace, hge⟩ := h.advanceTo h₂ hp (Int.self_le_toNat (q - p.byte))
  refine h.retreatTo h₁ hplace (Int.self_le_toNat _) ?_
  rcases hplace.lt_next with hlast | hnext
  · exact Or.inl hlast
  · exact Or.inr (Int.lt_of_le_of_lt hge hnext)

theorem Sound.isCharOf_toChar (h : Sound b cs) (h₁ : 1 ≤ q) (h₂ : q ≤ b.text.endPos) :
    IsCharOf b.multibyte cs q (b.toChar q) := by
  rw [toChar_def]
  split
  · rename_i hb
    have hlast := h.bytePos_of_isSingleByte hb (k := cs.length + 1) (by omega) (Int.le_refl _)
    rw [bytePos_last, ← h.endPos_eq] at hlast
    have hbyte := h.bytePos_of_isSingleByte hb h₁ (hlast ▸ h₂)
    refine ⟨h₁, hlast ▸ h₂, Int.le_of_eq hbyte, ?_⟩
    rcases Int.lt_or_eq_of_le (hlast ▸ h₂ : q ≤ cs.length + 1) with hlt | heq
    · rw [h.bytePos_of_isSingleByte hb (by omega) hlt]
      exact Or.inr (Int.lt_add_one_of_le (Int.le_refl q))
    · exact Or.inl heq
  · exact h.isCharOf_walkToChar h₁ h₂

theorem Sound.toChar_bytePos (h : Sound b cs) {k : Int} (h₁ : 1 ≤ k) (h₂ : k ≤ cs.length + 1) :
    b.toChar (bytePos b.multibyte cs k) = k := by
  have hplace := h.position h₁ h₂
  obtain ⟨hlo, hhi⟩ := h.byte_mem hplace
  have hchar := hplace.isCharOf (Int.le_refl _) hplace.lt_next
  rw [hplace.byte_eq] at hlo hhi hchar
  exact (h.isCharOf_toChar hlo hhi).unique hchar

/-! ## What conversions depend on -/

/-- **Conversions are exact and depend on the text alone.** A character is converted to the byte
position at which it starts, and a byte position, also one inside a character, to the only character
in which it lies; so each conversion tells the other one's order, and going to bytes and back leads
to the same character. Where the point, the gap and the limits of the accessible part are makes no
difference, nor how large the gap is, nor whether the walk is made or the shortcut taken. -/
theorem Sound.conversions (h : Sound b cs) :
    (∀ c, 1 ≤ c → c ≤ b.endChar → b.toByte c = bytePos b.multibyte cs c) ∧
    (∀ q, 1 ≤ q → q ≤ b.text.endPos →
      IsCharOf b.multibyte cs q (b.toChar q) ∧
      ∀ c, IsCharOf b.multibyte cs q c → c = b.toChar q) ∧
    (∀ c q, 1 ≤ c → c ≤ b.endChar → 1 ≤ q → q ≤ b.text.endPos →
      (c ≤ b.toChar q ↔ b.toByte c ≤ q)) ∧
    (∀ c, 1 ≤ c → c ≤ b.endChar → b.toChar (b.toByte c) = c) ∧
    (∀ b' cs', Sound b' cs' → b'.multibyte = b.multibyte → b'.text.contents = b.text.contents →
      (∀ c, 1 ≤ c → c ≤ b.endChar → b'.toByte c = b.toByte c) ∧
      ∀ q, 1 ≤ q → q ≤ b.text.endPos → b'.toChar q = b.toChar q) ∧
    (∀ c, 1 ≤ c → c ≤ b.endChar → b.walkToByte c = b.toByte c) ∧
    ∀ q, 1 ≤ q → q ≤ b.text.endPos → b.walkToChar q = b.toChar q := by
  have hend := h.endChar_eq
  have htoByte : ∀ c, 1 ≤ c → c ≤ b.endChar → b.toByte c = bytePos b.multibyte cs c :=
    fun c h₁ h₂ => h.toByte_eq h₁ (hend ▸ h₂)
  have hle : ∀ c q, 1 ≤ c → c ≤ b.endChar → 1 ≤ q → q ≤ b.text.endPos →
      (c ≤ b.toChar q ↔ b.toByte c ≤ q) := by
    intro c q h₁ h₂ h₃ h₄
    rw [htoByte c h₁ h₂]
    exact (h.isCharOf_toChar h₃ h₄).le_iff h₁ (hend ▸ h₂)
  refine ⟨htoByte, ?_, hle, ?_, ?_, ?_, ?_⟩
  · intro q h₁ h₂
    exact ⟨h.isCharOf_toChar h₁ h₂, fun c hc => hc.unique (h.isCharOf_toChar h₁ h₂)⟩
  · intro c h₁ h₂
    have hplace := h.position h₁ (hend ▸ h₂)
    obtain ⟨hlo, hhi⟩ : 1 ≤ b.toByte c ∧ b.toByte c ≤ b.text.endPos := h.byte_mem hplace
    exact (h.isCharOf_toChar hlo hhi).unique (hplace.isCharOf (Int.le_refl _) hplace.lt_next)
  · intro b' cs' h' hm htext
    -- texts of one kind with the same bytes have the same characters
    obtain rfl : cs' = cs := by
      rw [← h'.chars_eq, ← h.chars_eq]
      unfold chars
      rw [hm, htext]
    have hend' : b'.text.endPos = b.text.endPos := by rw [h'.endPos_eq, h.endPos_eq, hm]
    refine ⟨?_, ?_⟩
    · intro c h₁ h₂
      rw [htoByte c h₁ h₂, h'.toByte_eq h₁ (hend ▸ h₂), hm]
    · intro q h₁ h₂
      have hc := h'.isCharOf_toChar h₁ (hend'.symm ▸ h₂)
      rw [hm] at hc
      exact hc.unique (h.isCharOf_toChar h₁ h₂)
  · intro c h₁ h₂
    rw [htoByte c h₁ h₂, h.walkToByte_eq h₁ (hend ▸ h₂)]
  · intro q h₁ h₂
    exact (h.isCharOf_walkToChar h₁ h₂).unique (h.isCharOf_toChar h₁ h₂)

/-- A gap between a character of three bytes and a raw byte. The end is the landmark nearest to the
third byte of the last character, and from there the walk goes back. -/
theorem Sound.conversions_across_gap :
    let ks : List Command :=
      [.insertExternal 1 [0x61, 0xC3, 0xA9, 0xE2, 0x82, 0xAC, 0xFF, 0xF0, 0x9F, 0x98, 0x80],
        .goTo 3, .moveGap 4]
    let b := ks.foldl step { multibyte := true }
    Sound b [0x61, 0xE9, 0x20AC, 0x3FFFFF, 0x1F600] ∧ b.text.gapPos = 7 ∧
      b.toByte 5 = 9 ∧ b.toChar 6 = 3 ∧ b.toChar 8 = 4 ∧ b.toChar 11 = 5 := by
  intro ks b
  obtain ⟨hrep, hm⟩ := represents_run (m := true) ks (by decide +kernel)
  have hchars : (ks.foldl (Editor.after true) {}).chars =
      [0x61, 0xE9, 0x20AC, 0x3FFFFF, 0x1F600] := by decide +kernel
  have hsound := hrep.sound
  rw [hchars] at hsound
  have hend : b.endChar = 6 := hsound.endChar_eq
  have hendPos : b.text.endPos = 13 := by
    rw [hsound.endPos_eq, hm]
    decide
  have hgap : b.text.gapPos = bytePos b.multibyte _ 4 := hsound.gap.byte_eq
  obtain ⟨htoByte, htoChar, -⟩ := Sound.conversions hsound
  change b.multibyte = true at hm
  rw [hm] at htoByte htoChar hgap
  rw [hend] at htoByte
  rw [hendPos] at htoChar
  have hat : ∀ q c, 1 ≤ q → q ≤ 13 →
      IsCharOf true [0x61, 0xE9, 0x20AC, 0x3FFFFF, 0x1F600] q c → b.toChar q = c :=
    fun q c h₁ h₂ hc => ((htoChar q h₁ h₂).2 c hc).symm
  refine ⟨hsound, hgap.trans (by decide), htoByte 5 (by decide) (by decide), ?_, ?_, ?_⟩
  · exact hat 6 3 (by decide) (by decide) ⟨by decide, by decide, by decide, by decide⟩
  · exact hat 8 4 (by decide) (by decide) ⟨by decide, by decide, by decide, by decide⟩
  · exact hat 11 5 (by decide) (by decide) ⟨by decide, by decide, by decide, by decide⟩

end Buffer

end GapText
