import GapText.Proofs.Convert
import GapText.Buffer.Command

/-!
# Edits keep a buffer sound

An edit of a sound buffer gives a sound buffer again. Each of the places kept up to date lies
before the edited part, behind it or in it, and either stays, is shifted by what the text became
longer, or goes to where the part was.

Which places and counts an operation changes does not depend on soundness: it either leaves the
length of the text and both ticks alone, or changes the length and counts one edit (`Counted`).
-/

namespace GapText.Buffer

open Code

variable {b : Buffer} {cs pre mid post new : List Int}

/-! ## Texts put in and taken out -/

theorem countChars_encode (h : ∀ c ∈ new, Allowed b.multibyte c) :
    b.countChars (encode b.multibyte new) = new.length := by
  unfold countChars
  cases hm : b.multibyte with
  | false => exact length_encode_false new
  | true =>
      rw [hm] at h
      exact count_forms h

theorem Sound.toByte_append (h : Sound b (pre ++ post)) :
    b.toByte (pre.length + 1) = (encode b.multibyte pre).length + 1 := by
  rw [h.toByte_eq (by omega) (by rw [List.length_append]; omega), bytePos_length_add_one]

/-- The bytes of a text that is put in stand between those of the two parts. -/
theorem Sound.hasText_splice (h : Sound b (pre ++ post)) (hnew : ∀ c ∈ new, Allowed b.multibyte c) :
    HasText (b.splice (pre.length + 1) (encode b.multibyte new)).value (pre ++ new ++ post) := by
  have hplace : IsPlace b.multibyte (pre ++ post) (b.position (pre.length + 1)) :=
    h.position (by omega) (by rw [List.length_append]; omega)
  have hmem : 1 ≤ b.toByte (pre.length + 1) ∧ b.toByte (pre.length + 1) ≤ b.text.endPos :=
    h.byte_mem hplace
  have hstart : b.toByte (pre.length + 1) - 1 = (encode b.multibyte pre).length := by
    rw [h.toByte_append, Int.add_sub_cancel]
  refine ⟨?_, ?_, ?_, ?_⟩
  · exact GapBuffer.wellFormed_insert h.wellFormed hmem
  · intro c hc
    simp only [List.mem_append] at hc
    rcases hc with (hpre | hmid) | hpost
    · exact h.allowed c (List.mem_append_left _ hpre)
    · exact hnew c hmid
    · exact h.allowed c (List.mem_append_right _ hpost)
  · show (b.text.insert (b.toByte (pre.length + 1)) (encode b.multibyte new)).value.contents = _
    rw [GapBuffer.contents_insert h.wellFormed hmem, hstart, Int.toNat_natCast, h.contents_eq,
      encode_append, List.take_left, List.drop_left]
    show _ = encode b.multibyte (pre ++ new ++ post)
    rw [encode_append, encode_append]
  · have hend := h.endChar_eq
    show b.endChar + b.countChars (encode b.multibyte new) = _
    rw [countChars_encode hnew, hend]
    simp only [List.length_append]
    omega

/-- **An insertion keeps a buffer sound.** -/
theorem Sound.splice (h : Sound b (pre ++ post)) (hnew : ∀ c ∈ new, Allowed b.multibyte c)
    (hne : new ≠ []) (hlo : b.lower.char ≤ pre.length + 1) (hhi : pre.length + 1 ≤ b.upper.char) :
    Sound (b.splice (pre.length + 1) (encode b.multibyte new)).value (pre ++ new ++ post) := by
  have hchars := countChars_encode hnew
  have hshift : ∀ {p : Position}, IsPlace b.multibyte (pre ++ post) p → pre.length + 1 ≤ p.char →
      IsPlace b.multibyte (pre ++ new ++ post)
        (p.shift new.length (encode b.multibyte new).length) := by
    intro p hp hchar
    refine hp.shift hchar ?_ ?_
    · rw [List.length_append]
      omega
    · rw [encode_append, List.length_append]
      omega
  have hstay : ∀ {p : Position}, IsPlace b.multibyte (pre ++ post) p → p.char ≤ pre.length + 1 →
      IsPlace b.multibyte (pre ++ new ++ post) p := by
    intro p hp hchar
    rw [List.append_assoc]
    exact hp.behind hchar
  refine ⟨h.hasText_splice hnew, ?_, ?_, ?_, ?_, ?_⟩
  · show IsPlace b.multibyte _ (if (pre.length + 1 : Int) ≤ b.point.char then
      b.point.shift (b.countChars (encode b.multibyte new)) _ else b.point)
    rw [hchars]
    split
    · rename_i hpoint
      exact hshift h.point hpoint
    · exact hstay h.point (by omega)
  · exact hstay h.lower hlo
  · show IsPlace b.multibyte _ (b.upper.shift (b.countChars (encode b.multibyte new)) _)
    rw [hchars]
    exact hshift h.upper hhi
  -- the gap ends up behind what was put in
  · have hgap : (b.text.insert (b.toByte (pre.length + 1))
        (encode b.multibyte new)).value.gapStart = (encode b.multibyte (pre ++ new)).length := by
      rw [h.toByte_append, GapBuffer.gapStart_insert (encode_ne_nil hne) (by omega),
        Int.add_sub_cancel, Int.toNat_natCast, encode_append, List.length_append]
    refine isPlace_append ?_ (congrArg (fun n : Nat => (n : Int) + 1) hgap)
    show (pre.length : Int) + 1 + b.countChars (encode b.multibyte new) = _
    rw [hchars, List.length_append]
    omega
  · show b.lower.char ≤ b.upper.char + b.countChars (encode b.multibyte new)
    have hle := h.lower_le_upper
    omega

theorem Sound.toByte_append_append (h : Sound b (pre ++ mid ++ post)) :
    b.toByte (pre.length + 1) = (encode b.multibyte pre).length + 1 ∧
      b.toByte ((pre ++ mid).length + 1) = (encode b.multibyte (pre ++ mid)).length + 1 := by
  refine ⟨?_, h.toByte_append⟩
  rw [List.append_assoc] at h
  exact h.toByte_append

theorem Sound.hasText_cut (h : Sound b (pre ++ mid ++ post)) (hne : mid ≠ []) :
    HasText (b.cut (pre.length + 1) ((pre ++ mid).length + 1)).value (pre ++ post) := by
  obtain ⟨hstart, hstop⟩ := h.toByte_append_append
  have hpos := List.length_pos_iff.mpr hne
  have hbytes := length_le_length_encode (m := b.multibyte) mid
  have hlen : (encode b.multibyte (pre ++ mid)).length =
      (encode b.multibyte pre).length + (encode b.multibyte mid).length := by
    rw [encode_append, List.length_append]
  have hend := h.endPos_eq
  rw [encode_append, List.length_append] at hend
  have hone : 1 ≤ b.toByte (pre.length + 1) := by omega
  have hlast : b.toByte ((pre ++ mid).length + 1) ≤ b.text.endPos := by omega
  refine ⟨?_, ?_, ?_, ?_⟩
  · exact GapBuffer.wellFormed_delete h.wellFormed hone hlast
  · intro c hc
    rcases List.mem_append.mp hc with hpre | hpost
    · exact h.allowed c (List.mem_append_left _ (List.mem_append_left _ hpre))
    · exact h.allowed c (List.mem_append_right _ hpost)
  · show (b.text.delete (b.toByte (pre.length + 1))
      (b.toByte ((pre ++ mid).length + 1))).value.contents = encode b.multibyte (pre ++ post)
    rw [GapBuffer.contents_delete h.wellFormed hone hlast, if_neg (by omega), hstart, hstop,
      Int.add_sub_cancel, Int.add_sub_cancel, Int.toNat_natCast, Int.toNat_natCast, h.contents_eq,
      encode_append (pre ++ mid), List.drop_left, encode_append, List.append_assoc, List.take_left,
      encode_append]
  · have hend := h.endChar_eq
    show b.endChar + -(((pre ++ mid).length : Int) + 1 - (pre.length + 1)) = _
    rw [hend]
    simp only [List.length_append]
    omega

/-- **A removal keeps a buffer sound.** -/
theorem Sound.cut (h : Sound b (pre ++ mid ++ post)) (hne : mid ≠ [])
    (hlo : b.lower.char ≤ pre.length + 1) (hhi : (pre ++ mid).length + 1 ≤ b.upper.char) :
    Sound (b.cut (pre.length + 1) ((pre ++ mid).length + 1)).value (pre ++ post) := by
  obtain ⟨hstart, hstop⟩ := h.toByte_append_append
  have hpos := List.length_pos_iff.mpr hne
  have hmid := length_le_length_encode (m := b.multibyte) mid
  have hbytes : (encode b.multibyte (pre ++ mid)).length =
      (encode b.multibyte pre).length + (encode b.multibyte mid).length := by
    rw [encode_append, List.length_append]
  have hlength : (pre ++ mid).length = pre.length + mid.length := List.length_append
  have hshift : ∀ {p : Position}, IsPlace b.multibyte (pre ++ mid ++ post) p →
      (pre ++ mid).length + 1 ≤ p.char →
      IsPlace b.multibyte (pre ++ post)
        (p.shift (-(((pre ++ mid).length : Int) + 1 - (pre.length + 1)))
          (-(b.toByte ((pre ++ mid).length + 1) - b.toByte (pre.length + 1)))) := by
    intro p hp hchar
    exact hp.shift hchar (by omega) (by omega)
  have hstay : ∀ {p : Position}, IsPlace b.multibyte (pre ++ mid ++ post) p →
      p.char ≤ pre.length + 1 → IsPlace b.multibyte (pre ++ post) p := by
    intro p hp hchar
    rw [List.append_assoc] at hp
    exact hp.behind hchar
  refine ⟨h.hasText_cut hne, ?_, hstay h.lower hlo, hshift h.upper hhi, ?_, ?_⟩
  · show IsPlace b.multibyte _ (if ((pre ++ mid).length : Int) + 1 ≤ b.point.char
      then b.point.shift _ _
      else if (pre.length : Int) + 1 < b.point.char then b.position (pre.length + 1) else b.point)
    split
    · rename_i hpoint
      exact hshift h.point hpoint
    · split
      · exact isPlace_append rfl hstart
      · exact hstay h.point (by omega)
  · have hgap : (b.text.delete (b.toByte (pre.length + 1))
        (b.toByte ((pre ++ mid).length + 1))).value.gapStart = (encode b.multibyte pre).length := by
      rw [GapBuffer.gapStart_delete (by omega) (by omega), hstart, Int.add_sub_cancel,
        Int.toNat_natCast]
    exact isPlace_append rfl (congrArg (fun n : Nat => (n : Int) + 1) hgap)
  · have hle := h.lower_le_upper
    show b.lower.char ≤ b.upper.char + -(((pre ++ mid).length : Int) + 1 - (pre.length + 1))
    omega

/-! ## The other operations -/

theorem Sound.moveGap {c : Int} (h : Sound b cs) (h₁ : 1 ≤ c) (h₂ : c ≤ b.endChar) :
    Sound (b.moveGap c).value cs := by
  rw [h.endChar_eq] at h₂
  have hplace := h.position h₁ h₂
  have hmem : 1 ≤ b.toByte c ∧ b.toByte c ≤ b.text.endPos := h.byte_mem hplace
  refine ⟨⟨?_, h.allowed, ?_, h.endChar_eq⟩, h.point, h.lower, h.upper, ?_, h.lower_le_upper⟩
  · exact GapBuffer.wellFormed_moveGap h.wellFormed hmem
  · show (b.text.moveGap (b.toByte c)).value.contents = _
    rw [GapBuffer.contents_moveGap h.wellFormed hmem]
    exact h.contents_eq
  · have hgap : (b.moveGap c).value.gap = b.position c := by
      have hstart := GapBuffer.gapStart_moveGap (g := b.text) hmem.1
      show (⟨c, ((b.text.moveGap (b.toByte c)).value.gapStart : Int) + 1⟩ : Position) =
        ⟨c, b.toByte c⟩
      rw [hstart, Int.toNat_of_nonneg (by omega), Int.sub_add_cancel]
    rw [hgap]
    exact hplace

theorem Sound.setPoint {p : Position} (h : Sound b cs) (hp : IsPlace b.multibyte cs p) :
    Sound (b.setPoint p) cs :=
  ⟨⟨h.wellFormed, h.allowed, h.contents_eq, h.endChar_eq⟩, hp, h.lower, h.upper, h.gap,
    h.lower_le_upper⟩

theorem Sound.withOverlays (h : Sound b cs) (l : Chains) : Sound { b with overlays := l } cs :=
  ⟨⟨h.wellFormed, h.allowed, h.contents_eq, h.endChar_eq⟩, h.point, h.lower, h.upper, h.gap,
    h.lower_le_upper⟩

theorem Sound.widen (h : Sound b cs) : Sound b.widen cs :=
  ⟨⟨h.wellFormed, h.allowed, h.contents_eq, h.endChar_eq⟩, h.point, isPlace_first _ _, h.last,
    h.gap, h.last.one_le⟩

theorem Sound.confine {lower upper : Position} (h : Sound b cs)
    (hlower : IsPlace b.multibyte cs lower) (hupper : IsPlace b.multibyte cs upper)
    (hle : lower.char ≤ upper.char) : Sound (b.confine lower upper) cs := by
  refine ⟨⟨h.wellFormed, h.allowed, h.contents_eq, h.endChar_eq⟩, ?_, hlower, hupper, h.gap, hle⟩
  have hpoint : IsPlace b.multibyte cs (if b.point.char < lower.char then lower else b.point) := by
    split
    · exact hlower
    · exact h.point
  unfold Buffer.confine
  generalize (if b.point.char < lower.char then lower else b.point) = p at hpoint ⊢
  show IsPlace b.multibyte cs (if upper.char < p.char then upper else p)
  split
  · exact hupper
  · exact hpoint

/-! ## Counting edits -/

/-- An operation on a buffer of either kind keeps the length of the text and both ticks, or it
changes the length and sets both ticks to the next number. -/
def Counted (b b' : Buffer) : Prop :=
  b'.multibyte = b.multibyte ∧
    (b'.endChar = b.endChar ∧ b'.tick = b.tick ∧ b'.charsTick = b.charsTick ∨
      b'.endChar ≠ b.endChar ∧ b'.tick = b.tick + 1 ∧ b'.charsTick = b.tick + 1)

variable {b' : Buffer} {x : Logged Buffer}

theorem Counted.refl (b : Buffer) : Counted b b := ⟨rfl, Or.inl ⟨rfl, rfl, rfl⟩⟩

theorem countChars_pos {s : Bytes} (hs : s ≠ []) : 1 ≤ b.countChars s := by
  obtain ⟨c, rest, rfl⟩ := List.exists_cons_of_ne_nil hs
  unfold countChars
  split
  · rw [count]
    exact Nat.le_add_right _ _
  · exact Nat.succ_le_succ (Nat.zero_le _)

theorem counted_insert {c : Int} {s : Bytes} (h : b.insert c s = .ok x) : Counted b x.value := by
  unfold insert at h
  split at h
  · cases h
  · cases h
    split
    · exact Counted.refl b
    · rename_i hs
      have hpos := countChars_pos (b := b) (s := s) (by simpa using hs)
      refine ⟨rfl, Or.inr ⟨?_, rfl, rfl⟩⟩
      show b.endChar + b.countChars s ≠ b.endChar
      omega

theorem counted_delete {p q : Int} (h : b.delete p q = .ok x) : Counted b x.value := by
  unfold delete at h
  cases hregion : b.region p q with
  | error err =>
      rw [hregion] at h
      cases h
  | ok stretch =>
      obtain ⟨lo, hi⟩ := stretch
      rw [hregion] at h
      cases h
      show Counted b (if lo = hi then pure b else b.cut lo hi).value
      split
      · exact Counted.refl b
      · refine ⟨rfl, Or.inr ⟨?_, rfl, rfl⟩⟩
        show b.endChar + -(hi - lo) ≠ b.endChar
        omega

theorem counted_erase (b : Buffer) : Counted b b.erase.value := by
  unfold erase
  dsimp only
  split
  · rename_i erased hdelete
    have hcounted : Counted b.widen erased.value := counted_delete hdelete
    exact hcounted
  · exact Counted.refl b

/-- What every command does to the counts, whatever the state. -/
theorem counted_run {c : Command} (h : b.run c = .ok x) : Counted b x.value := by
  cases c with
  | insert c s => exact counted_insert h
  | insertExternal c s => exact counted_insert h
  | delete p q => exact counted_delete h
  | narrow p q =>
      rw [run, narrow] at h
      dsimp only at h
      split at h <;> cases h
      exact Counted.refl b
  | erase =>
      cases h
      exact counted_erase b
  | widen =>
      cases h
      exact Counted.refl b
  | moveGap c =>
      cases h
      exact Counted.refl b
  | goTo c =>
      cases h
      exact Counted.refl b

end GapText.Buffer
