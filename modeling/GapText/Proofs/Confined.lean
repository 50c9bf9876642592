import GapText.Proofs.Editor

/-!
# Edits of a narrowed buffer

The text of a buffer has three parts: what is before the accessible one, the accessible one, and
what is behind it. Only the part in the middle can be edited. Told in characters, an edit takes
place between the two limits, so the lists in front of the lower limit and behind the upper one stay
as they are; told in bytes, these two lists are what the buffer reads from the start up to the lower
limit and from the upper limit up to the end.
-/

namespace GapText

open Code

/-! ## What is not accessible -/

namespace Editor

/-- The characters before the accessible part. -/
def front (e : Editor) : List Int := e.chars.take (e.lower - 1).toNat

/-- The characters behind the accessible part. -/
def back (e : Editor) : List Int := e.chars.drop (e.upper - 1).toNat

/-- Both sides of the accessible part are the same. -/
structure SameOutside (e e' : Editor) : Prop where
  lower_eq : e'.lower = e.lower
  front_eq : e'.front = e.front
  back_eq : e'.back = e.back

variable {e e' e'' : Editor}

theorem SameOutside.refl (e : Editor) : SameOutside e e := ⟨rfl, rfl, rfl⟩

theorem SameOutside.trans (h : SameOutside e e') (h' : SameOutside e' e'') : SameOutside e e'' :=
  ⟨h'.lower_eq.trans h.lower_eq, h'.front_eq.trans h.front_eq, h'.back_eq.trans h.back_eq⟩

/-- The limits of the accessible part are places of the text. -/
structure Bounded (e : Editor) : Prop where
  one_le : 1 ≤ e.lower
  le_upper : e.lower ≤ e.upper
  le_last : e.upper ≤ e.chars.length + 1

/-- The text in three parts. -/
theorem Bounded.chars_eq (h : e.Bounded) : ∃ mid, e.chars = e.front ++ mid ++ e.back ∧
    e.lower = e.front.length + 1 ∧ e.upper = (e.front ++ mid).length + 1 := by
  obtain ⟨one_le, le_upper, le_last⟩ := h
  obtain ⟨pre, mid, post, hchars, hlo, hhi⟩ := exists_append_append one_le le_upper le_last
  have hfront : e.front = pre := by
    rw [front, hchars, hlo, List.append_assoc, take_place]
  have hback : e.back = post := by
    rw [back, hchars, hhi, drop_place]
  rw [hfront, hback]
  exact ⟨mid, hchars, hlo, hhi⟩

/-- Where two texts have these characters before and behind their accessible parts, their outsides
are the same. -/
theorem sameOutside_of_append (mid : List Int) (hlower : e.lower = e.front.length + 1)
    (hchars' : e'.chars = e.front ++ mid ++ e.back) (hlower' : e'.lower = e.lower)
    (hupper' : e'.upper = (e.front ++ mid).length + 1) : SameOutside e e' where
  lower_eq := hlower'
  front_eq := by
    show e'.chars.take (e'.lower - 1).toNat = e.front
    rw [hchars', hlower', hlower, List.append_assoc, take_place]
  back_eq := by
    show e'.chars.drop (e'.upper - 1).toNat = e.back
    rw [hchars', hupper', drop_place]

/-- An insertion between the limits. -/
theorem Bounded.sameOutside_splice {c : Int} (h : e.Bounded) (new : List Int) (hlo : e.lower ≤ c)
    (hhi : c ≤ e.upper) : SameOutside e (e.splice c new) := by
  obtain ⟨mid, hchars, hlower, hupper⟩ := h.chars_eq
  rw [List.length_append] at hupper
  -- the accessible part is cut where the characters are put in
  obtain ⟨pre, post, rfl, hc⟩ :=
    exists_append (show 1 ≤ c - e.front.length by omega)
      (show c - e.front.length ≤ mid.length + 1 by omega)
  obtain rfl : c = ((e.front ++ pre).length : Int) + 1 := by
    rw [List.length_append]
    omega
  have hsplit : e.chars = e.front ++ pre ++ (post ++ e.back) := by
    rw [hchars]
    simp only [List.append_assoc]
  refine sameOutside_of_append (pre ++ new ++ post) hlower ?_ rfl ?_
  · rw [chars_splice new hsplit]
    simp only [List.append_assoc]
  · show e.upper + new.length = _
    rw [hupper]
    simp only [List.length_append]
    omega

/-- A removal between the limits. -/
theorem Bounded.sameOutside_cut {lo hi : Int} (h : e.Bounded) (hlo : e.lower ≤ lo) (hle : lo ≤ hi)
    (hhi : hi ≤ e.upper) : SameOutside e (e.cut lo hi) := by
  obtain ⟨mid, hchars, hlower, hupper⟩ := h.chars_eq
  rw [List.length_append] at hupper
  obtain ⟨pre, gone, post, rfl, hpre, hgone⟩ :=
    exists_append_append (show 1 ≤ lo - e.front.length by omega)
      (show lo - e.front.length ≤ hi - e.front.length by omega)
      (show hi - e.front.length ≤ mid.length + 1 by omega)
  obtain rfl : lo = ((e.front ++ pre).length : Int) + 1 := by
    rw [List.length_append]
    omega
  obtain rfl : hi = ((e.front ++ pre ++ gone).length : Int) + 1 := by
    simp only [List.length_append] at hgone ⊢
    omega
  have hsplit : e.chars = e.front ++ pre ++ gone ++ (post ++ e.back) := by
    rw [hchars]
    simp only [List.append_assoc]
  refine sameOutside_of_append (pre ++ post) hlower ?_ rfl ?_
  · rw [chars_cut hsplit]
    simp only [List.append_assoc]
  · show e.upper - _ = _
    rw [hupper]
    simp only [List.length_append]
    omega

/-- Characters are only put between the limits, whether they are accepted or not. -/
theorem Bounded.sameOutside_insert {c : Int} {new : List Int} (h : e.Bounded)
    (hins : e.insert c new = .ok e') : SameOutside e e' := by
  unfold insert at hins
  split at hins
  · cases hins
  · rename_i hrange
    cases hins
    exact h.sameOutside_splice new (by omega) (by omega)

/-- Characters are only taken out between the limits. -/
theorem Bounded.sameOutside_delete {p q : Int} (h : e.Bounded)
    (hdel : e.delete p q = .ok e') : SameOutside e e' := by
  have hle := Buffer.ordered_le p q
  unfold delete at hdel
  dsimp only at hdel
  split at hdel
  · rename_i hrange
    cases hdel
    exact h.sameOutside_cut hrange.1 hle hrange.2
  · cases hdel

end Editor

namespace Buffer

/-- The command leaves the limits of the accessible part where they are. -/
def Command.keepsLimits : Command → Bool
  | .insert _ _ | .insertExternal _ _ | .delete _ _ | .moveGap _ | .goTo _ => true
  | .narrow _ _ | .erase | .widen => false

end Buffer

/-! ## One command and a run -/

/-- A command that leaves the limits alone changes nothing outside of them, refused or accepted. -/
theorem Editor.Bounded.sameOutside_after {e : Editor} {k : Buffer.Command} (h : e.Bounded)
    (m : Bool) (hk : k.keepsLimits = true) : SameOutside e (e.after m k) := by
  unfold after
  cases hrun : e.run m k with
  | error err => exact .refl e
  | ok e' =>
      cases k with
      | insert c s => exact h.sameOutside_insert hrun
      | insertExternal c s => exact h.sameOutside_insert hrun
      | delete p q => exact h.sameOutside_delete hrun
      | moveGap c =>
          cases hrun
          exact .refl e
      | goTo c =>
          cases hrun
          exact ⟨rfl, rfl, rfl⟩
      | narrow p q => cases hk
      | erase => cases hk
      | widen => cases hk

namespace Buffer

variable {b : Buffer} {e : Editor}

theorem Represents.bounded (h : Represents b e) : e.Bounded where
  one_le := h.lower_eq ▸ h.sound.lower.one_le
  le_upper := by
    rw [← h.lower_eq, ← h.upper_eq]
    exact h.sound.lower_le_upper
  le_last := h.upper_eq ▸ h.sound.upper.le_last

theorem Sound.represents {cs : List Int} (h : Sound b cs) :
    Represents b
      { chars := cs, point := b.point.char, lower := b.lower.char, upper := b.upper.char } :=
  ⟨h, rfl, rfl, rfl⟩

/-- What the buffer reads up to its lower limit and from its upper one. -/
theorem Represents.outside (h : Represents b e) :
    b.text.slice 1 b.lower.byte = encode b.multibyte e.front ∧
      b.text.slice b.upper.byte b.text.endPos = encode b.multibyte e.back ∧
      b.lower.byte = (encode b.multibyte e.front).length + 1 ∧
      b.endChar - b.upper.char = e.back.length ∧
      b.text.endPos - b.upper.byte = (encode b.multibyte e.back).length := by
  obtain ⟨mid, hchars, hlower, hupper⟩ := h.bounded.chars_eq
  have hsound := h.sound
  have hend := hsound.endPos_eq
  have hbytes := hsound.contents_eq
  have hlo := hsound.lower.byte_eq
  have hhi := hsound.upper.byte_eq
  rw [h.lower_eq, hlower] at hlo
  rw [h.upper_eq, hupper] at hhi
  rw [hchars] at hlo hhi hend hbytes
  rw [List.append_assoc, bytePos_length_add_one] at hlo
  rw [bytePos_length_add_one] at hhi
  rw [encode_append] at hend hbytes
  refine ⟨?_, ?_, hlo, ?_, ?_⟩
  · rw [hlo]
    rw [encode_append, List.append_assoc] at hbytes
    exact GapBuffer.slice_eq (x := []) hbytes
  · rw [hhi, hend]
    rw [← List.append_nil (encode b.multibyte (e.front ++ mid) ++ _)] at hbytes
    exact GapBuffer.slice_eq hbytes
  · rw [hsound.endChar_eq, h.upper_eq, hupper, hchars]
    simp only [List.length_append]
    omega
  · rw [hhi, hend]
    simp only [List.length_append]
    omega

/-- A run that leaves the limits alone leads to a buffer with the same characters outside. -/
theorem Represents.sameOutside_run (h : Represents b e) (ks : List Command)
    (hks : Along Buffer.step Admissible b ks) (hkeeps : ∀ k ∈ ks, k.keepsLimits = true) :
    ∃ e', Represents (ks.foldl Buffer.step b) e' ∧ Editor.SameOutside e e' ∧
      (ks.foldl Buffer.step b).multibyte = b.multibyte := by
  induction ks generalizing b e with
  | nil => exact ⟨e, h, .refl e, rfl⟩
  | cons k ks ih =>
      have hk := h.bounded.sameOutside_after b.multibyte (hkeeps k List.mem_cons_self)
      obtain ⟨e', hrep, hrest, hm⟩ := ih (h.step hks.1) hks.2 fun k hk =>
        hkeeps k (List.mem_cons_of_mem _ hk)
      exact ⟨e', hrep, hk.trans hrest, hm.trans (counted_step b k).1⟩

/-- **Narrowing confines edits.** However a narrowed buffer is edited, whichever edits are refused,
and wherever its gap and its point are sent: the bytes before the accessible part and the bytes
behind it stay as they are, the lower limit stays where it is, and the upper one stays as far from
the end. -/
theorem confined_run {cs : List Int} (h : Sound b cs) (ks : List Command)
    (hks : Along step Admissible b ks) (hkeeps : ∀ k ∈ ks, k.keepsLimits = true) :
    let b' := ks.foldl step b
    b'.text.slice 1 b'.lower.byte = b.text.slice 1 b.lower.byte ∧
      b'.text.slice b'.upper.byte b'.text.endPos = b.text.slice b.upper.byte b.text.endPos ∧
      b'.lower = b.lower ∧
      b'.endChar - b'.upper.char = b.endChar - b.upper.char ∧
      b'.text.endPos - b'.upper.byte = b.text.endPos - b.upper.byte := by
  intro b'
  obtain ⟨e', hrep, hout, hm⟩ := h.represents.sameOutside_run ks hks hkeeps
  obtain ⟨hfront, hback, hlower, hchars, hbytes⟩ := h.represents.outside
  obtain ⟨hfront', hback', hlower', hchars', hbytes'⟩ := hrep.outside
  rw [hm, hout.front_eq] at hfront' hlower'
  rw [hm, hout.back_eq] at hback' hbytes'
  rw [hout.back_eq] at hchars'
  refine ⟨hfront'.trans hfront.symm, hback'.trans hback.symm, ?_, hchars'.trans hchars.symm,
    hbytes'.trans hbytes.symm⟩
  have hchar : b'.lower.char = b.lower.char := hrep.lower_eq.trans hout.lower_eq
  have hbyte : b'.lower.byte = b.lower.byte := hlower'.trans hlower.symm
  exact congrArg₂ Position.mk hchar hbyte

/-- Edits at both limits and across them, of a part between characters of several bytes, with raw
bytes put next to the raw bytes outside. -/
theorem confined_run_at_limits :
    let start : List Command :=
      [.insertExternal 1 [0xC3, 0xA9, 0xFF, 0x61, 0x62, 0xE2, 0x82, 0xAC, 0x80], .narrow 3 5]
    let ks : List Command :=
      [.insertExternal 3 [0xC3, 0x80], .insert 6 [0xC1, 0xBF], .delete 6 5, .moveGap 1,
        .delete 2 4, .goTo 1, .delete 3 4, .insertExternal 6 [0x7A], .insertExternal 3 [0xA9],
        .moveGap 8]
    let b := start.foldl step { multibyte := true }
    let b' := ks.foldl step b
    Along step Admissible b ks ∧
      b'.chars = [0xE9, 0x3FFFFF, 0x3FFFA9, 0x61, 0x3FFFFF, 0x20AC, 0x3FFF80] ∧
      b'.text.slice 1 b'.lower.byte = [0xC3, 0xA9, 0xC1, 0xBF] ∧
      b'.text.slice b'.upper.byte b'.text.endPos = [0xE2, 0x82, 0xAC, 0xC0, 0x80] := by
  intro start ks b b'
  have hstart : Along step Admissible { multibyte := true } start := by decide +kernel
  have hks : Along step Admissible b ks := by decide +kernel
  have hall : Along step Admissible { multibyte := true } (start ++ ks) := by decide +kernel
  have hrep := (represents_run start hstart).1
  obtain ⟨hfront, hback, -⟩ := confined_run hrep.sound ks hks (by decide)
  obtain ⟨hfront', hback', -⟩ := hrep.outside
  refine ⟨hks, ?_, hfront.trans (hfront'.trans ?_), hback.trans (hback'.trans ?_)⟩
  · have hchars := (represents_run (start ++ ks) hall).1.sound.chars_eq
    rw [List.foldl_append, List.foldl_append] at hchars
    exact hchars.trans (by decide +kernel)
  · decide +kernel
  · decide +kernel

end Buffer

end GapText
