import GapText.Proofs.Confined

/-!
# Outside text in pieces

Outside bytes may arrive in pieces. A piece that ends in the middle of a form must not be taken for
finished, but where a head byte comes next nothing is lost by a cut: a sequence that is cut short
there is no form either way. Alone it ends too early, and in the whole a head stands where a trail
would have to be. So the pieces can be brought into the internal form one by one, and they can be
put into a buffer one behind the other; the buffer cannot be told from one into which they were put
at once.
-/

namespace GapText

namespace Code

/-- A piece that does not go on with a form: it is empty, or its first byte is a head. -/
def StartsAtHead (s : Bytes) : Prop := ∀ b ∈ s.head?, isHead b = true

instance (s : Bytes) : Decidable (StartsAtHead s) :=
  inferInstanceAs (Decidable (∀ b ∈ s.head?, isHead b = true))

variable {s t : Bytes} {cs ds : List Int} {c : Int}

/-- A form that starts in a piece ends in it, if the next piece starts at a head. -/
theorem isPrefix_of_isPrefix_append (hc : IsChar c) (hs : s ≠ []) (ht : StartsAtHead t)
    (h : form c <+: s ++ t) : form c <+: s := by
  rcases List.prefix_or_prefix_of_prefix h (List.prefix_append s t) with hin | hout
  · exact hin
  -- otherwise the next piece starts among the trails of the form
  · obtain ⟨v, hv⟩ := hout
    rw [← hv, List.prefix_append_right_inj] at h
    cases v with
    | nil => exact ⟨[], by rw [← hv]; simp⟩
    | cons x v =>
        obtain ⟨rest, rfl⟩ := h
        have hx : isHead x = true := ht x (by simp)
        obtain ⟨b, tail, hform, hspells⟩ := exists_spells_form hc
        obtain ⟨y, u, rfl⟩ := List.exists_cons_of_ne_nil hs
        rw [hform, List.cons_append] at hv
        obtain ⟨-, rfl⟩ := List.cons.inj hv
        rw [hspells.trails x (by simp)] at hx
        exact absurd hx Bool.false_ne_true

/-- The scan of two pieces is that of the first and then that of the second. -/
theorem Scan.append (hs : Scan s cs) (ht : Scan t ds) (hhead : StartsAtHead t) :
    Scan (s ++ t) (cs ++ ds) := by
  induction hs with
  | nil => exact ht
  | kept lo hi _ ih =>
      rw [List.append_assoc, List.cons_append]
      exact .kept lo hi ih
  | @raw b rest _ high none _ ih =>
      refine .raw high (fun c lo hi hform => none c lo hi ?_) ih
      change form c <+: (b :: rest) ++ t at hform
      exact isPrefix_of_isPrefix_append (isChar_of_unicode lo hi) (List.cons_ne_nil _ _) hhead hform

theorem chars_ofExternal_append (ht : StartsAtHead t) :
    chars (ofExternal (s ++ t)) = chars (ofExternal s) ++ chars (ofExternal t) :=
  (scan_chars_ofExternal (s ++ t)).1.unique
    ((scan_chars_ofExternal s).1.append (scan_chars_ofExternal t).1 ht)

/-- **Pieces can be brought into the internal form one by one.** -/
theorem ofExternal_append (ht : StartsAtHead t) :
    ofExternal (s ++ t) = ofExternal s ++ ofExternal t := by
  rw [(scan_chars_ofExternal (s ++ t)).2, chars_ofExternal_append ht]
  unfold forms
  rw [List.flatMap_append]
  exact congrArg₂ (· ++ ·) (scan_chars_ofExternal s).2.symm (scan_chars_ofExternal t).2.symm

/-- So many characters are counted in outside text once it is brought into the internal form. -/
theorem count_ofExternal (s : Bytes) : count (ofExternal s) = (chars (ofExternal s)).length := by
  obtain ⟨cs, hcs, heq⟩ := exists_forms_ofExternal s
  rw [heq, count_forms hcs, chars_forms hcs]

end Code

open Code

/-! ## One insertion behind the other -/

attribute [ext] Editor

namespace Editor

variable {e : Editor} {c : Int}

/-- Characters that are put in behind those that were just put in. -/
theorem splice_splice (h₁ : 1 ≤ c) (h₂ : c ≤ e.endChar) (xs ys : List Int) :
    (e.splice c xs).splice (c + xs.length) ys = e.splice c (xs ++ ys) := by
  obtain ⟨pre, post, hchars, rfl⟩ := exists_append h₁ h₂
  have hplace : (pre.length : Int) + 1 + xs.length = ((pre ++ xs).length : Int) + 1 := by
    rw [List.length_append]
    omega
  ext1
  · rw [hplace, chars_splice ys (chars_splice xs hchars), chars_splice (xs ++ ys) hchars,
      List.append_assoc pre]
  -- the point is behind both or before both
  · simp only [splice, List.length_append]
    split <;> split <;> omega
  · rfl
  · simp only [splice, List.length_append]
    omega

end Editor

namespace Buffer

variable {b b' : Buffer} {e : Editor} {cs : List Int} {c : Int} {s t : Bytes}

/-- Two buffers of one kind that represent the same editor have the same text and places. -/
theorem Represents.same (h : Represents b e) (h' : Represents b' e)
    (hm : b'.multibyte = b.multibyte) :
    b'.text.contents = b.text.contents ∧ b'.last = b.last ∧ b'.point = b.point ∧
      b'.lower = b.lower ∧ b'.upper = b.upper := by
  have hsound' := h'.sound
  have hlast := hsound'.last
  obtain ⟨htext', hpoint', hlower', hupper', -, -⟩ := hsound'
  rw [hm] at hlast hpoint' hlower' hupper'
  refine ⟨?_, hlast.eq_of_char h.sound.last ?_, hpoint'.eq_of_char h.sound.point ?_,
    hlower'.eq_of_char h.sound.lower ?_, hupper'.eq_of_char h.sound.upper ?_⟩
  · rw [htext'.contents_eq, h.sound.contents_eq, hm]
  · exact h'.endChar_eq.trans h.endChar_eq.symm
  · exact h'.point_eq.trans h.point_eq.symm
  · exact h'.lower_eq.trans h.lower_eq.symm
  · exact h'.upper_eq.trans h.upper_eq.symm

/-- Outside text is put into the accessible part of a multibyte buffer by its characters. -/
theorem Represents.insertExternal (h : Represents b e) (hm : b.multibyte = true)
    (hlo : e.lower ≤ c) (hhi : c ≤ e.upper) (s : Bytes) :
    ∃ x, b.insertExternal c s = .ok x ∧
      Represents x.value (e.splice c (Code.chars (ofExternal s))) ∧ x.value.multibyte = true := by
  have hrun := h.run (k := .insertExternal c s) trivial
  have haccepted : e.run b.multibyte (.insertExternal c s) =
      .ok (e.splice c (Code.chars (ofExternal s))) := by
    rw [hm]
    exact if_neg (by omega)
  rw [haccepted] at hrun
  obtain ⟨x, hx, hrep⟩ := hrun.exists_ok
  exact ⟨x, hx, hrep, (counted_insert hx).1.trans hm⟩

/-- **Outside text can come in pieces.** Where the second piece starts at a head, the internal form
of both is that of the first and then that of the second. And whatever the buffer holds, and
wherever in its accessible part they are put: both pieces at once, or the second one behind the
first, make the same text with the same end, point and accessible part. -/
theorem insertExternal_append (s t : Bytes) (ht : StartsAtHead t) :
    ofExternal (s ++ t) = ofExternal s ++ ofExternal t ∧
    ∀ (b : Buffer) (cs : List Int) (c : Int), Sound b cs → b.multibyte = true →
      b.lower.char ≤ c → c ≤ b.upper.char →
      ∃ whole first second, b.insertExternal c (s ++ t) = .ok whole ∧
        b.insertExternal c s = .ok first ∧
        first.value.insertExternal (c + count (ofExternal s)) t = .ok second ∧
        second.value.text.contents = whole.value.text.contents ∧
        second.value.last = whole.value.last ∧ second.value.upper = whole.value.upper ∧
        second.value.lower = whole.value.lower ∧ second.value.point = whole.value.point := by
  refine ⟨ofExternal_append ht, ?_⟩
  intro b cs c hsound hm hlo hhi
  have hrep := hsound.represents
  obtain ⟨h₁, h₂⟩ := hrep.place_mem hlo hhi
  obtain ⟨whole, hwhole, hrepWhole, hmWhole⟩ := hrep.insertExternal hm hlo hhi (s ++ t)
  obtain ⟨first, hfirst, hrepFirst, hmFirst⟩ := hrep.insertExternal hm hlo hhi s
  rw [count_ofExternal]
  -- the second piece is put in where the first one ends, which is still accessible
  obtain ⟨second, hsecond, hrepSecond, hmSecond⟩ :=
    hrepFirst.insertExternal (c := c + (Code.chars (ofExternal s)).length) hmFirst
      (Int.le_trans hlo (Int.le_add_of_nonneg_right (Int.natCast_nonneg _)))
      (Int.add_le_add_right hhi _) t
  rw [Editor.splice_splice h₁ h₂, ← chars_ofExternal_append ht] at hrepSecond
  obtain ⟨htext, hlast, hpoint, hlower, hupper⟩ :=
    hrepWhole.same hrepSecond (hmSecond.trans hmWhole.symm)
  exact ⟨whole, first, second, hwhole, hfirst, hsecond, htext, hlast, hupper, hlower, hpoint⟩

/-- A form cut short by a head, at the start of the accessible part and with the point there. -/
theorem insertExternal_append_cut_short :
    let s : Bytes := [0xF0, 0x9F, 0x98]
    let t : Bytes := [0xC3, 0xA9, 0x80]
    let b := [Command.insertExternal 1 [0x61, 0xE2, 0x82, 0xAC, 0x62], .narrow 2 3, .goTo 2].foldl
      step { multibyte := true }
    ofExternal (s ++ t) = ofExternal s ++ ofExternal t ∧
    ∃ whole first second, b.insertExternal 2 (s ++ t) = .ok whole ∧
      b.insertExternal 2 s = .ok first ∧ first.value.insertExternal 5 t = .ok second ∧
      second.value.text.contents = whole.value.text.contents ∧
      second.value.point = whole.value.point := by
  intro s t b
  have hks : Along step Admissible { multibyte := true }
      [Command.insertExternal 1 [0x61, 0xE2, 0x82, 0xAC, 0x62], .narrow 2 3, .goTo 2] := by
    decide +kernel
  have hcount : count (ofExternal s) = 3 := by decide +kernel
  obtain ⟨hform, hinsert⟩ := insertExternal_append s t (by decide +kernel)
  obtain ⟨whole, first, second, hwhole, hfirst, hsecond, htext, -, -, -, hpoint⟩ :=
    hinsert b _ 2 (represents_run _ hks).1.sound (by decide +kernel) (by decide +kernel)
      (by decide +kernel)
  rw [hcount] at hsecond
  exact ⟨hform, whole, first, second, hwhole, hfirst, hsecond, htext, hpoint⟩

end Buffer

end GapText
