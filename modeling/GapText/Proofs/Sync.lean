import GapText.Proofs.Code

/-!
# A self-synchronising code

Heads and trails are different bytes, so a reader who starts anywhere finds the next character
without a look back, and no form is the start of another one. Reading as many characters as were
written gives them back, each in the length of its form, and stops where the last form ends,
whatever stands behind it.
-/

namespace GapText.Code

/-- So many characters, each read where the one before it ends, and the bytes that are left. -/
def readMany : Nat → Bytes → List Decoded × Bytes
  | 0, s => ([], s)
  | n + 1, s =>
      let d := decode s
      let more := readMany n (s.drop d.length)
      (d :: more.1, more.2)

variable {c d : Int} {cs : List Int} {i : Nat}

theorem readMany_forms (h : ∀ c ∈ cs, IsChar c) (t : Bytes) :
    readMany cs.length (forms cs ++ t) = (cs.map fun c => ⟨c, formLength c⟩, t) := by
  induction cs with
  | nil => rfl
  | cons c cs ih =>
      obtain ⟨hc, hcs⟩ := List.forall_mem_cons.mp h
      rw [forms_cons, List.append_assoc, List.length_cons]
      simp only [readMany]
      rw [decode_append hc, ← length_form, List.drop_left, ih hcs, length_form]
      rfl

/-! ## Where characters start -/

/-- The head of a form is its only head byte. -/
theorem isHead_form_iff (hc : IsChar c) (hi : i < (form c).length) :
    isHead (form c)[i] = true ↔ i = 0 := by
  obtain ⟨b, tail, hform, hspells⟩ := exists_spells_form hc
  simp only [hform, List.length_cons] at hi ⊢
  cases i with
  | zero => exact iff_of_true hspells.head rfl
  | succ i =>
      have htrail := hspells.trails _ (List.getElem_mem (Nat.lt_of_succ_lt_succ hi))
      rw [List.getElem_cons_succ, htrail]
      exact iff_of_false Bool.false_ne_true (Nat.succ_ne_zero i)

theorem isHead_forms_iff (h : ∀ c ∈ cs, IsChar c) (hi : i < (forms cs).length) :
    isHead (forms cs)[i] = true ↔ ∃ k < cs.length, i = (forms (cs.take k)).length := by
  induction cs generalizing i with
  | nil => exact absurd hi (Nat.not_lt_zero i)
  | cons c cs ih =>
      obtain ⟨hc, hcs⟩ := List.forall_mem_cons.mp h
      have hpos := List.length_pos_iff.mpr (form_ne_nil hc)
      simp only [forms_cons, List.length_append] at hi ⊢
      by_cases hin : i < (form c).length
      · rw [List.getElem_append_left hin, isHead_form_iff hc hin]
        constructor
        · rintro rfl
          exact ⟨0, Nat.succ_pos _, rfl⟩
        · rintro ⟨k, -, rfl⟩
          cases k with
          | zero => rfl
          -- a later character starts behind this form
          | succ k =>
              rw [List.take_succ_cons, forms_cons, List.length_append] at hin
              omega
      · have hrest : i - (form c).length < (forms cs).length := by omega
        rw [List.getElem_append_right (Nat.le_of_not_lt hin), ih hcs hrest]
        constructor
        · rintro ⟨k, hk, heq⟩
          refine ⟨k + 1, Nat.succ_lt_succ hk, ?_⟩
          rw [List.take_succ_cons, forms_cons, List.length_append]
          omega
        · rintro ⟨k, hk, rfl⟩
          cases k with
          | zero => exact absurd hpos hin
          | succ k =>
              refine ⟨k, Nat.lt_of_succ_lt_succ hk, ?_⟩
              rw [List.take_succ_cons, forms_cons, List.length_append, Nat.add_sub_cancel_left]

/-- No form is the start of another one. -/
theorem eq_of_form_isPrefix (hc : IsChar c) (hd : IsChar d) (h : form c <+: form d) : c = d := by
  obtain ⟨t, ht⟩ := h
  have hread := decode_append hd []
  rw [List.append_nil, ← ht, decode_append hc t] at hread
  exact congrArg Decoded.code hread

/-- **The forms are a self-synchronising code.** A string of forms is read back character by
character in their lengths, whatever follows; the length of a form is told by its head; heads stand
where characters start and nowhere else; and no form is the start of another one. -/
theorem forms_self_synchronising (cs : List Int) (h : ∀ c ∈ cs, IsChar c) (t : Bytes) :
    readMany cs.length (forms cs ++ t) = (cs.map fun c => ⟨c, formLength c⟩, t) ∧
    (∀ c ∈ cs, (form c).length = formLength c ∧
      ∃ b tail, form c = b :: tail ∧ headLength b = formLength c) ∧
    (∀ (i : Nat) (hi : i < (forms cs).length),
      isHead (forms cs)[i] = true ↔ ∃ k < cs.length, i = (forms (cs.take k)).length) ∧
    ∀ c d, IsChar c → IsChar d → form c <+: form d → c = d := by
  refine ⟨readMany_forms h t, ?_, fun i hi => isHead_forms_iff h hi,
    fun c d hc hd => eq_of_form_isPrefix hc hd⟩
  intro c hc
  obtain ⟨b, tail, hform, hspells⟩ := exists_spells_form (h c hc)
  refine ⟨length_form c, b, tail, hform, ?_⟩
  rw [hspells.length, ← length_form, hform, List.length_cons]

/-- The codes at which the length of the form changes, with a stray trail and a lonely head
behind them. -/
theorem forms_self_synchronising_at_bounds :
    let cs : List Int := [0x7F, 0x80, 0x7FF, 0x800, 0xFFFF, 0x10000, 0x1FFFFF, 0x200000, 0x3FFF7F,
      0x3FFF80, 0x3FFFFF]
    (∀ c ∈ cs, IsChar c) ∧
      readMany 11 (forms cs ++ [0x80, 0xC3]) =
        ([⟨0x7F, 1⟩, ⟨0x80, 2⟩, ⟨0x7FF, 2⟩, ⟨0x800, 3⟩, ⟨0xFFFF, 3⟩, ⟨0x10000, 4⟩, ⟨0x1FFFFF, 4⟩,
          ⟨0x200000, 5⟩, ⟨0x3FFF7F, 5⟩, ⟨0x3FFF80, 2⟩, ⟨0x3FFFFF, 2⟩], [0x80, 0xC3]) := by
  intro cs
  have hcs : ∀ c ∈ cs, IsChar c := by decide
  exact ⟨hcs, (forms_self_synchronising cs hcs [0x80, 0xC3]).1⟩

end GapText.Code
