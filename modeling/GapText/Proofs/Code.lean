import GapText.Code.External
import Mathlib.Data.List.Basic

/-!
# The internal forms as a code

A form is a head byte followed by trail bytes, and the head tells their number. So a string of forms
falls apart in one way only: heads mark where the characters start, and stepping from head to head
visits each of them. `chars` reads the characters of a string back, and `forms` is undone by it.
-/

namespace GapText.Code

/-- The codes of characters. -/
def IsChar (c : Int) : Prop := 0 ≤ c ∧ c ≤ maxCode

instance (c : Int) : Decidable (IsChar c) := inferInstanceAs (Decidable (0 ≤ c ∧ c ≤ maxCode))

/-- The forms of characters, one after the other. -/
def forms (cs : List Int) : Bytes := cs.flatMap form

/-- The characters that a string of bytes holds, each decoded where the one before it ends. -/
def chars : Bytes → List Int
  | [] => []
  | b :: rest =>
      let d := decode (b :: rest)
      d.code :: chars (rest.drop (d.length - 1))
termination_by s => s.length
decreasing_by simp only [List.length_drop, List.length_cons]; omega

/-! ## Heads and trails -/

theorem toNat_lowByte {c : Int} (h₀ : 0 ≤ c) (h₁ : c < 256) : ((lowByte c).toNat : Int) = c := by
  unfold lowByte
  rw [UInt8.toNat_ofNat']
  omega

theorem toNat_head (mark : Nat) {bits : Int} (h₀ : 0 ≤ bits) (h₁ : mark + bits < 256) :
    ((head mark bits).toNat : Int) = mark + bits := by
  unfold head
  rw [UInt8.toNat_ofNat']
  omega

theorem toNat_trail (c : Int) : ((trail c).toNat : Int) = 128 + c % 64 := by
  unfold trail
  rw [UInt8.toNat_ofNat']
  omega

theorem isHead_eq_true_iff (b : UInt8) : isHead b = true ↔ b.toNat / 64 ≠ 2 := by
  simp [isHead]

theorem isHead_trail (c : Int) : isHead (trail c) = false := by
  have h := toNat_trail c
  rw [← Bool.not_eq_true, isHead_eq_true_iff]
  omega

theorem toNat_of_isHead_eq_false {t : UInt8} (ht : isHead t = false) : t.toNat / 64 = 2 := by
  simpa [isHead] using ht

/-- The five kinds of bytes that can stand at the head of a form. -/
theorem headLength_cases (b : UInt8) :
    b.toNat < 128 ∧ headLength b = 1 ∨
      128 ≤ b.toNat ∧ b.toNat / 32 % 2 = 0 ∧ headLength b = 2 ∨
      128 ≤ b.toNat ∧ b.toNat / 32 % 2 = 1 ∧ b.toNat / 16 % 2 = 0 ∧ headLength b = 3 ∨
      128 ≤ b.toNat ∧ b.toNat / 16 % 4 = 3 ∧ b.toNat / 8 % 2 = 0 ∧ headLength b = 4 ∨
      128 ≤ b.toNat ∧ headLength b = 5 := by
  unfold headLength
  by_cases h1 : b.toNat < 128
  · exact Or.inl ⟨h1, if_pos h1⟩
  · rw [if_neg h1]
    by_cases h2 : b.toNat / 32 % 2 = 0
    · exact Or.inr (Or.inl ⟨by omega, h2, if_pos h2⟩)
    · rw [if_neg h2]
      by_cases h3 : b.toNat / 16 % 2 = 0
      · exact Or.inr (Or.inr (Or.inl ⟨by omega, by omega, h3, if_pos h3⟩))
      · rw [if_neg h3]
        by_cases h4 : b.toNat / 8 % 2 = 0
        · exact Or.inr (Or.inr (Or.inr (Or.inl ⟨by omega, by omega, h4, if_pos h4⟩)))
        · exact Or.inr (Or.inr (Or.inr (Or.inr ⟨by omega, if_neg h4⟩)))

/-- A head byte and the trail bytes behind it that together spell a character. -/
structure Spells (c : Int) (b : UInt8) (tail : Bytes) : Prop where
  head : isHead b = true
  length : headLength b = tail.length + 1
  trails : ∀ t ∈ tail, isHead t = false
  single : tail = [] → (b.toNat : Int) = c
  several : tail ≠ [] → assemble (tail.length + 1) b tail = c

theorem spells_one {c : Int} (h₀ : 0 ≤ c) (h₁ : c < 0x80) : Spells c (lowByte c) [] := by
  have hb := toNat_lowByte h₀ (by omega)
  refine ⟨?_, ?_, ?_, fun _ => hb, fun h => absurd rfl h⟩
  · rw [isHead_eq_true_iff]
    omega
  · unfold headLength
    rw [if_pos (by omega)]
    rfl
  · intro t ht
    cases ht

/-- A head and one to four trails, given the numbers that they stand for. -/
theorem spells_several {c : Int} {b : UInt8} (ds : List Int) (hne : ds ≠ [])
    (hhead : 192 ≤ b.toNat) (hlen : headLength b = ds.length + 1)
    (hval : assemble (ds.length + 1) b (ds.map trail) = c) : Spells c b (ds.map trail) := by
  refine ⟨?_, ?_, ?_, ?_, ?_⟩
  · have hb := b.toNat_lt
    rw [isHead_eq_true_iff]
    omega
  · rw [List.length_map]
    exact hlen
  · intro t ht
    obtain ⟨d, -, rfl⟩ := List.mem_map.mp ht
    exact isHead_trail d
  · intro hnil
    exact absurd (List.map_eq_nil_iff.mp hnil) hne
  · intro _
    rw [List.length_map]
    exact hval

theorem spells_two {c : Int} (h₀ : 0x80 ≤ c) (h₁ : c < 0x800) :
    Spells c (head 0xC0 (c / 64)) [trail c] := by
  have hb : ((head 0xC0 (c / 64)).toNat : Int) = 0xC0 + c / 64 :=
    toNat_head 0xC0 (by omega) (by omega)
  have ht := toNat_trail c
  refine spells_several [c] (by simp) (by omega) ?_ ?_
  · unfold headLength
    rw [if_neg (by omega), if_pos (by omega)]
    rfl
  · have hraw : ¬ head 0xC0 (c / 64) < 0xC2 := by
      rw [UInt8.lt_iff_toNat_lt]
      show ¬ (head 0xC0 (c / 64)).toNat < 194
      omega
    simp only [assemble, headBits, List.length_cons, List.length_nil, List.map_cons, List.map_nil,
      List.foldl_cons, List.foldl_nil]
    rw [if_neg (by simp [hraw])]
    omega

theorem spells_three {c : Int} (h₀ : 0x800 ≤ c) (h₁ : c < 0x10000) :
    Spells c (head 0xE0 (c / 4096)) [trail (c / 64), trail c] := by
  have hb : ((head 0xE0 (c / 4096)).toNat : Int) = 0xE0 + c / 4096 :=
    toNat_head 0xE0 (by omega) (by omega)
  have ht₁ := toNat_trail (c / 64)
  have ht₂ := toNat_trail c
  refine spells_several [c / 64, c] (by simp) (by omega) ?_ ?_
  · unfold headLength
    rw [if_neg (by omega), if_neg (by omega), if_pos (by omega)]
    rfl
  · simp only [assemble, headBits, List.length_cons, List.length_nil, List.map_cons, List.map_nil,
      List.foldl_cons, List.foldl_nil]
    rw [if_neg (by simp)]
    omega

theorem spells_four {c : Int} (h₀ : 0x10000 ≤ c) (h₁ : c < 0x200000) :
    Spells c (head 0xF0 (c / 262144)) [trail (c / 4096), trail (c / 64), trail c] := by
  have hb : ((head 0xF0 (c / 262144)).toNat : Int) = 0xF0 + c / 262144 :=
    toNat_head 0xF0 (by omega) (by omega)
  have ht₁ := toNat_trail (c / 4096)
  have ht₂ := toNat_trail (c / 64)
  have ht₃ := toNat_trail c
  refine spells_several [c / 4096, c / 64, c] (by simp) (by omega) ?_ ?_
  · unfold headLength
    rw [if_neg (by omega), if_neg (by omega), if_neg (by omega), if_pos (by omega)]
    rfl
  · simp only [assemble, headBits, List.length_cons, List.length_nil, List.map_cons, List.map_nil,
      List.foldl_cons, List.foldl_nil]
    rw [if_neg (by simp)]
    omega

theorem spells_five {c : Int} (h₀ : 0x200000 ≤ c) (h₁ : c ≤ maxFiveByte) :
    Spells c 0xF8 [trail (c / 262144), trail (c / 4096), trail (c / 64), trail c] := by
  have ht₁ := toNat_trail (c / 262144)
  have ht₂ := toNat_trail (c / 4096)
  have ht₃ := toNat_trail (c / 64)
  have ht₄ := toNat_trail c
  unfold maxFiveByte at h₁
  refine spells_several [c / 262144, c / 4096, c / 64, c] (by simp) (by decide) rfl ?_
  simp only [assemble, headBits, List.length_cons, List.length_nil, List.map_cons, List.map_nil,
    List.foldl_cons, List.foldl_nil]
  rw [if_neg (by simp)]
  omega

/-- A raw byte: the two heads that no other form uses. -/
theorem spells_raw {c : Int} (h₀ : maxFiveByte < c) (h₁ : c ≤ maxCode) :
    Spells c (head 0xC0 (c / 64 % 2)) [trail c] := by
  have hb : ((head 0xC0 (c / 64 % 2)).toNat : Int) = 0xC0 + c / 64 % 2 :=
    toNat_head 0xC0 (by omega) (by omega)
  have ht := toNat_trail c
  -- above the low seven bits all codes of raw bytes agree, so one bit is left for the head
  unfold maxFiveByte at h₀
  unfold maxCode at h₁
  refine spells_several [c] (by simp) (by omega) ?_ ?_
  · unfold headLength
    rw [if_neg (by omega), if_pos (by omega)]
    rfl
  · have hraw : head 0xC0 (c / 64 % 2) < 0xC2 := by
      rw [UInt8.lt_iff_toNat_lt]
      show (head 0xC0 (c / 64 % 2)).toNat < 194
      omega
    simp only [assemble, headBits, List.length_cons, List.length_nil, List.map_cons, List.map_nil,
      List.foldl_cons, List.foldl_nil]
    rw [if_pos (by simp [hraw])]
    omega

theorem exists_spells_form {c : Int} (hc : IsChar c) :
    ∃ b tail, form c = b :: tail ∧ Spells c b tail := by
  obtain ⟨h₀, h₁⟩ := hc
  unfold form
  by_cases h1 : c < 0x80
  · exact ⟨_, _, if_pos h1, spells_one h₀ h1⟩
  rw [if_neg h1]
  by_cases h2 : c < 0x800
  · exact ⟨_, _, if_pos h2, spells_two (by omega) h2⟩
  rw [if_neg h2]
  by_cases h3 : c < 0x10000
  · exact ⟨_, _, if_pos h3, spells_three (by omega) h3⟩
  rw [if_neg h3]
  by_cases h4 : c < 0x200000
  · exact ⟨_, _, if_pos h4, spells_four (by omega) h4⟩
  rw [if_neg h4]
  by_cases h5 : c ≤ maxFiveByte
  · exact ⟨_, _, if_pos h5, spells_five (by omega) h5⟩
  · exact ⟨_, _, if_neg h5, spells_raw (by omega) h₁⟩

theorem form_ne_nil {c : Int} (hc : IsChar c) : form c ≠ [] := by
  obtain ⟨b, tail, hform, -⟩ := exists_spells_form hc
  rw [hform]
  exact List.cons_ne_nil b tail

/-! ## Reading forms back -/

/-- **Decoding undoes encoding**, whatever follows the form. -/
theorem decode_append {c : Int} (hc : IsChar c) (t : Bytes) :
    decode (form c ++ t) = ⟨c, formLength c⟩ := by
  obtain ⟨b, tail, hform, hspells⟩ := exists_spells_form hc
  have hlen : formLength c = tail.length + 1 := by
    rw [← length_form, hform, List.length_cons]
  have htail : (tail ++ t).take (tail.length + 1 - 1) = tail := by
    rw [Nat.add_sub_cancel, List.take_left]
  have hnone : tail.any isHead = false := by
    rw [List.any_eq_false]
    intro x hx
    rw [hspells.trails x hx]
    exact Bool.false_ne_true
  rw [hform, List.cons_append, hlen]
  simp only [decode]
  rw [if_pos hspells.head, hspells.length, htail, hnone]
  cases tail with
  | nil =>
      rw [if_pos (by simp)]
      rw [hspells.single rfl]
      rfl
  | cons x xs =>
      rw [if_neg (by simp), hspells.several (by simp)]

theorem forms_cons (c : Int) (cs : List Int) : forms (c :: cs) = form c ++ forms cs :=
  List.flatMap_cons

theorem chars_form_append {c : Int} (hc : IsChar c) (t : Bytes) :
    chars (form c ++ t) = c :: chars t := by
  have hdecode := decode_append hc t
  obtain ⟨b, tail, hform, -⟩ := exists_spells_form hc
  have hlen : formLength c - 1 = tail.length := by
    rw [← length_form, hform, List.length_cons, Nat.add_sub_cancel]
  rw [hform, List.cons_append] at hdecode ⊢
  rw [chars, hdecode]
  dsimp only
  rw [hlen, List.drop_left]

theorem count_form_append {c : Int} (hc : IsChar c) (t : Bytes) :
    count (form c ++ t) = 1 + count t := by
  obtain ⟨b, tail, hform, hspells⟩ := exists_spells_form hc
  rw [hform, List.cons_append, count, hspells.length, Nat.add_sub_cancel, List.drop_left]

/-- A string of forms holds the characters that it was made of. -/
theorem chars_forms : ∀ {cs : List Int}, (∀ c ∈ cs, IsChar c) → chars (forms cs) = cs
  | [], _ => by rw [forms, List.flatMap_nil, chars]
  | c :: cs, h => by
      rw [forms_cons, chars_form_append (h c List.mem_cons_self),
        chars_forms fun d hd => h d (List.mem_cons_of_mem _ hd)]

/-- Stepping from head to head meets each character once. -/
theorem count_forms : ∀ {cs : List Int}, (∀ c ∈ cs, IsChar c) → count (forms cs) = cs.length
  | [], _ => by rw [forms, List.flatMap_nil, count, List.length_nil]
  | c :: cs, h => by
      rw [forms_cons, count_form_append (h c List.mem_cons_self),
        count_forms fun d hd => h d (List.mem_cons_of_mem _ hd), List.length_cons, Nat.add_comm]

end GapText.Code
