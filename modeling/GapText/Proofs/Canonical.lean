import GapText.Proofs.External

/-!
# Reading is more lenient than writing

Every character is written in one form, but a form is not all that is read as a character: the
reader takes any head byte with all of its trails for one (`Complete`). So there are sequences that
are read without having been written, and writing what was read gives other bytes than those. A
sequence of three or four bytes is one of these when its code fits into fewer. One of five bytes is
one when its head is not `0xF8`, when its code fits into fewer bytes, or when its code is beyond
those that five bytes are for, up to codes that no character has. What was read and written is told
from the rest by the code and the head alone (`Canonical`).
-/

namespace GapText.Code

/-! ## Sequences that are read -/

/-- Several bytes are at the start that are read together: a head and all of its trails. -/
structure Complete (b : UInt8) (rest : Bytes) : Prop where
  head : isHead b = true
  several : 1 < headLength b
  enough : headLength b - 1 ≤ rest.length
  trails : ∀ t ∈ rest.take (headLength b - 1), isHead t = false

variable {b : UInt8} {rest : Bytes} {c : Int}

theorem decode_of_complete (h : Complete b rest) :
    decode (b :: rest) =
      ⟨assemble (headLength b) b (rest.take (headLength b - 1)), headLength b⟩ := by
  have hnone : (rest.take (headLength b - 1)).any isHead = false := by
    simpa using h.trails
  have hseveral := h.several
  have henough := h.enough
  have hsplit : ¬ (headLength b = 1 ∨ (rest.take (headLength b - 1)).length < headLength b - 1 ∨
      (rest.take (headLength b - 1)).any isHead = true) := by
    rw [hnone, List.length_take]
    simp only [Bool.false_eq_true, or_false]
    omega
  unfold decode
  simp only [h.head, if_true]
  rw [if_neg hsplit]

theorem decode_of_not_complete (h : ¬ Complete b rest) : decode (b :: rest) = ⟨b.toNat, 1⟩ := by
  rcases decode_cases b rest with heq | ⟨hhead, hmany, hfull, htrails, -⟩
  · exact heq
  · rw [List.length_take] at hfull
    exact absurd ⟨hhead, hmany, by omega, htrails⟩ h

theorem one_lt_length_decode_iff : 1 < (decode (b :: rest)).length ↔ Complete b rest := by
  constructor
  · intro hmany
    by_contra h
    rw [decode_of_not_complete h] at hmany
    exact Nat.lt_irrefl 1 hmany
  · intro h
    rw [decode_of_complete h]
    exact h.several

/-- Zeros behind the bytes change nothing: they are heads, and none completes a sequence. -/
theorem complete_append_zeros (n : Nat) :
    Complete b (rest ++ List.replicate n 0) ↔ Complete b rest := by
  constructor
  · rintro ⟨hhead, hseveral, henough, htrails⟩
    by_cases hle : headLength b - 1 ≤ rest.length
    · rw [List.take_append_of_le_length hle] at htrails
      exact ⟨hhead, hseveral, hle, htrails⟩
    · -- the first of the zeros would have to be a trail
      have hzero : (0 : UInt8) ∈ (rest ++ List.replicate n 0).take (headLength b - 1) := by
        rw [List.length_append, List.length_replicate] at henough
        rw [List.take_append, List.take_of_length_le (by omega), List.take_replicate]
        refine List.mem_append_right _ (List.mem_replicate.mpr ⟨?_, rfl⟩)
        omega
      exact absurd (htrails 0 hzero) (by decide)
  · rintro ⟨hhead, hseveral, henough, htrails⟩
    refine ⟨hhead, hseveral, ?_, ?_⟩
    · rw [List.length_append]
      omega
    · rwa [List.take_append_of_le_length henough]

theorem decode_append_zeros (s : Bytes) (n : Nat) :
    decode (s ++ List.replicate n 0) = decode s := by
  cases s with
  | nil =>
      cases n with
      | zero => rfl
      | succ n => exact decode_of_not_complete fun h => absurd h.several (by decide)
  | cons b rest =>
      rw [List.cons_append]
      by_cases h : Complete b rest
      · rw [decode_of_complete h, decode_of_complete ((complete_append_zeros n).mpr h),
          List.take_append_of_le_length h.enough]
      · rw [decode_of_not_complete h, decode_of_not_complete (mt (complete_append_zeros n).mp h)]

/-! ## Sequences that are written -/

/-- Tells a form among the sequences that are read: by the code, which must need as many bytes, and
for five bytes by the head as well, which is always the same one. -/
def Canonical (b : UInt8) (d : Decoded) : Prop :=
  match d.length with
  | 3 => 0x800 ≤ d.code
  | 4 => 0x10000 ≤ d.code
  | 5 => b = 0xF8 ∧ 0x200000 ≤ d.code ∧ d.code ≤ maxFiveByte
  | _ => True

/-- The codes that a form of a given length is for. -/
theorem le_of_formLength (c : Int) :
    (formLength c = 3 → 0x800 ≤ c) ∧ (formLength c = 4 → 0x10000 ≤ c) ∧
      (formLength c = 5 → 0x200000 ≤ c ∧ c ≤ maxFiveByte) := by
  unfold formLength
  split
  · simp
  split
  · simp
  split
  · simp
    omega
  split
  · simp
    omega
  split
  · rename_i hle
    simp only [Nat.reduceEqDiff, false_implies, true_and, forall_const]
    exact ⟨by omega, hle⟩
  · simp

/-- The heads of several bytes, by the marks that they start with. -/
theorem Complete.kinds (h : Complete b rest) :
    b.toNat / 32 = 6 ∧ headLength b = 2 ∨ b.toNat / 16 = 14 ∧ headLength b = 3 ∨
      b.toNat / 8 = 30 ∧ headLength b = 4 ∨ headLength b = 5 := by
  have hb := b.toNat_lt
  have hhead := (isHead_eq_true_iff b).mp h.head
  have hseveral := h.several
  rcases headLength_cases b with h | h | h | h | h <;> omega

/-- What is read in less than five bytes is a character, and no code has more than 24 bits. -/
theorem Complete.code_bounds (h : Complete b rest) :
    0 ≤ (decode (b :: rest)).code ∧ (decode (b :: rest)).code < 0x1000000 ∧
      ((decode (b :: rest)).length < 5 → (decode (b :: rest)).code ≤ maxCode) := by
  have hfull : (rest.take (headLength b - 1)).length = headLength b - 1 :=
    List.length_take_of_le h.enough
  rw [decode_of_complete h]
  dsimp only
  generalize rest.take (headLength b - 1) = tail at hfull
  unfold maxCode
  rcases h.kinds with ⟨hb, hn⟩ | ⟨-, hn⟩ | ⟨-, hn⟩ | hn
  · rw [hn] at hfull ⊢
    obtain ⟨t, rfl⟩ := List.length_eq_one_iff.mp hfull
    simp only [assemble, headBits, List.foldl_cons, List.foldl_nil, true_and]
    split
    · rename_i hraw
      have hlow : b.toNat < 194 := UInt8.lt_iff_toNat_lt.mp hraw
      omega
    · omega
  · rw [hn] at hfull ⊢
    obtain ⟨t, u, rfl⟩ := List.length_eq_two.mp hfull
    simp only [assemble, headBits, List.foldl_cons, List.foldl_nil]
    omega
  · rw [hn] at hfull ⊢
    obtain ⟨t, u, v, rfl⟩ := List.length_eq_three.mp hfull
    simp only [assemble, headBits, List.foldl_cons, List.foldl_nil]
    omega
  · rw [hn] at hfull ⊢
    obtain ⟨t, u, v, w, rfl⟩ := List.length_eq_four.mp hfull
    simp only [assemble, headBits, List.foldl_cons, List.foldl_nil]
    omega

section FiveBytes

variable {t u v w : UInt8}

theorem form_assemble_five (ht : isHead t = false) (hu : isHead u = false)
    (hv : isHead v = false) (hw : isHead w = false)
    (hlo : 0x200000 ≤ assemble 5 b [t, u, v, w]) (hhi : assemble 5 b [t, u, v, w] ≤ maxFiveByte) :
    form (assemble 5 b [t, u, v, w]) = [0xF8, t, u, v, w] := by
  generalize hc : assemble 5 b [t, u, v, w] = c at hlo hhi ⊢
  rw [assemble, if_neg (by simp)] at hc
  simp only [headBits, List.foldl_cons, List.foldl_nil] at hc
  unfold form
  rw [if_neg (by omega), if_neg (by omega), if_neg (by omega), if_neg (by omega), if_pos hhi,
    trail_eq ht (by omega), trail_eq hu (by omega), trail_eq hv (by omega),
    trail_eq hw (by omega)]

end FiveBytes

/-- **What was read is a form exactly when it is canonical.** -/
theorem Complete.isForm_iff (h : Complete b rest) :
    (IsChar (decode (b :: rest)).code ∧
        form (decode (b :: rest)).code = (b :: rest).take (decode (b :: rest)).length) ↔
      Canonical b (decode (b :: rest)) := by
  have hbounds := h.code_bounds
  have hfull : (rest.take (headLength b - 1)).length = headLength b - 1 :=
    List.length_take_of_le h.enough
  have htrails := h.trails
  rw [decode_of_complete h] at hbounds ⊢
  unfold Canonical
  dsimp only at hbounds ⊢
  rw [List.take_cons (Nat.lt_of_succ_lt h.several)]
  generalize rest.take (headLength b - 1) = tail at hfull htrails hbounds ⊢
  rcases h.kinds with ⟨hb, hn⟩ | ⟨hb, hn⟩ | ⟨hb, hn⟩ | hn
  -- two bytes, raw or not, are always canonical
  · rw [hn] at hfull hbounds ⊢
    obtain ⟨t, rfl⟩ := List.length_eq_one_iff.mp hfull
    have hchar : IsChar (assemble 2 b [t]) := ⟨hbounds.1, hbounds.2.2 (by decide)⟩
    exact iff_of_true ⟨hchar, form_assemble_two hb (htrails t (by simp))⟩ trivial
  · rw [hn] at hfull hbounds ⊢
    obtain ⟨t, u, rfl⟩ := List.length_eq_two.mp hfull
    constructor
    · rintro ⟨-, hform⟩
      exact (le_of_formLength _).1 (by rw [← length_form, hform]; rfl)
    · intro hcode
      exact ⟨⟨hbounds.1, hbounds.2.2 (by decide)⟩,
        form_assemble_three hb (htrails t (by simp)) (htrails u (by simp)) hcode⟩
  · rw [hn] at hfull hbounds ⊢
    obtain ⟨t, u, v, rfl⟩ := List.length_eq_three.mp hfull
    constructor
    · rintro ⟨-, hform⟩
      exact (le_of_formLength _).2.1 (by rw [← length_form, hform]; rfl)
    · intro hcode
      exact ⟨⟨hbounds.1, hbounds.2.2 (by decide)⟩,
        form_assemble_four hb (htrails t (by simp)) (htrails u (by simp)) (htrails v (by simp))
          hcode⟩
  -- the head of five bytes carries no bit of the code, so the form tells it as well
  · rw [hn] at hfull hbounds ⊢
    obtain ⟨t, u, v, w, rfl⟩ := List.length_eq_four.mp hfull
    have hfive := form_assemble_five (b := b) (htrails t (by simp)) (htrails u (by simp))
      (htrails v (by simp)) (htrails w (by simp))
    constructor
    · rintro ⟨-, hform⟩
      obtain ⟨hlo, hhi⟩ := (le_of_formLength _).2.2 (by rw [← length_form, hform]; rfl)
      have hsame := (hfive hlo hhi).symm.trans hform
      exact ⟨(List.cons.inj hsame).1.symm, hlo, hhi⟩
    · rintro ⟨rfl, hlo, hhi⟩
      exact ⟨⟨hbounds.1, Int.le_trans hhi (by decide)⟩, hfive hlo hhi⟩

/-- The form of a character is read as that character. -/
theorem decode_of_isPrefix {s : Bytes} (hc : IsChar c) (h : form c <+: s) :
    decode s = ⟨c, formLength c⟩ := by
  obtain ⟨t, rfl⟩ := h
  exact decode_append hc t

/-- **What is read, and when it is what would be written.** Zeros behind the bytes do not matter.
More than one byte is taken exactly when a head stands there with all of its trails, and in every
other case the first byte alone is the answer. What was taken is the form of the character that was
read exactly when it is canonical, and the form of every character is read as that character. A code
has no more than 24 bits, and one that was read in less than five bytes is that of a character. -/
theorem decode_exact (s : Bytes) :
    let d := decode s
    (∀ n, decode (s ++ List.replicate n 0) = d) ∧
    (1 < d.length ↔ ∃ b rest, s = b :: rest ∧ Complete b rest) ∧
    (¬ 1 < d.length → d = ⟨(s.headD 0).toNat, 1⟩) ∧
    (1 < d.length →
      (IsChar d.code ∧ form d.code = s.take d.length ↔ Canonical (s.headD 0) d)) ∧
    (∀ c, IsChar c → form c <+: s → d = ⟨c, formLength c⟩) ∧
    0 ≤ d.code ∧ d.code < 0x1000000 ∧ (d.length < 5 → d.code ≤ maxCode) := by
  intro d
  refine ⟨decode_append_zeros s, ?_, ?_, ?_, fun c hc => decode_of_isPrefix hc, ?_⟩
  all_goals
    subst d
    cases s with
    | nil => simp [decode, maxCode]
    | cons b rest => ?_
  · simp only [one_lt_length_decode_iff, List.cons.injEq]
    constructor
    · intro h
      exact ⟨b, rest, ⟨rfl, rfl⟩, h⟩
    · rintro ⟨_, _, ⟨rfl, rfl⟩, h⟩
      exact h
  · rw [one_lt_length_decode_iff]
    exact decode_of_not_complete
  · rw [one_lt_length_decode_iff]
    exact Complete.isForm_iff
  · by_cases h : Complete b rest
    · exact h.code_bounds
    · have hb := b.toNat_lt
      rw [decode_of_not_complete h]
      unfold maxCode
      dsimp only
      omega

/-- Of the sequences that are read, these are forms: one of five bytes and one of a raw byte. -/
example :
    decode [0xF8, 0x88, 0x80, 0x80, 0x80, 0x80] = ⟨0x200000, 5⟩ ∧
      form 0x200000 = [0xF8, 0x88, 0x80, 0x80, 0x80] ∧
      decode [0xC1, 0xBF, 0xBF] = ⟨0x3FFFFF, 2⟩ ∧ form 0x3FFFFF = [0xC1, 0xBF] := by
  decide

/-- Not all that is read was written: an overlong sequence gives a character of one byte, and five
bytes give one beyond the last. -/
theorem decode_overlong :
    (decode [0xE0, 0x80, 0x80] = ⟨0, 3⟩ ∧ form 0 = [0]) ∧
      (decode [0xFF, 0xBF, 0xBF, 0xBF, 0xBF] = ⟨0xFFFFFF, 5⟩ ∧ maxCode < 0xFFFFFF) ∧
      ¬ ∀ s : Bytes, 1 < (decode s).length →
        IsChar (decode s).code ∧ form (decode s).code = s.take (decode s).length := by
  refine ⟨by decide, by decide, ?_⟩
  intro hforms
  have hform := (hforms [0xE0, 0x80, 0x80] (by decide)).2
  revert hform
  decide

end GapText.Code
