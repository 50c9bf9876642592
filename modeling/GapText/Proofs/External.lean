import GapText.Proofs.Code

/-!
# Text from outside

Which bytes from outside are text can be told without the decoder: a scan from left to right keeps
the form of a Unicode character wherever one stands, and takes any other byte for a raw one
(`Scan`). There is only one such scan of a string, `ofExternal` makes it, and the bytes can be got
back from what it finds.
-/

namespace GapText.Code

/-! ## Forms that are already there -/

/-- What decoding can do: take the first byte alone, or a head with all of its trails. -/
theorem decode_cases (b : UInt8) (rest : Bytes) :
    decode (b :: rest) = ⟨b.toNat, 1⟩ ∨
      isHead b = true ∧ 1 < headLength b ∧
        (rest.take (headLength b - 1)).length = headLength b - 1 ∧
        (∀ t ∈ rest.take (headLength b - 1), isHead t = false) ∧
        decode (b :: rest) =
          ⟨assemble (headLength b) b (rest.take (headLength b - 1)), headLength b⟩ := by
  unfold decode
  dsimp only
  by_cases hb : isHead b = true
  · rw [if_pos hb]
    split
    · exact Or.inl rfl
    · rename_i h
      simp only [not_or] at h
      obtain ⟨hone, hlong, hany⟩ := h
      have hle : (rest.take (headLength b - 1)).length ≤ headLength b - 1 := by
        rw [List.length_take]
        omega
      refine Or.inr ⟨hb, ?_, by omega, ?_, rfl⟩
      · rcases headLength_cases b with h | h | h | h | h <;> omega
      · intro t ht
        rw [← Bool.not_eq_true]
        intro hhead
        exact hany (List.any_eq_true.mpr ⟨t, ht, hhead⟩)
  · rw [if_neg hb, if_pos (Or.inl rfl)]
    exact Or.inl rfl

/-- The lengths of the forms of Unicode codes. -/
theorem formLength_cases {c : Int} (hc : c ≤ maxUnicode) :
    c < 0x80 ∧ formLength c = 1 ∨ 0x80 ≤ c ∧ c < 0x800 ∧ formLength c = 2 ∨
      0x800 ≤ c ∧ c < 0x10000 ∧ formLength c = 3 ∨ 0x10000 ≤ c ∧ formLength c = 4 := by
  unfold maxUnicode at hc
  unfold formLength
  by_cases h1 : c < 0x80
  · exact Or.inl ⟨h1, if_pos h1⟩
  · rw [if_neg h1]
    by_cases h2 : c < 0x800
    · exact Or.inr (Or.inl ⟨by omega, h2, if_pos h2⟩)
    · rw [if_neg h2]
      by_cases h3 : c < 0x10000
      · exact Or.inr (Or.inr (Or.inl ⟨by omega, h3, if_pos h3⟩))
      · rw [if_neg h3]
        exact Or.inr (Or.inr (Or.inr ⟨by omega, if_pos (by omega)⟩))

theorem lowByte_toNat (b : UInt8) : lowByte b.toNat = b := by
  apply UInt8.toNat_inj.mp
  have hb := b.toNat_lt
  have h := toNat_lowByte (c := b.toNat) (by omega) (by omega)
  omega

theorem trail_eq {t : UInt8} {d : Int} (ht : isHead t = false) (hd : d % 64 = t.toNat % 64) :
    trail d = t := by
  apply UInt8.toNat_inj.mp
  have hkind := toNat_of_isHead_eq_false ht
  have h := toNat_trail d
  omega

theorem head_eq {b : UInt8} {mark : Nat} {bits : Int} (h₀ : 0 ≤ bits)
    (hb : (b.toNat : Int) = mark + bits) : head mark bits = b := by
  apply UInt8.toNat_inj.mp
  have hlt := b.toNat_lt
  have h := toNat_head mark h₀ (by omega)
  omega

section Forms

variable {b t u v : UInt8}

/-- The two heads of raw bytes carry one bit, the others of two bytes carry five. -/
theorem form_assemble_two (hb : b.toNat / 32 = 6) (ht : isHead t = false) :
    form (assemble 2 b [t]) = [b, t] := by
  have hkind := toNat_of_isHead_eq_false ht
  generalize hc : assemble 2 b [t] = c
  simp only [assemble, headBits, List.foldl_cons, List.foldl_nil, true_and] at hc
  unfold form maxFiveByte
  by_cases hraw : b < 0xC2
  · have hlow : b.toNat < 194 := UInt8.lt_iff_toNat_lt.mp hraw
    rw [if_pos hraw] at hc
    rw [if_neg (by omega), if_neg (by omega), if_neg (by omega), if_neg (by omega),
      if_neg (by omega), head_eq (b := b) (by omega) (by omega), trail_eq ht (by omega)]
  · have hhigh : 194 ≤ b.toNat := UInt8.le_iff_toNat_le.mp (UInt8.not_lt.mp hraw)
    rw [if_neg hraw] at hc
    rw [if_neg (by omega), if_pos (by omega), head_eq (b := b) (by omega) (by omega),
      trail_eq ht (by omega)]

theorem form_assemble_three (hb : b.toNat / 16 = 14) (ht : isHead t = false)
    (hu : isHead u = false) (hcode : 0x800 ≤ assemble 3 b [t, u]) :
    form (assemble 3 b [t, u]) = [b, t, u] := by
  generalize hc : assemble 3 b [t, u] = c at hcode ⊢
  rw [assemble, if_neg (by simp)] at hc
  simp only [headBits, List.foldl_cons, List.foldl_nil] at hc
  unfold form
  rw [if_neg (by omega), if_neg (by omega), if_pos (by omega),
    head_eq (b := b) (by omega) (by omega), trail_eq ht (by omega), trail_eq hu (by omega)]

theorem form_assemble_four (hb : b.toNat / 8 = 30) (ht : isHead t = false)
    (hu : isHead u = false) (hv : isHead v = false) (hcode : 0x10000 ≤ assemble 4 b [t, u, v]) :
    form (assemble 4 b [t, u, v]) = [b, t, u, v] := by
  generalize hc : assemble 4 b [t, u, v] = c at hcode ⊢
  rw [assemble, if_neg (by simp)] at hc
  simp only [headBits, List.foldl_cons, List.foldl_nil] at hc
  unfold form
  rw [if_neg (by omega), if_neg (by omega), if_neg (by omega), if_pos (by omega),
    head_eq (b := b) (by omega) (by omega), trail_eq ht (by omega), trail_eq hu (by omega),
    trail_eq hv (by omega)]

end Forms

/-- A Unicode code that was read in the length of its form was read from its form. -/
theorem form_decode {b : UInt8} {rest : Bytes} (hcode : (decode (b :: rest)).code ≤ maxUnicode)
    (hlen : (decode (b :: rest)).length = formLength (decode (b :: rest)).code) :
    IsChar (decode (b :: rest)).code ∧
      form (decode (b :: rest)).code = b :: rest.take ((decode (b :: rest)).length - 1) := by
  have hb := b.toNat_lt
  have hrange := formLength_cases hcode
  rcases decode_cases b rest with heq | ⟨hhead, hmany, hfull, htrails, heq⟩
  · rw [heq] at hlen hrange ⊢
    dsimp only at hlen hrange ⊢
    refine ⟨⟨by omega, by unfold maxCode; omega⟩, ?_⟩
    unfold form
    rw [if_pos (by omega), lowByte_toNat, Nat.sub_self, List.take_zero]
  · rw [isHead_eq_true_iff] at hhead
    have hchar : IsChar (decode (b :: rest)).code := by
      refine ⟨?_, Int.le_trans hcode (by decide)⟩
      have hmore : 1 < (decode (b :: rest)).length := by
        rw [heq]
        exact hmany
      omega
    refine ⟨hchar, ?_⟩
    rw [heq] at hcode hlen hrange ⊢
    dsimp only at hcode hlen hrange ⊢
    -- a Unicode code has a form of two to four bytes; the other heads are ruled out by `hlen`
    generalize rest.take (headLength b - 1) = tail at hfull htrails hcode hlen hrange ⊢
    rcases headLength_cases b with h | ⟨hhi, h32, hn⟩ | ⟨hhi, h32, h16, hn⟩ | ⟨hhi, h16, h8, hn⟩ | h
    · omega
    · rw [hn] at hfull ⊢
      obtain ⟨t, rfl⟩ := List.length_eq_one_iff.mp hfull
      exact form_assemble_two (by omega) (htrails t (by simp))
    · rw [hn] at hfull hcode hlen hrange ⊢
      obtain ⟨t, u, rfl⟩ := List.length_eq_two.mp hfull
      exact form_assemble_three (by omega) (htrails t (by simp)) (htrails u (by simp)) (by omega)
    · rw [hn] at hfull hcode hlen hrange ⊢
      obtain ⟨t, u, v, rfl⟩ := List.length_eq_three.mp hfull
      exact form_assemble_four (by omega) (htrails t (by simp)) (htrails u (by simp))
        (htrails v (by simp)) (by omega)
    · omega

/-- Among all heads and trails that spell a Unicode character its form is the shortest. -/
theorem Spells.formLength_le {c : Int} {b : UInt8} {tail : Bytes} (h : Spells c b tail)
    (hc : c ≤ maxUnicode) : formLength c ≤ tail.length + 1 := by
  have hb := b.toNat_lt
  have hrange := formLength_cases hc
  have hlen := h.length
  rcases headLength_cases b with ⟨hlow, hn⟩ | ⟨-, -, hn⟩ | ⟨-, -, -, hn⟩ | ⟨-, -, -, hn⟩ | ⟨-, hn⟩
  · obtain rfl : tail = [] := List.length_eq_zero_iff.mp (by omega)
    have hsingle := h.single rfl
    omega
  · obtain ⟨t, rfl⟩ := List.length_eq_one_iff.mp (show tail.length = 1 by omega)
    have hcode : assemble 2 b [t] = c := h.several (List.cons_ne_nil t [])
    simp only [assemble, headBits, List.foldl_cons, List.foldl_nil] at hcode
    -- the heads of raw bytes spell codes beyond Unicode
    unfold maxUnicode at hc
    split at hcode <;> omega
  · obtain ⟨t, u, rfl⟩ := List.length_eq_two.mp (show tail.length = 2 by omega)
    have hcode : assemble 3 b [t, u] = c := h.several (List.cons_ne_nil t [u])
    rw [assemble, if_neg (by simp)] at hcode
    simp only [headBits, List.foldl_cons, List.foldl_nil] at hcode
    omega
  · omega
  · omega

/-! ## The scan -/

/-- The characters that a scan of outside bytes finds. -/
inductive Scan : Bytes → List Int → Prop
  | nil : Scan [] []
  /-- The form of a Unicode character is kept. -/
  | kept {c : Int} {rest : Bytes} {cs : List Int} (lo : 0 ≤ c) (hi : c ≤ maxUnicode)
      (more : Scan rest cs) : Scan (form c ++ rest) (c :: cs)
  /-- A byte at which no such form stands is a raw one. -/
  | raw {b : UInt8} {rest : Bytes} {cs : List Int} (high : 0x80 ≤ b.toNat)
      (none : ∀ c, 0 ≤ c → c ≤ maxUnicode → ¬ form c <+: b :: rest)
      (more : Scan rest cs) : Scan (b :: rest) (ofRaw b :: cs)

/-- The outside bytes of a text: a raw byte stands for itself, any other character for its form. -/
def outside (cs : List Int) : Bytes := cs.flatMap fun c => if isRaw c then [lowByte c] else form c

theorem isChar_of_unicode {c : Int} (h₀ : 0 ≤ c) (h₁ : c ≤ maxUnicode) : IsChar c :=
  ⟨h₀, Int.le_trans h₁ (by decide)⟩

theorem lowByte_ofRaw (b : UInt8) : lowByte (ofRaw b) = b := by
  have hb := b.toNat_lt
  have hmod : ofRaw b % 256 = (b.toNat : Int) % 256 := by
    unfold ofRaw
    omega
  unfold lowByte
  rw [hmod]
  exact lowByte_toNat b

variable {s : Bytes} {cs cs' : List Int} {c : Int}

theorem Scan.unicode_or_raw (h : Scan s cs) :
    ∀ c ∈ cs, 0 ≤ c ∧ c ≤ maxUnicode ∨ maxFiveByte < c ∧ c ≤ maxCode := by
  induction h with
  | nil => exact fun c hc => absurd hc List.not_mem_nil
  | kept lo hi _ ih => exact List.forall_mem_cons.mpr ⟨Or.inl ⟨lo, hi⟩, ih⟩
  | @raw b _ _ high _ _ ih =>
      refine List.forall_mem_cons.mpr ⟨Or.inr ?_, ih⟩
      have hb := b.toNat_lt
      unfold maxFiveByte ofRaw maxCode
      omega

theorem Scan.isChar (h : Scan s cs) : ∀ c ∈ cs, IsChar c := by
  intro c hc
  rcases h.unicode_or_raw c hc with ⟨h₀, h₁⟩ | ⟨h₀, h₁⟩
  · exact isChar_of_unicode h₀ h₁
  · unfold maxFiveByte at h₀
    exact ⟨by omega, h₁⟩

/-- At each place either a form is kept or a byte is raw, so there is one scan only. -/
theorem Scan.unique (h : Scan s cs) (h' : Scan s cs') : cs = cs' := by
  induction h generalizing cs' with
  | nil =>
      generalize hs : ([] : Bytes) = s at h'
      cases h' with
      | nil => rfl
      | kept lo hi _ =>
          exact absurd (List.append_eq_nil_iff.mp hs.symm).1 (form_ne_nil (isChar_of_unicode lo hi))
      | raw => cases hs
  | @kept c rest cs lo hi more ih =>
      generalize hs : form c ++ rest = s at h'
      have hread := decode_append (isChar_of_unicode lo hi) rest
      cases h' with
      | nil =>
          exact absurd (List.append_eq_nil_iff.mp hs).1 (form_ne_nil (isChar_of_unicode lo hi))
      | @kept d rest' ds lo' hi' more' =>
          rw [hs, decode_append (isChar_of_unicode lo' hi') rest'] at hread
          obtain rfl : d = c := congrArg Decoded.code hread
          obtain rfl := List.append_cancel_left hs
          rw [ih more']
      | raw _ none _ => exact absurd ⟨rest, hs⟩ (none c lo hi)
  | @raw b rest cs high none more ih =>
      generalize hs : b :: rest = s at h'
      cases h' with
      | nil => cases hs
      | kept lo' hi' _ => exact absurd ⟨_, hs.symm⟩ (none _ lo' hi')
      | raw _ _ more' =>
          cases hs
          rw [ih more']

theorem Scan.outside_eq (h : Scan s cs) : outside cs = s := by
  induction h with
  | nil => rfl
  | @kept c _ _ lo hi _ ih =>
      have hraw : isRaw c = false := by
        unfold isRaw maxFiveByte
        unfold maxUnicode at hi
        exact decide_eq_false (by omega)
      unfold outside at ih ⊢
      rw [List.flatMap_cons, ih, hraw]
      rfl
  | @raw b _ _ high _ _ ih =>
      have hraw : isRaw (ofRaw b) = true := by
        unfold isRaw maxFiveByte ofRaw
        exact decide_eq_true (by omega)
      unfold outside at ih ⊢
      rw [List.flatMap_cons, ih, hraw, if_pos rfl, lowByte_ofRaw]
      rfl

/-- What is not kept is a high byte at which no form of a Unicode character stands. -/
theorem raw_of_not_kept {b : UInt8} {rest : Bytes}
    (h : ¬ ((decode (b :: rest)).code ≤ maxUnicode ∧
      (decode (b :: rest)).length = formLength (decode (b :: rest)).code)) :
    0x80 ≤ b.toNat ∧ ∀ c, 0 ≤ c → c ≤ maxUnicode → ¬ form c <+: b :: rest := by
  have hnone : ∀ c, 0 ≤ c → c ≤ maxUnicode → ¬ form c <+: b :: rest := by
    rintro c h₀ h₁ ⟨t, ht⟩
    rw [← ht, decode_append (isChar_of_unicode h₀ h₁)] at h
    exact h ⟨h₁, rfl⟩
  refine ⟨Nat.le_of_not_lt fun hlow => ?_, hnone⟩
  have hform : form b.toNat = [b] := by
    unfold form
    rw [if_pos (by omega), lowByte_toNat]
  refine hnone b.toNat (Int.natCast_nonneg _) ?_ (hform ▸ List.prefix_append [b] rest)
  unfold maxUnicode
  omega

/-- Text from outside is brought into the forms of what its scan finds. -/
theorem exists_scan : ∀ s : Bytes, ∃ cs, Scan s cs ∧ ofExternal s = forms cs
  | [] => ⟨[], .nil, by rw [ofExternal]; rfl⟩
  | b :: rest => by
      rw [ofExternal]
      split
      · rename_i h
        obtain ⟨hchar, hform⟩ := form_decode h.1 h.2
        obtain ⟨cs, hscan, hrest⟩ := exists_scan (rest.drop ((decode (b :: rest)).length - 1))
        refine ⟨(decode (b :: rest)).code :: cs, ?_, ?_⟩
        · have hkept := Scan.kept hchar.1 h.1 hscan
          rwa [hform, List.cons_append, List.take_append_drop] at hkept
        · rw [forms_cons, hform, hrest]
      -- the first byte alone becomes a raw byte, and the scan goes on behind it
      · rename_i h
        obtain ⟨high, hnone⟩ := raw_of_not_kept h
        obtain ⟨cs, hscan, hrest⟩ := exists_scan rest
        exact ⟨ofRaw b :: cs, .raw high hnone hscan, by rw [forms_cons, hrest]⟩
termination_by s => s.length
decreasing_by all_goals simp only [List.length_drop, List.length_cons]; omega

/-- Text from outside becomes a string of forms. -/
theorem exists_forms_ofExternal (s : Bytes) :
    ∃ cs, (∀ c ∈ cs, IsChar c) ∧ ofExternal s = forms cs := by
  obtain ⟨cs, hscan, heq⟩ := exists_scan s
  exact ⟨cs, hscan.isChar, heq⟩

theorem scan_chars_ofExternal (s : Bytes) :
    Scan s (chars (ofExternal s)) ∧ ofExternal s = forms (chars (ofExternal s)) := by
  obtain ⟨cs, hscan, heq⟩ := exists_scan s
  rw [heq, chars_forms hscan.isChar]
  exact ⟨hscan, rfl⟩

theorem outside_chars_ofExternal (s : Bytes) : outside (chars (ofExternal s)) = s :=
  (scan_chars_ofExternal s).1.outside_eq

theorem ofExternal_ne_nil {s : Bytes} (hs : s ≠ []) : ofExternal s ≠ [] := by
  intro hnil
  have hback := outside_chars_ofExternal s
  rw [hnil, chars] at hback
  exact hs hback.symm

/-- **Bringing outside bytes into the internal form loses nothing.** The result is a string of
forms of Unicode characters and raw bytes, those of the only scan of the bytes, and the bytes are
got back from them; so different bytes stay different. The forms that are kept are shortest. -/
theorem ofExternal_lossless :
    (∀ s : Bytes,
      let cs := chars (ofExternal s)
      (ofExternal s = forms cs ∧
        ∀ c ∈ cs, 0 ≤ c ∧ c ≤ maxUnicode ∨ maxFiveByte < c ∧ c ≤ maxCode) ∧
      (Scan s cs ∧ ∀ cs', Scan s cs' → cs' = cs) ∧
      outside cs = s) ∧
    Function.Injective ofExternal ∧
    ∀ c b tail, c ≤ maxUnicode → Spells c b tail → (form c).length ≤ (b :: tail).length := by
  refine ⟨?_, ?_, ?_⟩
  · intro s cs
    obtain ⟨hscan, heq⟩ := scan_chars_ofExternal s
    exact ⟨⟨heq, hscan.unicode_or_raw⟩, ⟨hscan, fun cs' h' => h'.unique hscan⟩, hscan.outside_eq⟩
  · intro s s' h
    rw [← outside_chars_ofExternal s, h, outside_chars_ofExternal]
  · intro c b tail hc hspells
    rw [length_form]
    exact hspells.formLength_le hc

/-- A stray trail, a form cut short at a head, an overlong one, a surrogate, a head that no form
has, a code beyond Unicode and a form cut short by the end. -/
example :
    chars (ofExternal [0x80, 0xC3, 0x61, 0xC0, 0x80, 0xED, 0xA0, 0x80, 0xFF, 0xF4, 0x90, 0x80,
      0x80, 0xE2, 0x82]) =
    [0x3FFF80, 0x3FFFC3, 0x61, 0x3FFFC0, 0x3FFF80, 0xD800, 0x3FFFFF, 0x3FFFF4, 0x3FFF90, 0x3FFF80,
      0x3FFF80, 0x3FFFE2, 0x3FFF82] := by
  decide +kernel

end GapText.Code
