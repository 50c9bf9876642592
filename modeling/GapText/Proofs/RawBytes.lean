import GapText.Proofs.External
import GapText.Proofs.Layout
import GapText.Proofs.Search

/-!
# Bytes of which none are decoded

Outside bytes in which no form of several bytes stands are read the same in both kinds of buffer:
each byte is one character, from `0x80` on the one of that raw byte (`Stray.scan`). A word need not
be of that kind. If it is not, it holds a form that the bytes do not hold, and is found in neither;
and if it is, both kinds of buffer look for the same (`Stray.isPrefix_iff`).
-/

namespace GapText

theorem Greedy.congr {α β : Type} {word text : List α} {word' text' : List β} {i : Nat}
    {found : List Nat}
    (hmatch : ∀ k, word' <+: text'.drop k ↔ word <+: text.drop k)
    (hlen : ∀ k, word <+: text.drop k → word'.length = word.length)
    (h : Greedy word text i found) : Greedy word' text' i found := by
  induction h with
  | done none => exact .done fun j hj => mt (hmatch j).mp (none j hj)
  | found le here first _ ih =>
      refine .found le ((hmatch _).mpr here) (fun k hk hlt => mt (hmatch k).mp (first k hk hlt)) ?_
      rwa [hlen _ here]

namespace Code

/-- No form of a Unicode character with several bytes stands anywhere in these bytes. -/
def Stray (s : Bytes) : Prop := ∀ c, 0x80 ≤ c → c ≤ maxUnicode → ¬ form c <:+: s

variable {s t : Bytes} {cs : List Int}

theorem Stray.of_isInfix (h : Stray s) (ht : t <:+: s) : Stray t :=
  fun c hlo hhi hform => h c hlo hhi (hform.trans ht)

/-- The character that a byte is when it is not part of a form of several bytes. -/
def ofByte (b : UInt8) : Int := if 0x80 ≤ b.toNat then ofRaw b else b.toNat

theorem lowByte_ofByte (b : UInt8) : lowByte (ofByte b) = b := by
  unfold ofByte
  split
  · exact lowByte_ofRaw b
  · exact lowByte_toNat b

/-- Both kinds of buffer show a byte as the same character. -/
theorem shownAs_toNat (b : UInt8) : Display.shownAs false b.toNat = ofByte b := by
  unfold Display.shownAs ofByte
  rw [if_neg Bool.false_ne_true, lowByte_toNat]
  split <;> split <;> first | rfl | omega

theorem map_shownAs_decodeText (s : Bytes) :
    (decodeText false s).map (Display.shownAs false) = s.map ofByte := by
  induction s with
  | nil => rfl
  | cons b s ih => exact congrArg₂ List.cons (shownAs_toNat b) ih

theorem form_of_lt {b : UInt8} (h : b.toNat < 0x80) : form b.toNat = [b] := by
  unfold form
  rw [if_pos (by omega), lowByte_toNat]

/-- Bytes without forms of several bytes are scanned one by one. -/
theorem Stray.scan (h : Stray s) : Scan s (s.map ofByte) := by
  induction s with
  | nil => exact .nil
  | cons b rest ih =>
      have hrest := ih (h.of_isInfix (List.suffix_cons b rest).isInfix)
      rw [List.map_cons, ofByte]
      split
      · rename_i high
        refine .raw high (fun c h₀ h₁ hform => ?_) hrest
        by_cases hc : c < 0x80
        · -- a form of one byte is a low byte
          rw [form, if_pos hc] at hform
          have hb : lowByte c = b := (List.cons_prefix_cons.mp hform).1
          have hlow := toNat_lowByte h₀ (by omega)
          rw [hb] at hlow
          omega
        · exact h c (by omega) h₁ hform.isInfix
      · rename_i low
        have hkept := Scan.kept (c := b.toNat) (Int.natCast_nonneg _)
          (by unfold maxUnicode; omega) hrest
        rwa [form_of_lt (by omega)] at hkept

theorem Stray.decodeText_eq (h : Stray s) : decodeText true (ofExternal s) = s.map ofByte :=
  (scan_chars_ofExternal s).1.unique h.scan

/-- Forms stand at the start of the bytes or behind their first one. -/
theorem stray_cons {b : UInt8} (hhere : ∀ c, 0x80 ≤ c → c ≤ maxUnicode → ¬ form c <+: b :: s)
    (hrest : Stray s) : Stray (b :: s) := by
  intro c hlo hhi hform
  rcases List.infix_cons_iff.mp hform with hprefix | hinfix
  · exact hhere c hlo hhi hprefix
  · exact hrest c hlo hhi hinfix

/-- Where a scan goes on byte by byte there is no form of several bytes to be found. -/
theorem Scan.stray (h : Scan s cs) (hcs : cs = s.map ofByte) : Stray s := by
  induction h with
  | nil =>
      intro c hlo hhi hform
      exact form_ne_nil (isChar_of_unicode (by omega) hhi) (List.infix_nil.mp hform)
  | @kept c rest cs lo hi _ ih =>
      obtain ⟨b, tail, hb⟩ := List.exists_cons_of_ne_nil (form_ne_nil (isChar_of_unicode lo hi))
      rw [hb, List.cons_append, List.map_cons, List.cons.injEq] at hcs
      -- a Unicode character is a single byte only if it is a low one
      have hlow : b.toNat < 0x80 := by
        by_contra high
        have hraw := hcs.1
        unfold maxUnicode at hi
        rw [ofByte, if_pos (by omega), ofRaw] at hraw
        omega
      have hc : c = b.toNat := by rw [hcs.1, ofByte, if_neg (by omega)]
      subst hc
      rw [form_of_lt hlow] at hb ⊢
      obtain rfl : tail = [] := ((List.cons.injEq _ _ _ _).mp hb).2.symm
      refine stray_cons (fun d hd hd' hform => ?_) (ih hcs.2)
      obtain ⟨t, ht⟩ := hform
      have hself := decode_append (isChar_of_unicode lo hi) rest
      rw [form_of_lt hlow] at hself
      have hread := decode_append (isChar_of_unicode (by omega) hd') t
      rw [show form d ++ t = [b] ++ rest from ht, hself] at hread
      have hsame : (b.toNat : Int) = d := congrArg Decoded.code hread
      omega
  | raw _ none _ ih =>
      rw [List.map_cons, List.cons.injEq] at hcs
      exact stray_cons (fun c hlo hhi => none c (by omega) hhi) (ih hcs.2)

theorem stray_iff : Stray s ↔ decodeText true (ofExternal s) = s.map ofByte :=
  ⟨Stray.decodeText_eq, (scan_chars_ofExternal s).1.stray⟩

instance (s : Bytes) : Decidable (Stray s) := decidable_of_iff' _ stray_iff

/-- Heads without their trail, trails without a head, and an overlong form. -/
example : Stray [0x61, 0xC3, 0xE2, 0x82, 0x62, 0xA9, 0xC0, 0x80, 0xFF] := by decide +kernel

theorem outside_map_ofByte (s : Bytes) : outside (s.map ofByte) = s := by
  induction s with
  | nil => rfl
  | cons b rest ih =>
      unfold outside at ih ⊢
      rw [List.map_cons, List.flatMap_cons, ih]
      by_cases high : 0x80 ≤ b.toNat
      · have hraw : isRaw (ofByte b) = true := by
          unfold isRaw ofByte ofRaw maxFiveByte
          rw [if_pos high]
          exact decide_eq_true (by omega)
        rw [hraw, if_pos rfl, lowByte_ofByte]
        rfl
      · have hraw : isRaw (ofByte b) = false := by
          unfold isRaw ofByte maxFiveByte
          rw [if_neg high]
          exact decide_eq_false (by omega)
        rw [hraw, ofByte, if_neg high, form_of_lt (by omega)]
        rfl

/-- A word is found where its bytes stand, whatever forms it holds. -/
theorem Stray.isPrefix_iff (h : Stray s) (w : Bytes) (k : Nat) :
    decodeText true (ofExternal w) <+: (s.map ofByte).drop k ↔ w <+: s.drop k := by
  rw [← List.map_drop]
  constructor
  · intro hword
    -- what is found consists of single bytes, and so does the word then
    obtain ⟨n, hn⟩ : ∃ n, decodeText true (ofExternal w) = ((s.drop k).take n).map ofByte :=
      ⟨_, by rw [List.map_take]; exact List.prefix_iff_eq_take.mp hword⟩
    have hout : outside (decodeText true (ofExternal w)) = w := outside_chars_ofExternal w
    rw [hn, outside_map_ofByte] at hout
    rw [← hout]
    exact List.take_prefix n _
  · intro hword
    have hstray : Stray w :=
      h.of_isInfix (hword.isInfix.trans (List.drop_suffix k s).isInfix)
    rw [hstray.decodeText_eq]
    exact hword.map ofByte

theorem isPrefix_decodeText_false_iff (w : Bytes) (k : Nat) :
    decodeText false w <+: (decodeText false s).drop k ↔ w <+: s.drop k := by
  have hinj : Function.Injective fun b : UInt8 => (b.toNat : Int) := by
    intro b b' heq
    exact UInt8.toNat_inj.mp (Int.ofNat.inj heq)
  show w.map _ <+: (s.map _).drop k ↔ _
  rw [← List.map_drop]
  exact List.prefix_map_iff_of_injective hinj

/-- In both kinds of buffer a search finds the same. -/
theorem Stray.greedy_congr (h : Stray s) {w : Bytes} {i : Nat} {found : List Nat}
    (hfound : Greedy (decodeText false w) (decodeText false s) i found) :
    Greedy (decodeText true (ofExternal w)) (s.map ofByte) i found ∧
      (found ≠ [] →
        (decodeText true (ofExternal w)).length = (decodeText false w).length) := by
  have hlen : ∀ k, decodeText false w <+: (decodeText false s).drop k →
      (decodeText true (ofExternal w)).length = (decodeText false w).length := by
    intro k hk
    have hword := (isPrefix_decodeText_false_iff w k).mp hk
    have hstray : Stray w := h.of_isInfix (hword.isInfix.trans (List.drop_suffix k s).isInfix)
    rw [hstray.decodeText_eq, List.length_map, decodeText, if_neg Bool.false_ne_true,
      List.length_map]
  refine ⟨hfound.congr (fun k => ?_) hlen, fun hne => ?_⟩
  · rw [h.isPrefix_iff, isPrefix_decodeText_false_iff]
  · obtain ⟨k, hk⟩ := List.exists_mem_of_ne_nil found hne
    exact hlen k (hfound.here_of_mem k hk)

end Code

end GapText
