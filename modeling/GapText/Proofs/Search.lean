import GapText.Proofs.Places
import GapText.Proofs.Sync

/-!
# Searching bytes for characters

A search goes from left to right, takes the first match at or behind the place that it has come to,
and goes on behind it (`Greedy`); so what it finds is settled by the word and the text. A search for
the bytes of a word in the bytes of a text finds the matches of the characters, at the bytes where
they start: the first byte of a word is a head, heads stand only where characters start, and no
form is the start of another one.
-/

namespace GapText

/-! ## Greedy searches -/

/-- The matches that a search from index `i` on finds. -/
inductive Greedy {α : Type} (word text : List α) : Nat → List Nat → Prop
  | done {i : Nat} (none : ∀ j, i ≤ j → ¬ word <+: text.drop j) : Greedy word text i []
  | found {i j : Nat} {rest : List Nat} (le : i ≤ j) (here : word <+: text.drop j)
      (first : ∀ k, i ≤ k → k < j → ¬ word <+: text.drop k)
      (more : Greedy word text (j + word.length) rest) : Greedy word text i (j :: rest)

namespace Greedy

variable {α : Type} {word text : List α} {i : Nat} {found found' : List Nat}

/-- A match at the place that the search has come to. -/
theorem here (hmatch : word <+: text.drop i) (more : Greedy word text (i + word.length) found) :
    Greedy word text i (i :: found) :=
  .found (Nat.le_refl i) hmatch (fun _ hk hlt => absurd hk (Nat.not_le.mpr hlt)) more

/-- A word that is matched ends in the text. -/
theorem add_length_le (hword : word ≠ []) (h : word <+: text.drop i) :
    i + word.length ≤ text.length := by
  have hpos := List.length_pos_iff.mpr hword
  have hlen := h.length_le
  rw [List.length_drop] at hlen
  omega

/-- Nothing is found where the rest of the text is shorter than the word. -/
theorem of_short (hword : word ≠ []) (h : text.length < i + word.length) :
    Greedy word text i [] := by
  refine .done fun j hj hmatch => ?_
  have hle := add_length_le hword hmatch
  omega

/-- There is only one search. -/
theorem unique (h : Greedy word text i found) (h' : Greedy word text i found') :
    found = found' := by
  induction h generalizing found' with
  | done none =>
      cases h' with
      | done _ => rfl
      | found le here _ _ => exact absurd here (none _ le)
  | @found i j rest le here first more ih =>
      cases h' with
      | done none => exact absurd here (none j le)
      | @found _ j' _ le' here' first' more' =>
          have heq : j = j' := by
            rcases Nat.lt_trichotomy j j' with hlt | heq | hgt
            · exact absurd here (first' j le hlt)
            · exact heq
            · exact absurd here' (first j' le' hgt)
          subst heq
          rw [ih more']

/-- A place without a match is passed over. -/
theorem of_succ (hnone : ¬ word <+: text.drop i) (h : Greedy word text (i + 1) found) :
    Greedy word text i found := by
  cases h with
  | done none =>
      refine .done fun j hj => ?_
      rcases Nat.eq_or_lt_of_le hj with rfl | hlt
      · exact hnone
      · exact none j hlt
  | found le here first more =>
      refine .found (Nat.le_of_succ_le le) here (fun k hk hlt => ?_) more
      rcases Nat.eq_or_lt_of_le hk with rfl | hgt
      · exact hnone
      · exact first k hgt hlt

theorem le_of_mem (h : Greedy word text i found) : ∀ j ∈ found, i ≤ j := by
  induction h with
  | done _ => exact fun j hj => absurd hj List.not_mem_nil
  | found le _ _ _ ih =>
      refine List.forall_mem_cons.mpr ⟨le, fun k hk => ?_⟩
      have hk := ih k hk
      omega

theorem here_of_mem (h : Greedy word text i found) : ∀ j ∈ found, word <+: text.drop j := by
  induction h with
  | done _ => exact fun j hj => absurd hj List.not_mem_nil
  | found _ here _ _ ih => exact List.forall_mem_cons.mpr ⟨here, ih⟩

/-- No two matches overlap. -/
theorem pairwise (h : Greedy word text i found) :
    found.Pairwise fun j k => j + word.length ≤ k := by
  induction h with
  | done _ => exact .nil
  | found _ _ _ more ih => exact .cons more.le_of_mem ih

end Greedy

/-- The search of the program is the greedy one. -/
theorem Bytes.greedy_matchesFrom {word : Bytes} (hword : word ≠ []) (pre : Bytes) (skip : Nat)
    (s : Bytes) :
    Greedy word (pre ++ s) (pre.length + skip) (matchesFrom word pre.length skip s) := by
  induction s generalizing pre skip with
  | nil =>
      refine .of_short hword ?_
      have hpos := List.length_pos_iff.mpr hword
      rw [List.append_nil]
      omega
  | cons b s ih =>
      have hassoc : pre ++ b :: s = pre ++ [b] ++ s := by simp
      have hlen : (pre ++ [b]).length = pre.length + 1 := List.length_append
      have hrest : ∀ skip, Greedy word (pre ++ b :: s) (pre.length + 1 + skip)
          (matchesFrom word (pre.length + 1) skip s) := by
        intro skip
        rw [hassoc, ← hlen]
        exact ih (pre ++ [b]) skip
      cases skip with
      | succ skip =>
          rw [matchesFrom, show pre.length + (skip + 1) = pre.length + 1 + skip by omega]
          exact hrest skip
      | zero =>
          have hdrop : (pre ++ b :: s).drop pre.length = b :: s := List.drop_left
          have hpos := List.length_pos_iff.mpr hword
          rw [matchesFrom, Nat.add_zero]
          split
          · rename_i hmatch
            refine .here ?_ ?_
            · rw [hdrop]
              exact List.isPrefixOf_iff_prefix.mp hmatch
            · rw [show pre.length + word.length = pre.length + 1 + (word.length - 1) by omega]
              exact hrest (word.length - 1)
          · rename_i hmatch
            refine .of_succ ?_ (hrest 0)
            rw [hdrop]
            exact fun h => hmatch (List.isPrefixOf_iff_prefix.mpr h)

/-! ## Words and texts in their kept form -/

namespace Code

variable {m : Bool} {word cs : List Int} {p k : Nat}

/-- What stands at the start of a text in its kept form tells the first character. -/
theorem encodeChar_append_inj {c d : Int} {s t : Bytes} (hc : Allowed m c) (hd : Allowed m d)
    (h : encodeChar m c ++ s = encodeChar m d ++ t) : c = d ∧ s = t := by
  have hcd : c = d := by
    cases m with
    | true =>
        have hread := decode_append hd t
        rw [show form d ++ t = form c ++ s from h.symm, decode_append hc s] at hread
        exact congrArg Decoded.code hread
    | false =>
        have hbyte : lowByte c = lowByte d := (List.cons.inj h).1
        rw [← toNat_lowByte hc.1 hc.2, ← toNat_lowByte hd.1 hd.2, hbyte]
  subst hcd
  exact ⟨rfl, List.append_cancel_left h⟩

theorem isPrefix_of_encode (hword : ∀ c ∈ word, Allowed m c) (hcs : ∀ c ∈ cs, Allowed m c)
    (h : encode m word <+: encode m cs) : word <+: cs := by
  induction word generalizing cs with
  | nil => exact List.nil_prefix
  | cons c word ih =>
      obtain ⟨hc, hrest⟩ := List.forall_mem_cons.mp hword
      cases cs with
      | nil => exact absurd (List.prefix_nil.mp h) (encode_ne_nil (List.cons_ne_nil c word))
      | cons d cs =>
          obtain ⟨hd, hmore⟩ := List.forall_mem_cons.mp hcs
          obtain ⟨t, ht⟩ := h
          rw [encode_cons, encode_cons, List.append_assoc] at ht
          obtain ⟨rfl, htail⟩ := encodeChar_append_inj hc hd ht
          exact List.cons_prefix_cons.mpr ⟨rfl, ih hrest hmore ⟨t, htail⟩⟩

/-- How many bytes the first `k` characters of a text take. -/
def offset (m : Bool) (cs : List Int) (k : Nat) : Nat := (encode m (cs.take k)).length

theorem bytePos_add_one (m : Bool) (cs : List Int) (k : Nat) :
    bytePos m cs (k + 1) = offset m cs k + 1 := by
  unfold bytePos offset
  rw [Int.add_sub_cancel, Int.toNat_natCast, Int.add_comm]

theorem offset_lt {l : Nat} (h₁ : k < l) (h₂ : l ≤ cs.length) : offset m cs k < offset m cs l := by
  have h : bytePos m cs (k + 1) < bytePos m cs (l + 1) :=
    bytePos_lt (by omega) (by omega) (by omega)
  rw [bytePos_add_one, bytePos_add_one] at h
  omega

theorem drop_offset (m : Bool) (cs : List Int) (k : Nat) :
    (encode m cs).drop (offset m cs k) = encode m (cs.drop k) := by
  conv_lhs => rw [← List.take_append_drop k cs, encode_append, offset, List.take_append_drop]
  exact List.drop_left

theorem offset_le {l : Nat} (h₁ : k ≤ l) (h₂ : l ≤ cs.length) : offset m cs k ≤ offset m cs l := by
  rcases Nat.eq_or_lt_of_le h₁ with rfl | hlt
  · exact Nat.le_refl _
  · exact Nat.le_of_lt (offset_lt hlt h₂)

theorem offset_add (h : word <+: cs.drop k) :
    offset m cs (k + word.length) = offset m cs k + (encode m word).length := by
  obtain ⟨t, ht⟩ := h
  have htake : cs.take (k + word.length) = cs.take k ++ word := by
    rw [List.take_add, ← ht, List.take_left]
  unfold offset
  rw [htake, encode_append, List.length_append]

/-- A word can only stand where a character starts. -/
theorem exists_offset (hword : ∀ c ∈ word, Allowed m c) (hcs : ∀ c ∈ cs, Allowed m c)
    (hne : word ≠ []) (h : encode m word <+: (encode m cs).drop p) :
    ∃ k < cs.length, p = offset m cs k := by
  obtain ⟨c, rest, rfl⟩ := List.exists_cons_of_ne_nil hne
  obtain ⟨b, tail, hb⟩ := List.exists_cons_of_ne_nil
    (List.ne_nil_of_length_pos (length_encodeChar_pos m c))
  obtain ⟨t, ht⟩ := h
  rw [encode_cons, hb, List.cons_append, List.cons_append] at ht
  have hat : (encode m cs)[p]? = some b := by
    have hdrop := congrArg (·[0]?) ht
    rw [List.getElem?_drop] at hdrop
    exact hdrop.symm
  obtain ⟨hp, hbyte⟩ := List.getElem?_eq_some_iff.mp hat
  cases m with
  | false =>
      rw [length_encode_false] at hp
      refine ⟨p, hp, ?_⟩
      rw [offset, length_encode_false, List.length_take_of_le (Nat.le_of_lt hp)]
  | true =>
      obtain ⟨b', tail', hb', hhead, -⟩ := exists_encodeChar (hword c List.mem_cons_self)
      obtain ⟨rfl, -⟩ := List.cons.inj (hb.symm.trans hb')
      exact (isHead_forms_iff hcs hp).mp (hbyte ▸ hhead)

theorem encode_isPrefix_drop_iff (hword : ∀ c ∈ word, Allowed m c)
    (hcs : ∀ c ∈ cs, Allowed m c) (hne : word ≠ []) :
    encode m word <+: (encode m cs).drop p ↔
      ∃ k < cs.length, p = offset m cs k ∧ word <+: cs.drop k := by
  constructor
  · intro h
    obtain ⟨k, hk, rfl⟩ := exists_offset hword hcs hne h
    rw [drop_offset] at h
    exact ⟨k, hk, rfl,
      isPrefix_of_encode hword (fun c hc => hcs c (List.mem_of_mem_drop hc)) h⟩
  · rintro ⟨k, -, rfl, t, ht⟩
    rw [drop_offset, ← ht, encode_append]
    exact List.prefix_append _ _

/-- A search of the bytes finds what a search of the characters finds, and no more. -/
theorem greedy_of_encode (hword : ∀ c ∈ word, Allowed m c) (hcs : ∀ c ∈ cs, Allowed m c)
    (hne : word ≠ []) {found : List Nat} (h : Greedy (encode m word) (encode m cs) p found)
    (hp : p = offset m cs k) (hk : k ≤ cs.length) :
    ∃ ks, found = ks.map (offset m cs) ∧ Greedy word cs k ks := by
  have hbytes : ∀ j, word <+: cs.drop j → j < cs.length ∧
      encode m word <+: (encode m cs).drop (offset m cs j) := by
    intro j hmatch
    have hpos := List.length_pos_iff.mpr hne
    have hle := Greedy.add_length_le hne hmatch
    have hj : j < cs.length := by omega
    exact ⟨hj, (encode_isPrefix_drop_iff hword hcs hne).mpr ⟨j, hj, rfl, hmatch⟩⟩
  induction h generalizing k with
  | done none =>
      subst hp
      refine ⟨[], rfl, .done fun j hj hmatch => ?_⟩
      obtain ⟨hlt, hmatchBytes⟩ := hbytes j hmatch
      exact none _ (offset_le hj (Nat.le_of_lt hlt)) hmatchBytes
  | found le here first more ih =>
      subst hp
      obtain ⟨j, hj, rfl, hmatch⟩ := (encode_isPrefix_drop_iff hword hcs hne).mp here
      have hkj : k ≤ j := by
        by_contra hlt
        exact absurd le (Nat.not_le.mpr (offset_lt (Nat.lt_of_not_le hlt) hk))
      obtain ⟨ks, rfl, hmore⟩ := ih (offset_add hmatch).symm (Greedy.add_length_le hne hmatch)
      refine ⟨j :: ks, rfl, .found hkj hmatch (fun i hi hlt hmatchHere => ?_) hmore⟩
      exact first _ (offset_le hi (by omega)) (offset_lt hlt (Nat.le_of_lt hj))
        (hbytes i hmatchHere).2

end Code

end GapText
