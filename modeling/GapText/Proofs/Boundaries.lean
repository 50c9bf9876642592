import GapText.Proofs.Landmarks

/-!
# Boundaries of characters

Three readers know where a character ends: the step forward trusts its head, the step back looks
for a head, and the decoder takes the bytes as they lie in the array. On a text of forms whose gap
is between two characters they agree. The places met by stepping forward from the start are those
of all characters, stepping back from the end meets them in reverse, and decoding at each of them
gives its character.

Steps check nothing, so which bytes they look at is a question of its own. It is answered by the
steps with a record of their reads (`Traced`), which give the same places.
-/

namespace GapText

/-! ## Reads -/

/-- A value with the places that were read for it, in order. -/
structure Traced (α : Type) where
  value : α
  reads : List Int := []

namespace Traced

variable {α β : Type}

instance : Monad Traced where
  pure a := ⟨a, []⟩
  bind x f := ⟨(f x.value).value, x.reads ++ (f x.value).reads⟩

@[simp] theorem value_bind (x : Traced α) (f : α → Traced β) :
    (x >>= f).value = (f x.value).value := rfl

@[simp] theorem reads_bind (x : Traced α) (f : α → Traced β) :
    (x >>= f).reads = x.reads ++ (f x.value).reads := rfl

@[simp] theorem value_pure (a : α) : (pure a : Traced α).value = a := rfl

@[simp] theorem reads_pure (a : α) : (pure a : Traced α).reads = [] := rfl

end Traced

namespace GapBuffer

/-- What lies on one side of the gap lies in the array as it stands in the text. -/
theorem bytesFrom_eq {g : GapBuffer} {x y z : Bytes} (h : g.InShape)
    (hcontents : g.contents = x ++ y ++ z)
    (hside : g.gapStart ≤ x.length ∨ x.length + y.length ≤ g.gapStart) {n : Nat}
    (hn : y.length ≤ n) : ∃ t, g.bytesFrom (x.length + 1) n = y ++ t := by
  have hsize := h.size_eq
  have hlen := congrArg List.length hcontents
  rw [length_contents, List.length_append, List.length_append] at hlen
  have hoffset : g.offset (x.length + 1) = g.offsetOf x.length := by
    unfold offset shift offsetOf gapPos
    split <;> split <;> omega
  have hplace : ∀ i < y.length, g.offsetOf (x.length + i) = g.offsetOf x.length + i := by
    intro i hi
    unfold offsetOf
    split <;> split <;> omega
  have hfits : ∀ i < y.length, g.offsetOf x.length + i < g.storage.size := by
    intro i hi
    rw [← hplace i hi]
    unfold offsetOf
    split <;> omega
  have hbyte : ∀ i < y.length, g.storage[g.offsetOf x.length + i]? = y[i]? := by
    intro i hi
    have hraw := getElem_contents g (x.length + i) (by rw [length_contents]; omega)
    simp only [hcontents, List.append_assoc, List.getElem_append_right (Nat.le_add_right _ _),
      Nat.add_sub_cancel_left, List.getElem_append_left hi] at hraw
    rw [List.getElem?_eq_getElem hi, hraw, hplace i hi, rawByte, Array.getD_eq_getD_getElem?,
      Array.getElem?_eq_getElem (hfits i hi), Option.getD_some]
  refine ⟨(g.bytesFrom (x.length + 1) n).drop y.length, ?_⟩
  conv_lhs => rw [← List.take_append_drop y.length (g.bytesFrom (x.length + 1) n)]
  congr 1
  apply List.ext_getElem?
  intro i
  rcases Nat.lt_or_ge i y.length with hi | hi
  · have hwithin := hfits i hi
    rw [List.getElem?_take_of_lt hi, ← hbyte i hi, bytesFrom, hoffset, Array.getElem?_toList,
      Array.getElem?_extract, if_pos (by omega)]
  · rw [List.getElem?_take_eq_none hi, List.getElem?_eq_none hi]

end GapBuffer

namespace Buffer

open Code

def readByte (b : Buffer) (p : Int) : Traced UInt8 := ⟨b.text.byteAt p, [p]⟩

def tracedNext (b : Buffer) (p : Int) : Traced Int := do
  if b.multibyte then return p + headLength (← b.readByte p) else return p + 1

def tracedHeadBefore (b : Buffer) : Nat → Int → Traced Int
  | 0, p => return p
  | n + 1, p => do
      if isHead (← b.readByte p) then return p else tracedHeadBefore b n (p - 1)

def tracedPrev (b : Buffer) (p : Int) : Traced Int :=
  if b.multibyte then b.tracedHeadBefore p.toNat (p - 1) else return p - 1

theorem value_tracedNext (b : Buffer) (p : Int) : (b.tracedNext p).value = b.next p := by
  unfold tracedNext next
  split <;> rfl

theorem value_tracedHeadBefore (b : Buffer) (n : Nat) (p : Int) :
    (b.tracedHeadBefore n p).value = b.headBefore n p := by
  induction n generalizing p with
  | zero => rfl
  | succ n ih =>
      rw [tracedHeadBefore, headBefore, Traced.value_bind]
      show (if isHead (b.text.byteAt p) then pure p else _ : Traced Int).value = _
      split
      · rfl
      · exact ih (p - 1)

theorem value_tracedPrev (b : Buffer) (p : Int) : (b.tracedPrev p).value = b.prev p := by
  unfold tracedPrev prev
  split
  · exact value_tracedHeadBefore b p.toNat (p - 1)
  · rfl

variable {b : Buffer} {cs : List Int} {k : Int}

/-- A search looks at each trail that it passes over and at the head, once, and at nothing else. -/
theorem reads_tracedHeadBefore {q : Int} (hq : isHead (b.text.byteAt q) = true) {n j : Nat}
    (hj : j < n) (hbetween : ∀ i < j, isHead (b.text.byteAt (q + i + 1)) = false) :
    (b.tracedHeadBefore n (q + j)).reads.length = j + 1 ∧
      ∀ r ∈ (b.tracedHeadBefore n (q + j)).reads, q ≤ r ∧ r ≤ q + j := by
  obtain ⟨n, rfl⟩ := Nat.exists_eq_add_one_of_ne_zero (Nat.ne_of_gt (Nat.zero_lt_of_lt hj))
  rw [tracedHeadBefore, Traced.reads_bind]
  induction j generalizing n with
  | zero =>
      have hhead : isHead (b.readByte (q + (0 : Nat))).value = true := by
        show isHead (b.text.byteAt (q + 0)) = true
        rw [Int.add_zero, hq]
      rw [if_pos hhead]
      refine ⟨rfl, fun r hr => ?_⟩
      rw [List.mem_singleton.mp hr]
      omega
  | succ j ih =>
      have htrail : ¬ isHead (b.readByte (q + ((j + 1 : Nat) : Int))).value = true := by
        show ¬ isHead (b.text.byteAt (q + (j + 1))) = true
        rw [← Int.add_assoc, hbetween j (Nat.lt_succ_self j)]
        exact Bool.false_ne_true
      obtain ⟨n, rfl⟩ := Nat.exists_eq_add_one_of_ne_zero (show n ≠ 0 by omega)
      obtain ⟨hlen, hmem⟩ := ih (fun i hi => hbetween i (Nat.lt_succ_of_lt hi)) n (by omega)
      rw [if_neg htrail, show q + ((j + 1 : Nat) : Int) - 1 = q + j by omega, tracedHeadBefore,
        Traced.reads_bind]
      refine ⟨congrArg (· + 1) hlen, fun r hr => ?_⟩
      rcases List.mem_cons.mp hr with rfl | hr
      · omega
      · have hrest := hmem r hr
        omega

/-- A step back from the end of a character reads bytes of this character only, each once. -/
theorem HasText.reads_tracedPrev (h : HasText b cs) (h₁ : 1 ≤ k) (h₂ : k ≤ cs.length) :
    (b.tracedPrev (bytePos b.multibyte cs (k + 1))).reads.length ≤ maxForm ∧
      ∀ r ∈ (b.tracedPrev (bytePos b.multibyte cs (k + 1))).reads,
        bytePos b.multibyte cs k ≤ r ∧ r < bytePos b.multibyte cs (k + 1) := by
  unfold tracedPrev
  cases hm : b.multibyte with
  | false =>
      rw [if_neg Bool.false_ne_true]
      exact ⟨Nat.zero_le _, fun r hr => absurd hr List.not_mem_nil⟩
  | true =>
      obtain ⟨n, hsucc, hhead, hlen, htail⟩ := h.bytes_of_char hm h₁ h₂
      have hone : bytePos true cs 1 ≤ bytePos true cs k := bytePos_le (Int.le_refl 1) h₁ (by omega)
      rw [bytePos_one] at hone
      have hfits := headLength_cases (b.text.byteAt (bytePos true cs k))
      rw [if_pos rfl, hsucc, Int.add_sub_cancel]
      obtain ⟨hcount, hmem⟩ := reads_tracedHeadBefore hhead
        (n := (bytePos true cs k + n + 1).toNat) (by omega) htail
      refine ⟨?_, fun r hr => ?_⟩
      · rw [hcount]
        unfold maxForm
        omega
      · have hr := hmem r hr
        omega

theorem HasText.mem_reads_tracedPrev {p : Position} (h : HasText b cs)
    (hp : IsPlace b.multibyte cs p) (hchar : 1 < p.char) :
    ∀ r ∈ (b.tracedPrev p.byte).reads, 1 ≤ r ∧ r < p.byte := by
  have hlast := hp.le_last
  obtain ⟨-, hreads⟩ := h.reads_tracedPrev (k := p.char - 1) (by omega) (by omega)
  have hone : bytePos b.multibyte cs 1 ≤ bytePos b.multibyte cs (p.char - 1) :=
    bytePos_le (Int.le_refl 1) (by omega) (by omega)
  rw [bytePos_one] at hone
  rw [Int.sub_add_cancel, ← hp.byte_eq] at hreads
  exact fun r hr => ⟨Int.le_trans hone (hreads r hr).1, (hreads r hr).2⟩

/-- A step forward reads the byte that it starts from, if any. -/
theorem reads_tracedNext (b : Buffer) (p : Int) : ∀ r ∈ (b.tracedNext p).reads, r = p := by
  unfold tracedNext
  intro r hr
  split at hr
  · exact List.mem_singleton.mp hr
  · cases hr

/-! ## Decoding -/

theorem formLength_le (c : Int) : formLength c ≤ maxForm := by
  unfold formLength maxForm
  repeat' split
  all_goals decide

/-- The gap is a place of the text, so no character lies on both sides of it. -/
theorem Sound.gap_side {pre post : List Int} {c : Int} (h : Sound b (pre ++ c :: post)) :
    b.text.gapStart ≤ (encode b.multibyte pre).length ∨
      (encode b.multibyte pre).length + (encodeChar b.multibyte c).length ≤ b.text.gapStart := by
  have hgap : ((b.text.gapStart : Int) + 1) = bytePos b.multibyte _ b.gapChar := h.gap.byte_eq
  have hlast := h.gap.le_last
  have hsucc : bytePos b.multibyte (pre ++ c :: post) (pre.length + 1 + 1) = _ := bytePos_succ c
  rw [bytePos_length_add_one] at hsucc
  rcases Int.lt_or_le (pre.length + 1) b.gapChar with hbehind | hbefore
  · have hle : bytePos b.multibyte (pre ++ c :: post) (pre.length + 1 + 1) ≤ _ :=
      bytePos_le (by omega) hbehind hlast
    omega
  · have hle : _ ≤ bytePos b.multibyte (pre ++ c :: post) (pre.length + 1) :=
      bytePos_le h.gap.one_le hbefore (by rw [List.length_append]; omega)
    rw [bytePos_length_add_one] at hle
    have hsame : b.gap.char = b.gapChar := rfl
    rw [hsame] at hle
    omega

/-- Decoding at the start of a character gives it, though it reads the array as it lies there. -/
theorem Sound.charAt_bytePos {pre post : List Int} {c : Int} (h : Sound b (pre ++ c :: post)) :
    b.charAt (bytePos b.multibyte (pre ++ c :: post) (pre.length + 1)) = c := by
  have hallowed := h.allowed c (List.mem_append_right pre List.mem_cons_self)
  have hbytes := h.contents_eq
  have hside := h.gap_side
  rw [bytePos_length_add_one]
  rw [encode_append, encode_cons, ← List.append_assoc] at hbytes
  unfold charAt
  cases hm : b.multibyte with
  | false =>
      rw [hm] at hallowed hbytes
      have hat : b.text.contents[(encode false pre).length]? = some (lowByte c) := by
        rw [hbytes, List.append_assoc, List.getElem?_append_right (Nat.le_refl _), Nat.sub_self]
        rfl
      rw [if_neg Bool.false_ne_true, GapBuffer.byteAt_of_getElem? hat]
      exact toNat_lowByte hallowed.1 hallowed.2
  | true =>
      rw [hm] at hallowed hbytes hside
      have hfits : (encodeChar true c).length ≤ maxForm := by
        show (form c).length ≤ maxForm
        rw [length_form]
        exact formLength_le c
      obtain ⟨t, ht⟩ := GapBuffer.bytesFrom_eq h.wellFormed.toInShape hbytes hside hfits
      rw [if_pos rfl, decodeAt, ht]
      exact congrArg Decoded.code (decode_append hallowed t)

/-! ## Walks over the whole text -/

/-- The places at which characters of a text start, and the end. -/
def boundaries (m : Bool) (cs : List Int) : List Int :=
  (List.range (cs.length + 1)).map fun i : Nat => bytePos m cs (i + 1)

theorem HasText.stepsForward_eq (h : HasText b cs) {n j : Nat} (h₁ : 1 ≤ k)
    (hk : k + j = cs.length + 1) (hn : j ≤ n) :
    b.stepsForward n (bytePos b.multibyte cs k) =
      (List.range j).map fun i : Nat => bytePos b.multibyte cs (k + i) := by
  have hend : bytePos b.multibyte cs (cs.length + 1) = b.text.endPos := by
    rw [bytePos_last, h.endPos_eq]
  induction j generalizing n k with
  | zero =>
      obtain rfl : k = cs.length + 1 := by omega
      rw [hend]
      cases n with
      | zero => rfl
      | succ n => exact if_neg (Int.lt_irrefl _)
  | succ j ih =>
      obtain ⟨n, rfl⟩ := Nat.exists_eq_add_one_of_ne_zero (show n ≠ 0 by omega)
      have hlt := bytePos_lt (m := b.multibyte) h₁ (show k < cs.length + 1 by omega) (Int.le_refl _)
      rw [stepsForward, if_pos (hend ▸ hlt), h.next_bytePos h₁ (by omega),
        ih (k := k + 1) (by omega) (by omega) (Nat.le_of_succ_le_succ hn), List.range_succ_eq_map,
        List.map_cons, List.map_map, Int.ofNat_zero, Int.add_zero]
      congr 1
      refine List.map_congr_left fun i _ => ?_
      show bytePos b.multibyte cs (k + 1 + i) = bytePos b.multibyte cs (k + ((i + 1 : Nat) : Int))
      congr 1
      omega

theorem HasText.stepsBackward_eq (h : HasText b cs) {n j : Nat} (hj : j ≤ cs.length)
    (hn : j ≤ n) :
    b.stepsBackward n (bytePos b.multibyte cs (j + 1)) =
      ((List.range j).map fun i : Nat => bytePos b.multibyte cs (i + 1)).reverse := by
  induction j generalizing n with
  | zero =>
      have hone : bytePos b.multibyte cs ((0 : Nat) + 1) = 1 := bytePos_one cs
      rw [hone]
      cases n with
      | zero => rfl
      | succ n => exact if_neg (Int.lt_irrefl 1)
  | succ j ih =>
      obtain ⟨n, rfl⟩ := Nat.exists_eq_add_one_of_ne_zero (show n ≠ 0 by omega)
      have hlt : bytePos b.multibyte cs 1 < bytePos b.multibyte cs (((j + 1 : Nat) : Int) + 1) :=
        bytePos_lt (Int.le_refl 1) (by omega) (by omega)
      rw [bytePos_one] at hlt
      have hprev := h.prev_bytePos (k := ((j + 1 : Nat) : Int)) (by omega) (by omega)
      rw [stepsBackward, if_pos hlt, hprev]
      have hrest := ih (n := n) (by omega) (by omega)
      rw [show (((j + 1 : Nat) : Int)) = (j : Int) + 1 from rfl, hrest, List.range_succ,
        List.map_append, List.reverse_append]
      rfl

theorem HasText.length_le (h : HasText b cs) : cs.length ≤ b.text.length.toNat := by
  have hchars := length_le_length_encode (m := b.multibyte) cs
  have hlen := h.endPos_eq
  unfold GapBuffer.endPos at hlen
  omega

theorem HasText.forward_eq (h : HasText b cs) :
    b.forward ++ [b.text.endPos] = boundaries b.multibyte cs := by
  have hwalk := h.stepsForward_eq (k := 1) (j := cs.length) (Int.le_refl 1) (Int.add_comm _ _)
    h.length_le
  rw [bytePos_one] at hwalk
  unfold forward boundaries
  rw [hwalk, List.range_succ, List.map_append, h.endPos_eq, ← bytePos_last]
  congr 1
  exact List.map_congr_left fun i _ => congrArg _ (Int.add_comm _ _)

theorem HasText.backward_eq (h : HasText b cs) :
    b.text.endPos :: b.backward = (boundaries b.multibyte cs).reverse := by
  have hwalk := h.stepsBackward_eq (Nat.le_refl _) h.length_le
  rw [bytePos_last, ← h.endPos_eq] at hwalk
  unfold backward boundaries
  rw [hwalk, List.range_succ, List.map_append, List.reverse_append, h.endPos_eq, ← bytePos_last]
  rfl

theorem mem_boundaries {m : Bool} {p : Int} (hp : p ∈ boundaries m cs) :
    ∃ k : Int, 1 ≤ k ∧ k ≤ cs.length + 1 ∧ p = bytePos m cs k := by
  obtain ⟨i, hi, rfl⟩ := List.mem_map.mp hp
  have hlt := List.mem_range.mp hi
  exact ⟨i + 1, by omega, by omega, rfl⟩

/-- **Steps meet every character once, across the gap.** After any run, stepping forward from the
start meets the places of all characters and then the end, and stepping back from the end meets them
in reverse; what is decoded at the place of a character is this character. So the two steps undo
each other at all of these places, and a step back looks at no more bytes than the longest form has,
all of them in the text and before the place that it starts from. -/
theorem boundaries_run (m : Bool) (ks : List Command)
    (h : Along step Admissible { multibyte := m } ks) :
    let b := ks.foldl step { multibyte := m }
    let cs := (ks.foldl (Editor.after m) {}).chars
    b.forward ++ [b.text.endPos] = boundaries m cs ∧
    b.text.endPos :: b.backward = (boundaries m cs).reverse ∧
    (∀ (i : Nat) (hi : i < cs.length), b.charAt (bytePos m cs (i + 1)) = cs[i]) ∧
    ∀ p ∈ boundaries m cs,
      (p < b.text.endPos → b.prev (b.next p) = p) ∧
      (1 < p → b.next (b.prev p) = p ∧ (b.tracedPrev p).value = b.prev p ∧
        (b.tracedPrev p).reads.length ≤ maxForm ∧
        ∀ r ∈ (b.tracedPrev p).reads, 1 ≤ r ∧ r < p) := by
  intro b cs
  obtain ⟨hrep, hm⟩ : Represents b (ks.foldl (Editor.after m) {}) ∧ b.multibyte = m :=
    represents_run ks h
  have hsound : Sound b cs := hrep.sound
  have htext := hsound.toHasText
  clear_value b cs
  subst hm
  refine ⟨htext.forward_eq, htext.backward_eq, ?_, ?_⟩
  · intro i hi
    have hsplit : cs = cs.take i ++ cs[i] :: cs.drop (i + 1) := by
      rw [← List.drop_eq_getElem_cons hi, List.take_append_drop]
    have hlen : (cs.take i).length = i := List.length_take_of_le (Nat.le_of_lt hi)
    have hchar := Sound.charAt_bytePos (hsplit ▸ hsound)
    rwa [← hsplit, hlen] at hchar
  · intro p hp
    obtain ⟨k, hone, hlast, rfl⟩ := mem_boundaries hp
    have hfirst := bytePos_one (m := b.multibyte) cs
    constructor
    · intro hlt
      rw [htext.endPos_eq, ← bytePos_last] at hlt
      have hk : k ≤ cs.length := by
        by_contra hk
        rw [show k = cs.length + 1 by omega] at hlt
        exact Int.lt_irrefl _ hlt
      rw [htext.next_bytePos hone hk, htext.prev_bytePos hone hk]
    · intro hlt
      have hk : 1 < k := by
        by_contra hk
        rw [show k = 1 by omega, hfirst] at hlt
        exact Int.lt_irrefl 1 hlt
      -- the place behind character `k - 1`
      obtain ⟨k, rfl⟩ : ∃ j, k = j + 1 := ⟨k - 1, (Int.sub_add_cancel k 1).symm⟩
      have hstart : bytePos b.multibyte cs 1 ≤ bytePos b.multibyte cs k :=
        bytePos_le (Int.le_refl 1) (by omega) (by omega)
      obtain ⟨hcount, hreads⟩ := htext.reads_tracedPrev (k := k) (by omega) (by omega)
      rw [htext.prev_bytePos (by omega) (by omega), htext.next_bytePos (by omega) (by omega)]
      refine ⟨rfl, ?_, hcount, fun r hr => ?_⟩
      · rw [value_tracedPrev, htext.prev_bytePos (by omega) (by omega)]
      · have hr := hreads r hr
        omega

/-- Characters of one to five bytes and a raw byte, with the gap between two of them. -/
theorem boundaries_run_mixed :
    let ks : List Command :=
      [.insert 1 [0x61, 0xC3, 0xA9, 0xE3, 0x81, 0x82, 0xF0, 0x9F, 0x98, 0x80, 0xF8, 0x88, 0x80,
        0x80, 0x80, 0xC1, 0xBF], .insert 5 [0x7C]]
    let b := ks.foldl step { multibyte := true }
    Along step Admissible { multibyte := true } ks ∧ b.gapChar = 6 ∧
      b.forward ++ [b.text.endPos] = [1, 2, 4, 7, 11, 12, 17, 19] ∧
      b.text.endPos :: b.backward = [19, 17, 12, 11, 7, 4, 2, 1] ∧
      b.charAt 12 = 0x200000 ∧ b.next (b.prev 17) = 17 ∧
      (b.tracedPrev 17).reads.length ≤ maxForm := by
  intro ks b
  have hks : Along step Admissible { multibyte := true } ks := by decide +kernel
  obtain ⟨hforward, hbackward, hchars, hsteps⟩ := boundaries_run true ks hks
  have hcs : (ks.foldl (Editor.after true) {}).chars =
      [0x61, 0xE9, 0x3042, 0x1F600, 0x7C, 0x200000, 0x3FFFFF] := by decide +kernel
  rw [hcs] at hforward hbackward hchars hsteps
  refine ⟨hks, by decide +kernel, hforward.trans (by decide), hbackward.trans (by decide),
    hchars 5 (by decide), ?_⟩
  obtain ⟨hundo, -, hcount, -⟩ := (hsteps 17 (by decide)).2 (by decide)
  exact ⟨hundo, hcount⟩

end Buffer

end GapText
