import GapText.Proofs.Run
import GapText.Proofs.Storage

/-!
# The gap buffer as a list of bytes

The fields of a gap buffer are independent data. Here is what the operations make of them: the sizes
always fit together and both guards stand (`WellFormed`), and the text, read byte by byte around
the gap (`contents`), changes as a plain list of bytes would (`Command.onText`).

An operation first rearranges the array and then puts the guards in place. The lemmas follow that
order: each rearrangement keeps the sizes fitting (`InShape`) and has its effect on the text, and
the guards, which lie outside the text, complete the invariant.
-/

namespace GapText.GapBuffer

variable {g : GapBuffer}

/-! ## The layout -/

/-- The sizes of a gap buffer fit together. -/
structure InShape (g : GapBuffer) : Prop where
  gap_le : (g.gapStart : Int) ≤ g.length
  gap_pos : 1 ≤ g.gapSize
  size_eq : (g.storage.size : Int) = g.length + g.gapSize + 1

/-- The sizes fit together and both guards are zero. -/
structure WellFormed (g : GapBuffer) : Prop extends InShape g where
  gap_guard : g.rawByte g.gapStart = 0
  last_guard : g.rawByte (g.storage.size - 1) = 0

/-- The text, read byte by byte from the first position to the end. -/
def contents (g : GapBuffer) : Bytes := g.slice 1 g.endPos

/-- The offset in the array of the text's `i`-th byte. -/
def offsetOf (g : GapBuffer) (i : Nat) : Nat := if i < g.gapStart then i else i + g.gapSize

theorem offsetOf_of_lt {i : Nat} (hi : i < g.gapStart) : g.offsetOf i = i := if_pos hi

theorem offsetOf_of_le {i : Nat} (hi : g.gapStart ≤ i) : g.offsetOf i = i + g.gapSize :=
  if_neg (Nat.not_lt.mpr hi)

theorem byteAt_eq (g : GapBuffer) (i : Nat) : g.byteAt (1 + i) = g.rawByte (g.offsetOf i) := by
  unfold byteAt offset shift gapPos
  rcases Nat.lt_or_ge i g.gapStart with hi | hi
  · rw [if_neg (by omega), offsetOf_of_lt hi]
    congr 1
    omega
  · rw [if_pos (by omega), offsetOf_of_le hi]
    congr 1
    omega

@[simp] theorem length_contents (g : GapBuffer) : g.contents.length = g.length.toNat := by
  simp [contents, slice, endPos]

theorem getElem_contents (g : GapBuffer) (i : Nat) (hi : i < g.contents.length) :
    g.contents[i] = g.rawByte (g.offsetOf i) := by
  rw [← byteAt_eq]
  simp [contents, slice]

theorem byteAt_of_getElem? {i : Nat} {b : UInt8} (hi : g.contents[i]? = some b) :
    g.byteAt (i + 1) = b := by
  obtain ⟨hlt, hb⟩ := List.getElem?_eq_some_iff.mp hi
  rw [getElem_contents, ← byteAt_eq] at hb
  rw [Int.add_comm, hb]

/-- A part of the text, given by the positions where it starts and ends. -/
theorem slice_eq {x y z : Bytes} (h : g.contents = x ++ y ++ z) :
    g.slice (x.length + 1) ((x ++ y).length + 1) = y := by
  apply List.ext_getElem
  · simp only [slice, List.length_map, List.length_range, List.length_append]
    omega
  · intro i hi hi'
    simp only [slice, List.getElem_map, List.getElem_range]
    have hpart : g.contents[x.length + i]? = some y[i] := by
      rw [h, List.append_assoc, List.getElem?_append_right (Nat.le_add_right _ _),
        Nat.add_sub_cancel_left, List.getElem?_append_left hi', List.getElem?_eq_getElem hi']
    rw [← byteAt_of_getElem? hpart]
    congr 1
    omega

/-- Two gap buffers hold the same text when they are of one length and agree on each byte of it. -/
theorem contents_congr {g' : GapBuffer} (hlen : g'.length = g.length)
    (hraw : ∀ i : Nat, (i : Int) < g.length →
      g'.rawByte (g'.offsetOf i) = g.rawByte (g.offsetOf i)) :
    g'.contents = g.contents := by
  apply List.ext_getElem
  · rw [length_contents, length_contents, hlen]
  · intro i hi _
    rw [length_contents, hlen] at hi
    rw [getElem_contents, getElem_contents]
    exact hraw i (by omega)

theorem InShape.lt_size (h : g.InShape) {i : Nat} (hi : (i : Int) < g.length) :
    g.offsetOf i < g.storage.size := by
  have hsize := h.size_eq
  unfold offsetOf
  split <;> omega

/-- Both pieces of the array, put together, are the text. -/
theorem InShape.toList_eq (h : g.InShape) : g.toList = g.contents := by
  have hle := h.gap_le
  have hsize := h.size_eq
  have hmin : min g.gapStart g.length.toNat = g.gapStart := by omega
  unfold toList endOffset
  rw [hmin]
  apply List.ext_getElem
  · simp only [List.length_append, Array.length_toList, Array.size_extract, length_contents]
    omega
  · intro i hi hi'
    rw [length_contents] at hi'
    have hlt := h.lt_size (i := i) (by omega)
    rw [getElem_contents, rawByte, Array.getD_eq_getD_getElem?, Array.getElem?_eq_getElem hlt,
      Option.getD_some]
    have hleft : (g.storage.extract 0 g.gapStart).toList.length = g.gapStart := by
      rw [Array.length_toList, Array.size_extract]
      omega
    rcases Nat.lt_or_ge i g.gapStart with hlow | hhigh
    · rw [List.getElem_append_left (by rwa [hleft]), Array.getElem_toList, Array.getElem_extract]
      congr 1
      rw [offsetOf_of_lt hlow, Nat.zero_add]
    · rw [List.getElem_append_right (by rwa [hleft]), Array.getElem_toList, Array.getElem_extract]
      congr 1
      rw [offsetOf_of_le hhigh, hleft]
      omega

/-! ## The guards -/

@[simp] theorem length_guarded (g : GapBuffer) : g.guarded.length = g.length := rfl

@[simp] theorem offsetOf_guarded (g : GapBuffer) (i : Nat) :
    g.guarded.offsetOf i = g.offsetOf i := rfl

@[simp] theorem size_guarded (g : GapBuffer) : g.guarded.storage.size = g.storage.size := by
  simp [guarded]

theorem rawByte_guarded (g : GapBuffer) (k : Nat) :
    g.guarded.rawByte k = if k = g.gapStart ∨ k = g.storage.size - 1 then 0 else g.rawByte k := by
  simp only [rawByte, guarded, getD_setIfInBounds, Array.size_setIfInBounds]
  rcases Nat.lt_or_ge k g.storage.size with hk | hk
  · by_cases hlast : k = g.storage.size - 1
    · rw [if_pos (by omega), if_pos (Or.inr hlast)]
    · rw [if_neg (by omega)]
      by_cases hgap : k = g.gapStart
      · rw [if_pos (by omega), if_pos (Or.inl hgap)]
      · rw [if_neg (by omega), if_neg (by omega)]
  · have outside : g.storage.getD k 0 = 0 := by
      rw [Array.getD_eq_getD_getElem?, Array.getElem?_eq_none hk]
      rfl
    rw [if_neg (by omega), if_neg (by omega), outside, ite_self]

theorem wellFormed_guarded (h : g.InShape) : g.guarded.WellFormed where
  gap_le := h.gap_le
  gap_pos := h.gap_pos
  size_eq := by
    rw [size_guarded]
    exact h.size_eq
  gap_guard := by
    rw [rawByte_guarded]
    exact if_pos (Or.inl rfl)
  last_guard := by
    rw [rawByte_guarded, size_guarded]
    exact if_pos (Or.inr rfl)

/-- The guards lie outside the text. -/
theorem contents_guarded (h : g.InShape) : g.guarded.contents = g.contents := by
  apply contents_congr (length_guarded g)
  intro i hi
  have hsize := h.size_eq
  have hgap := h.gap_pos
  rw [rawByte_guarded, offsetOf_guarded]
  -- the first guard is the first byte of the gap, the second one lies behind the text
  apply if_neg
  rcases Nat.lt_or_ge i g.gapStart with hig | hig
  · rw [offsetOf_of_lt hig]
    omega
  · rw [offsetOf_of_le hig]
    omega

/-! ## Moving the gap -/

@[simp] theorem gapSize_relocate (g : GapBuffer) (t : Nat) :
    (g.relocate t).gapSize = g.gapSize := rfl

@[simp] theorem length_relocate (g : GapBuffer) (t : Nat) : (g.relocate t).length = g.length := rfl

theorem inShape_relocate {t : Nat} (h : g.InShape) (ht : (t : Int) ≤ g.length) :
    (g.relocate t).InShape where
  gap_le := ht
  gap_pos := h.gap_pos
  size_eq := by
    have hsize := h.size_eq
    simp only [relocate]
    split <;> simpa using hsize

theorem rawByte_relocate_left {t : Nat} (h : g.InShape) (ht : t < g.gapStart) (k : Nat) :
    (g.relocate t).rawByte k =
      if t + g.gapSize ≤ k ∧ k < g.gapStart + g.gapSize then g.rawByte (k - g.gapSize)
      else g.rawByte k := by
  have hsize := h.size_eq
  have hle := h.gap_le
  simp only [relocate, rawByte, if_pos ht]
  rw [getD_copyUp (by omega) (by omega) (by omega)]
  by_cases hk : t + g.gapSize ≤ k ∧ k < g.gapStart + g.gapSize
  · rw [if_pos (by omega), if_pos hk,
      show k + g.gapStart - (g.gapStart + g.gapSize) = k - g.gapSize by omega]
  · rw [if_neg (by omega), if_neg hk]

theorem rawByte_relocate_right {t : Nat} (h : g.InShape) (hge : g.gapStart ≤ t)
    (ht : (t : Int) ≤ g.length) (k : Nat) :
    (g.relocate t).rawByte k =
      if g.gapStart ≤ k ∧ k < t then g.rawByte (k + g.gapSize) else g.rawByte k := by
  have hsize := h.size_eq
  simp only [relocate, rawByte, if_neg (Nat.not_lt.mpr hge)]
  rw [getD_copyDown (by omega) (by omega)]
  by_cases hk : g.gapStart ≤ k ∧ k < t
  · rw [if_pos (by omega), if_pos hk,
      show g.gapStart + g.gapSize + (k - g.gapStart) = k + g.gapSize by omega]
  · rw [if_neg (by omega), if_neg hk]

/-- Moving the gap changes the offset of every byte that it passes, and no byte of the text. -/
theorem contents_relocate {t : Nat} (h : g.InShape) (ht : (t : Int) ≤ g.length) :
    (g.relocate t).contents = g.contents := by
  apply contents_congr (length_relocate g t)
  intro i hi
  rcases Nat.lt_or_ge t g.gapStart with hlt | hge
  -- the bytes from `t` to the old gap come to lie behind the new one
  · rw [rawByte_relocate_left h hlt]
    rcases Nat.lt_or_ge i t with hit | hit
    · rw [offsetOf_of_lt hit, offsetOf_of_lt (by omega), if_neg (by omega)]
    · rw [offsetOf_of_le hit, gapSize_relocate]
      rcases Nat.lt_or_ge i g.gapStart with hig | hig
      · rw [offsetOf_of_lt hig, if_pos (by omega), Nat.add_sub_cancel]
      · rw [offsetOf_of_le hig, if_neg (by omega)]
  -- the bytes from the old gap to `t` come to lie before the new one
  · rw [rawByte_relocate_right h hge ht]
    rcases Nat.lt_or_ge i t with hit | hit
    · rw [offsetOf_of_lt hit]
      rcases Nat.lt_or_ge i g.gapStart with hig | hig
      · rw [offsetOf_of_lt hig, if_neg (by omega)]
      · rw [offsetOf_of_le hig, if_pos (by omega)]
    · rw [offsetOf_of_le hit, offsetOf_of_le (by omega), gapSize_relocate, if_neg (by omega)]

/-! ## Growing -/

@[simp] theorem gapSize_enlarge (g : GapBuffer) (n : Nat) :
    (g.enlarge n).gapSize = g.gapSize + n := rfl

@[simp] theorem length_enlarge (g : GapBuffer) (n : Nat) : (g.enlarge n).length = g.length := rfl

@[simp] theorem size_enlarge (g : GapBuffer) (n : Nat) :
    (g.enlarge n).storage.size = g.storage.size + n := by
  simp [enlarge]

theorem inShape_enlarge (h : g.InShape) (n : Nat) : (g.enlarge n).InShape where
  gap_le := h.gap_le
  gap_pos := Nat.le_trans h.gap_pos (Nat.le_add_right _ _)
  size_eq := by
    have hsize := h.size_eq
    rw [size_enlarge, gapSize_enlarge, length_enlarge]
    omega

/-- The two pieces of the text lie at the two ends of the longer array. -/
theorem rawByte_enlarge (h : g.InShape) (n k : Nat) :
    (g.enlarge n).rawByte k =
      if k < g.gapStart then g.rawByte k
      else if g.gapStart + g.gapSize + n ≤ k then g.rawByte (k - n)
      else 0 := by
  have hsize := h.size_eq
  have hle := h.gap_le
  have fits : g.gapStart + g.gapSize + n + (g.storage.size - (g.gapStart + g.gapSize))
      = g.storage.size + n := by omega
  simp only [enlarge, rawByte]
  rw [getD_copyInto (by rw [size_copyInto, Array.size_replicate]; omega),
    getD_copyInto (by rw [Array.size_replicate]; omega), getD_replicate_zero, fits]
  by_cases hleft : k < g.gapStart
  · rw [if_neg (by omega), if_pos (by omega), if_pos hleft, Nat.zero_add, Nat.sub_zero]
  · rw [if_neg hleft, if_neg (c := 0 ≤ k ∧ k < 0 + g.gapStart) (by omega)]
    by_cases hright : g.gapStart + g.gapSize + n ≤ k
    · rw [if_pos hright]
      by_cases hin : k < g.storage.size + n
      · rw [if_pos ⟨hright, hin⟩]
        congr 1
        omega
      · rw [if_neg (by omega), Array.getD_eq_getD_getElem?, Array.getElem?_eq_none (by omega)]
        rfl
    · rw [if_neg (by omega), if_neg hright]

theorem contents_enlarge (h : g.InShape) (n : Nat) : (g.enlarge n).contents = g.contents := by
  apply contents_congr (length_enlarge g n)
  intro i hi
  rw [rawByte_enlarge h]
  rcases Nat.lt_or_ge i g.gapStart with hig | hig
  · rw [offsetOf_of_lt (g := g.enlarge n) hig, offsetOf_of_lt hig, if_pos hig]
  · rw [offsetOf_of_le (g := g.enlarge n) hig, offsetOf_of_le hig, gapSize_enlarge,
      if_neg (by omega), if_pos (by omega)]
    congr 1
    omega

/-! ## Filling the gap and letting it swallow text -/

@[simp] theorem gapStart_fill (g : GapBuffer) (s : Bytes) :
    (g.fill s).gapStart = g.gapStart + s.length := rfl

@[simp] theorem gapSize_fill (g : GapBuffer) (s : Bytes) :
    (g.fill s).gapSize = g.gapSize - s.length := rfl

@[simp] theorem length_fill (g : GapBuffer) (s : Bytes) :
    (g.fill s).length = g.length + s.length := rfl

@[simp] theorem size_fill (g : GapBuffer) (s : Bytes) :
    (g.fill s).storage.size = g.storage.size := by
  simp [fill]

theorem inShape_fill {s : Bytes} (h : g.InShape) (hs : s.length < g.gapSize) :
    (g.fill s).InShape where
  gap_le := by
    have hle := h.gap_le
    rw [gapStart_fill, length_fill]
    omega
  gap_pos := by
    rw [gapSize_fill]
    omega
  size_eq := by
    have hsize := h.size_eq
    rw [size_fill, gapSize_fill, length_fill]
    omega

theorem rawByte_fill {s : Bytes} (h : g.InShape) (hs : s.length < g.gapSize) (k : Nat) :
    (g.fill s).rawByte k =
      if g.gapStart ≤ k ∧ k < g.gapStart + s.length then s.getD (k - g.gapStart) 0
      else g.rawByte k := by
  have hsize := h.size_eq
  have hle := h.gap_le
  simp only [fill, rawByte]
  rw [getD_copyInto (by omega), Nat.zero_add]
  congr 1
  simp [Array.getD_eq_getD_getElem?, List.getD_eq_getElem?_getD]

/-- What is written into the gap stands between the two pieces of the text. -/
theorem contents_fill {s : Bytes} (h : g.InShape) (hs : s.length < g.gapSize) :
    (g.fill s).contents = g.contents.take g.gapStart ++ s ++ g.contents.drop g.gapStart := by
  have hle := h.gap_le
  have htake : (g.contents.take g.gapStart).length = g.gapStart := by
    rw [List.length_take, length_contents]
    omega
  apply List.ext_getElem
  · simp only [length_contents, List.length_append, List.length_take, List.length_drop, length_fill]
    omega
  · intro i hi hi'
    rw [getElem_contents, rawByte_fill h hs]
    rcases Nat.lt_or_ge i (g.gapStart + s.length) with hit | hit
    · rw [offsetOf_of_lt hit, List.getElem_append_left (by rw [List.length_append]; omega)]
      rcases Nat.lt_or_ge i g.gapStart with hig | hig
      · rw [if_neg (by omega), List.getElem_append_left (by omega), List.getElem_take,
          getElem_contents, offsetOf_of_lt hig]
      · rw [if_pos (by omega), List.getElem_append_right (by omega), List.getD_eq_getElem?_getD,
          List.getElem?_eq_getElem (by omega), Option.getD_some]
        simp only [htake]
    · rw [offsetOf_of_le hit, List.getElem_append_right (by rw [List.length_append]; omega),
        List.getElem_drop, getElem_contents, offsetOf_of_le (by omega), if_neg (by omega)]
      congr 1
      rw [List.length_append, gapSize_fill]
      omega

@[simp] theorem gapStart_swallow (g : GapBuffer) (n : Nat) :
    (g.swallow n).gapStart = g.gapStart := rfl

@[simp] theorem gapSize_swallow (g : GapBuffer) (n : Nat) :
    (g.swallow n).gapSize = g.gapSize + n := rfl

@[simp] theorem length_swallow (g : GapBuffer) (n : Nat) :
    (g.swallow n).length = g.length - n := rfl

@[simp] theorem size_swallow (g : GapBuffer) (n : Nat) :
    (g.swallow n).storage.size = g.storage.size := rfl

@[simp] theorem rawByte_swallow (g : GapBuffer) (n k : Nat) :
    (g.swallow n).rawByte k = g.rawByte k := rfl

theorem inShape_swallow {n : Nat} (h : g.InShape) (hn : (g.gapStart : Int) + n ≤ g.length) :
    (g.swallow n).InShape where
  gap_le := by
    rw [gapStart_swallow, length_swallow]
    omega
  gap_pos := Nat.le_trans h.gap_pos (Nat.le_add_right _ _)
  size_eq := by
    have hsize := h.size_eq
    rw [size_swallow, gapSize_swallow, length_swallow]
    omega

/-- The bytes behind the gap leave the text; the array stays as it is. -/
theorem contents_swallow {n : Nat} (hn : (g.gapStart : Int) + n ≤ g.length) :
    (g.swallow n).contents = g.contents.take g.gapStart ++ g.contents.drop (g.gapStart + n) := by
  have htake : (g.contents.take g.gapStart).length = g.gapStart := by
    rw [List.length_take, length_contents]
    omega
  apply List.ext_getElem
  · simp only [length_contents, List.length_append, List.length_take, List.length_drop,
      length_swallow]
    omega
  · intro i hi hi'
    rw [getElem_contents, rawByte_swallow]
    rcases Nat.lt_or_ge i g.gapStart with hig | hig
    · rw [offsetOf_of_lt (g := g.swallow n) hig, List.getElem_append_left (by omega),
        List.getElem_take, getElem_contents, offsetOf_of_lt hig]
    · rw [offsetOf_of_le (g := g.swallow n) hig, List.getElem_append_right (by omega),
        List.getElem_drop, getElem_contents, offsetOf_of_le (by omega)]
      congr 1
      rw [gapSize_swallow]
      omega

/-! ## The operations -/

theorem rawByte_ofList (s : Bytes) (k : Nat) : (ofList s).rawByte k = s.getD k 0 := by
  simp only [ofList, rawByte, Array.getD_eq_getD_getElem?, Array.getElem?_append,
    List.getD_eq_getElem?_getD, List.size_toArray, List.getElem?_toArray]
  split
  · rfl
  · rename_i hk
    rw [← Array.getD_eq_getD_getElem?, getD_replicate_zero, List.getElem?_eq_none (by omega)]
    rfl

theorem wellFormed_ofList (s : Bytes) : (ofList s).WellFormed where
  gap_le := Int.le_refl _
  gap_pos := (by decide : 1 ≤ spareBytes)
  size_eq := by
    simp only [ofList, Array.size_append, List.size_toArray, Array.size_replicate]
    omega
  gap_guard := by
    rw [rawByte_ofList]
    simp [ofList]
  last_guard := by
    rw [rawByte_ofList]
    simp [ofList]

theorem contents_ofList (s : Bytes) : (ofList s).contents = s := by
  apply List.ext_getElem
  · simp [ofList]
  · intro i hi hi'
    rw [getElem_contents, offsetOf_of_lt (g := ofList s) hi', rawByte_ofList,
      List.getD_eq_getElem?_getD, List.getElem?_eq_getElem hi', Option.getD_some]

section Move

variable {p lo hi : Int} {s : Bytes}

theorem wellFormed_moveGap (h : g.WellFormed) (hp : 1 ≤ p ∧ p ≤ g.endPos) :
    (g.moveGap p).value.WellFormed := by
  unfold moveGap
  split
  · exact h
  · exact wellFormed_guarded (inShape_relocate h.toInShape (by unfold endPos at hp; omega))

theorem contents_moveGap (h : g.WellFormed) (hp : 1 ≤ p ∧ p ≤ g.endPos) :
    (g.moveGap p).value.contents = g.contents := by
  unfold moveGap
  split
  · rfl
  · have ht : ((p - 1).toNat : Int) ≤ g.length := by
      unfold endPos at hp
      omega
    calc (g.relocate (p - 1).toNat).guarded.contents
        = (g.relocate (p - 1).toNat).contents :=
          contents_guarded (inShape_relocate h.toInShape ht)
      _ = g.contents := contents_relocate h.toInShape ht

theorem gapStart_moveGap (hp₁ : 1 ≤ p) : (g.moveGap p).value.gapStart = (p - 1).toNat := by
  unfold moveGap gapPos
  split
  · rename_i hp
    show g.gapStart = _
    omega
  · rfl

@[simp] theorem length_moveGap (g : GapBuffer) (p : Int) :
    (g.moveGap p).value.length = g.length := by
  unfold moveGap
  split <;> rfl

end Move

section Grow

variable {n : Int}

theorem wellFormed_growGap (h : g.WellFormed) (n : Int) : (g.growGap n).value.WellFormed := by
  unfold growGap
  split
  · exact h
  · exact wellFormed_guarded (inShape_enlarge h.toInShape _)

theorem contents_growGap (h : g.WellFormed) (n : Int) :
    (g.growGap n).value.contents = g.contents := by
  unfold growGap
  split
  · rfl
  · calc (g.enlarge n.toNat).guarded.contents
        = (g.enlarge n.toNat).contents := contents_guarded (inShape_enlarge h.toInShape _)
      _ = g.contents := contents_enlarge h.toInShape _

@[simp] theorem gapStart_growGap (g : GapBuffer) (n : Int) :
    (g.growGap n).value.gapStart = g.gapStart := by
  unfold growGap
  split <;> rfl

theorem gapSize_growGap (g : GapBuffer) (n : Int) :
    (g.growGap n).value.gapSize = g.gapSize + n.toNat := by
  unfold growGap
  split
  · rename_i hn
    show g.gapSize = _
    omega
  · rfl

theorem wellFormed_ensureGap (h : g.WellFormed) (n : Int) :
    (g.ensureGap n).value.WellFormed := by
  unfold ensureGap
  split
  · exact h
  · exact wellFormed_growGap h _

theorem contents_ensureGap (h : g.WellFormed) (n : Int) :
    (g.ensureGap n).value.contents = g.contents := by
  unfold ensureGap
  split
  · rfl
  · exact contents_growGap h _

@[simp] theorem gapStart_ensureGap (g : GapBuffer) (n : Int) :
    (g.ensureGap n).value.gapStart = g.gapStart := by
  unfold ensureGap
  split
  · rfl
  · exact gapStart_growGap g _

/-- The room that was asked for, with a byte to spare for the guard. -/
theorem lt_gapSize_ensureGap (g : GapBuffer) (n : Int) : n < (g.ensureGap n).value.gapSize := by
  unfold ensureGap
  split
  · assumption
  · rw [gapSize_growGap]
    unfold spareBytes
    omega

end Grow

section Edit

variable {p lo hi : Int} {s : Bytes}

theorem wellFormed_insert (h : g.WellFormed) (hp : 1 ≤ p ∧ p ≤ g.endPos) :
    (g.insert p s).value.WellFormed := by
  unfold insert
  split
  · exact h
  · have hmoved := wellFormed_moveGap h hp
    have hroom := lt_gapSize_ensureGap (g.moveGap p).value s.length
    exact wellFormed_guarded
      (inShape_fill (wellFormed_ensureGap hmoved _).toInShape (by omega))

theorem contents_insert (h : g.WellFormed) (hp : 1 ≤ p ∧ p ≤ g.endPos) :
    (g.insert p s).value.contents =
      g.contents.take (p - 1).toNat ++ s ++ g.contents.drop (p - 1).toNat := by
  unfold insert
  split
  · rename_i hs
    rw [List.isEmpty_iff.mp hs, List.append_nil, List.take_append_drop]
    rfl
  -- neither the move nor the growth changes the text, so the split is that of the old one
  · have hmoved := wellFormed_moveGap h hp
    have hready := (wellFormed_ensureGap hmoved s.length).toInShape
    have hroom := lt_gapSize_ensureGap (g.moveGap p).value s.length
    show (guarded (((g.moveGap p).value.ensureGap s.length).value.fill s)).contents = _
    rw [contents_guarded (inShape_fill hready (by omega)), contents_fill hready (by omega),
      contents_ensureGap hmoved, contents_moveGap h hp, gapStart_ensureGap, gapStart_moveGap hp.1]

theorem gapStart_insert (hs : s ≠ []) (hp : 1 ≤ p) :
    (g.insert p s).value.gapStart = (p - 1).toNat + s.length := by
  unfold insert
  rw [if_neg (by simpa using hs)]
  show ((g.moveGap p).value.ensureGap s.length).value.gapStart + s.length = _
  rw [gapStart_ensureGap, gapStart_moveGap hp]

theorem wellFormed_delete (h : g.WellFormed) (hlo : 1 ≤ lo) (hhi : hi ≤ g.endPos) :
    (g.delete lo hi).value.WellFormed := by
  unfold delete
  split
  · exact h
  · have hmoved := wellFormed_moveGap h (p := lo) ⟨hlo, by omega⟩
    apply wellFormed_guarded
    apply inShape_swallow hmoved.toInShape
    rw [gapStart_moveGap hlo, length_moveGap]
    unfold endPos at hhi
    omega

theorem contents_delete (h : g.WellFormed) (hlo : 1 ≤ lo) (hhi : hi ≤ g.endPos) :
    (g.delete lo hi).value.contents =
      if hi ≤ lo then g.contents
      else g.contents.take (lo - 1).toNat ++ g.contents.drop (hi - 1).toNat := by
  unfold delete
  split
  · rfl
  · rename_i hlt
    have hplace : 1 ≤ lo ∧ lo ≤ g.endPos := ⟨hlo, by omega⟩
    have hfits : ((g.moveGap lo).value.gapStart : Int) + (hi - lo).toNat
        ≤ (g.moveGap lo).value.length := by
      rw [gapStart_moveGap hlo, length_moveGap]
      unfold endPos at hhi
      omega
    have hmoved := (wellFormed_moveGap h hplace).toInShape
    show (guarded ((g.moveGap lo).value.swallow (hi - lo).toNat)).contents = _
    rw [contents_guarded (inShape_swallow hmoved hfits), contents_swallow hfits,
      contents_moveGap h hplace, gapStart_moveGap hlo,
      show (lo - 1).toNat + (hi - lo).toNat = (hi - 1).toNat by omega]

theorem gapStart_delete (h : lo < hi) (hlo : 1 ≤ lo) :
    (g.delete lo hi).value.gapStart = (lo - 1).toNat := by
  unfold delete
  rw [if_neg (Int.not_le.mpr h)]
  show (g.moveGap lo).value.gapStart = _
  rw [gapStart_moveGap hlo]

end Edit

/-! ## Runs -/

/-- The gap buffer after a command. -/
def after (g : GapBuffer) (c : Command) : GapBuffer := (g.run c).value

/-- What callers promise: the places that they name are places of the text. -/
def Admissible (g : GapBuffer) : Command → Prop
  | .insert p _ | .move p => 1 ≤ p ∧ p ≤ g.endPos
  | .delete lo hi => 1 ≤ lo ∧ hi ≤ g.endPos
  | .clear | .load _ | .ensure _ | .grow _ => True

instance (g : GapBuffer) : ∀ c : Command, Decidable (g.Admissible c)
  | .insert p _ | .move p => inferInstanceAs (Decidable (1 ≤ p ∧ p ≤ g.endPos))
  | .delete lo hi => inferInstanceAs (Decidable (1 ≤ lo ∧ hi ≤ g.endPos))
  | .clear | .load _ | .ensure _ | .grow _ => .isTrue trivial

/-- What a command does to a plain list of bytes. -/
def Command.onText (t : Bytes) : Command → Bytes
  | .clear => []
  | .load s => s
  | .insert p s => t.take (p - 1).toNat ++ s ++ t.drop (p - 1).toNat
  | .delete lo hi => if hi ≤ lo then t else t.take (lo - 1).toNat ++ t.drop (hi - 1).toNat
  | .move _ | .ensure _ | .grow _ => t

theorem wellFormed_after {c : Command} (h : g.WellFormed) (hc : g.Admissible c) :
    (g.after c).WellFormed := by
  cases c with
  | clear => exact wellFormed_ofList []
  | load s => exact wellFormed_ofList s
  | insert p s => exact wellFormed_insert h hc
  | delete lo hi => exact wellFormed_delete h hc.1 hc.2
  | move p => exact wellFormed_moveGap h hc
  | ensure n => exact wellFormed_ensureGap h n
  | grow n => exact wellFormed_growGap h n

theorem contents_after {c : Command} (h : g.WellFormed) (hc : g.Admissible c) :
    (g.after c).contents = c.onText g.contents := by
  cases c with
  | clear => exact contents_ofList []
  | load s => exact contents_ofList s
  | insert p s => exact contents_insert h hc
  | delete lo hi => exact contents_delete h hc.1 hc.2
  | move p => exact contents_moveGap h hc
  | ensure n => exact contents_ensureGap h n
  | grow n => exact contents_growGap h n

theorem wellFormed_run {cs : List Command} (h : Along after Admissible empty cs) :
    (cs.foldl after empty).WellFormed :=
  Along.invariant (I := WellFormed) (fun _ _ hg hc => wellFormed_after hg hc) cs
    (wellFormed_ofList []) h

/-- **A gap buffer is a list of bytes.** After any run from the empty text, the bytes read around
the gap are those that a plain list would hold: bytes are put in and taken out where they are said
to be, and neither a move of the gap nor its growth changes any. -/
theorem contents_run (cs : List Command) (h : Along after Admissible empty cs) :
    (cs.foldl after empty).contents = cs.foldl Command.onText [] := by
  have hstep : ∀ (g : GapBuffer) (t : Bytes) (c : Command),
      g.WellFormed ∧ g.contents = t → g.Admissible c →
        (g.after c).WellFormed ∧ (g.after c).contents = c.onText t := by
    rintro g t c ⟨hwf, rfl⟩ hc
    exact ⟨wellFormed_after hwf hc, contents_after hwf hc⟩
  have hstart : empty.WellFormed ∧ empty.contents = [] :=
    ⟨wellFormed_ofList [], contents_ofList []⟩
  exact (Along.simulation (R := fun g t => g.WellFormed ∧ g.contents = t) hstep cs hstart h).2

/-- The gap is moved over more bytes than it has, in both directions, and made to grow in the middle
of the text. -/
theorem contents_run_over_short_gap :
    let cs : List Command :=
      [.load [1, 2, 3, 4, 5, 6], .insert 3 (List.replicate 1999 7), .move 1, .move 2006,
        .delete 3 2002, .move 2, .grow 1, .insert 7 [8, 9], .ensure 9000, .delete 5 5]
    Along after Admissible empty cs ∧
      (cs.foldl after empty).contents = [1, 2, 3, 4, 5, 6, 8, 9] := by
  intro cs
  have hcs : Along after Admissible empty cs := by decide +kernel
  exact ⟨hcs, (contents_run cs hcs).trans (by decide +kernel)⟩

end GapText.GapBuffer
