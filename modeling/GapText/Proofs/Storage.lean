import GapText.Gap

/-!
# Copying in an array of bytes

What each of the three copying loops leaves at every offset. The two that copy within one array are
right although the stretches may overlap, because of the order in which the bytes go: on the way
down no byte is written before it was read if the first goes first, on the way up if the last does.

Reads are total here, with zeros outside the array; that no loop of the gap buffer ever reads or
writes there is the subject of `GapText.Proofs.GapBounds`.
-/

namespace GapText.GapBuffer

variable {source a : Array UInt8} {i j n : Nat}

/-- A byte after one byte was written; a write outside the array does nothing. -/
theorem getD_setIfInBounds (a : Array UInt8) (j k : Nat) (b : UInt8) :
    (a.setIfInBounds j b).getD k 0 = if j = k ∧ j < a.size then b else a.getD k 0 := by
  rw [Array.getD_eq_getD_getElem?, Array.getElem?_setIfInBounds, Array.getD_eq_getD_getElem?]
  rcases Nat.lt_or_ge j a.size with hj | hj
  · simp only [hj, and_true, if_true]
    split <;> rfl
  · rw [if_neg (c := j = k ∧ j < a.size) (by omega)]
    split
    · rename_i hjk
      rw [if_neg (by omega), Array.getElem?_eq_none (by omega)]
    · rfl

@[simp] theorem getD_replicate_zero (m k : Nat) :
    (Array.replicate m (0 : UInt8)).getD k 0 = 0 := by
  rw [Array.getD_eq_getD_getElem?, Array.getElem?_replicate]
  split <;> rfl

/-- Of two arrays of one size that agree at every offset, each is the other. -/
theorem eq_of_getD {a b : Array UInt8} (hsize : a.size = b.size)
    (hget : ∀ k, a.getD k 0 = b.getD k 0) : a = b := by
  apply Array.ext hsize
  intro k hk hk'
  have hsame := hget k
  rwa [Array.getD_eq_getD_getElem?, Array.getElem?_eq_getElem hk, Array.getD_eq_getD_getElem?,
    Array.getElem?_eq_getElem hk'] at hsame

@[simp] theorem size_copyInto (source : Array UInt8) :
    ∀ (n i j : Nat) (a : Array UInt8), (copyInto source i a j n).size = a.size
  | 0, _, _, _ => rfl
  | n + 1, i, j, a => by rw [copyInto, size_copyInto source n, Array.size_setIfInBounds]

@[simp] theorem size_copyDown :
    ∀ (n i j : Nat) (a : Array UInt8), (copyDown a i j n).size = a.size
  | 0, _, _, _ => rfl
  | n + 1, i, j, a => by rw [copyDown, size_copyDown n, Array.size_setIfInBounds]

@[simp] theorem size_copyUp :
    ∀ (n i j : Nat) (a : Array UInt8), (copyUp a i j n).size = a.size
  | 0, _, _, _ => rfl
  | n + 1, i, j, a => by rw [copyUp, size_copyUp n, Array.size_setIfInBounds]

theorem getD_copyInto (hj : j + n ≤ a.size) (k : Nat) :
    (copyInto source i a j n).getD k 0 =
      if j ≤ k ∧ k < j + n then source.getD (i + (k - j)) 0 else a.getD k 0 := by
  induction n generalizing i j a with
  | zero =>
      rw [copyInto, if_neg (by omega)]
  | succ n ih =>
      rw [copyInto, ih (by rw [Array.size_setIfInBounds]; omega), getD_setIfInBounds]
      by_cases hk : k = j
      · subst hk
        rw [if_neg (by omega), if_pos (by omega), if_pos (by omega), Nat.sub_self, Nat.add_zero]
      · by_cases hin : j + 1 ≤ k ∧ k < j + 1 + n
        · rw [if_pos hin, if_pos (by omega), show i + 1 + (k - (j + 1)) = i + (k - j) by omega]
        · rw [if_neg hin, if_neg (by omega), if_neg (by omega)]

/-- Copying down, first byte first: what arrives is what was there, even where the stretches
overlap. -/
theorem getD_copyDown (hji : j ≤ i) (hj : j + n ≤ a.size) (k : Nat) :
    (copyDown a i j n).getD k 0 =
      if j ≤ k ∧ k < j + n then a.getD (i + (k - j)) 0 else a.getD k 0 := by
  induction n generalizing i j a with
  | zero =>
      rw [copyDown, if_neg (by omega)]
  | succ n ih =>
      rw [copyDown, ih (by omega) (by rw [Array.size_setIfInBounds]; omega)]
      -- the byte written last lies below everything that is still to be read
      simp only [getD_setIfInBounds]
      by_cases hk : k = j
      · subst hk
        rw [if_neg (by omega), if_pos (by omega), if_pos (by omega), Nat.sub_self, Nat.add_zero]
      · by_cases hin : j + 1 ≤ k ∧ k < j + 1 + n
        · rw [if_pos hin, if_neg (by omega), if_pos (by omega),
            show i + 1 + (k - (j + 1)) = i + (k - j) by omega]
        · rw [if_neg hin, if_neg (by omega), if_neg (by omega)]

/-- Copying up, last byte first: what arrives is what was there, even where the stretches
overlap. -/
theorem getD_copyUp (hij : i ≤ j) (hn : n ≤ i) (hj : j ≤ a.size) (k : Nat) :
    (copyUp a i j n).getD k 0 =
      if j ≤ k + n ∧ k < j then a.getD (k + i - j) 0 else a.getD k 0 := by
  induction n generalizing i j a with
  | zero =>
      rw [copyUp, if_neg (by omega)]
  | succ n ih =>
      rw [copyUp, ih (by omega) (by omega) (by rw [Array.size_setIfInBounds]; omega)]
      -- the byte written last lies above everything that is still to be read
      simp only [getD_setIfInBounds]
      by_cases hk : k = j - 1
      · subst hk
        rw [if_neg (by omega), if_pos (by omega), if_pos (by omega),
          show j - 1 + i - j = i - 1 by omega]
      · by_cases hin : j - 1 ≤ k + n ∧ k < j - 1
        · rw [if_pos hin, if_neg (by omega), if_pos (by omega),
            show k + (i - 1) - (j - 1) = k + i - j by omega]
        · rw [if_neg hin, if_neg (by omega), if_neg (by omega)]

end GapText.GapBuffer
