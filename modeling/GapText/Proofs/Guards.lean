import GapText.Proofs.Boundaries
import GapText.Proofs.Canonical

/-!
# Reading up to a guard

A character is read from the array at an address, with no length to go by but the one that its
first byte claims. So what is read may be cut short by the gap or by the end of the text, and the
text may be no string of forms at all. What keeps the reader in the text is the zero at the end of
each piece: a zero is a head, and the reader stops at the first head behind its own.

The reader is told here with a record of its reads (`Code.tracedDecode`). On a memory that holds
some bytes and a zero behind them, it reads the character at their start, and nothing behind the
zero (`Code.Holds.decode_eq`). From every position of a gap buffer on, the array holds the rest of
the piece with a guard behind it (`GapBuffer.WellFormed.holds`).
-/

namespace GapText

namespace Code

/-! ## The reader -/

/-- A byte of a memory, with the place it was read at. -/
def readAt (m : Nat → UInt8) (k : Nat) : Traced UInt8 := ⟨m k, [(k : Int)]⟩

/-- Looks for a head among `n` bytes, up to the first. -/
def tracedHead? (m : Nat → UInt8) : Nat → Nat → Traced Bool
  | _, 0 => return false
  | k, n + 1 => do if isHead (← readAt m k) then return true else tracedHead? m (k + 1) n

def tracedBytes (m : Nat → UInt8) : Nat → Nat → Traced Bytes
  | _, 0 => return []
  | k, n + 1 => return (← readAt m k) :: (← tracedBytes m (k + 1) n)

/-- The character at a place. Its trails are looked at twice: first whether they are there, and only
then for their bits. -/
def tracedDecode (m : Nat → UInt8) (k : Nat) : Traced Decoded := do
  let b ← readAt m k
  let n := if isHead b then headLength b else 1
  if n = 1 then return ⟨b.toNat, 1⟩
  else if ← tracedHead? m (k + 1) (n - 1) then return ⟨b.toNat, 1⟩
  else return ⟨assemble n b (← tracedBytes m (k + 1) (n - 1)), n⟩

theorem tracedHead?_succ (m : Nat → UInt8) (k n : Nat) :
    tracedHead? m k (n + 1) =
      if isHead (m k) then ⟨true, [(k : Int)]⟩
      else ⟨(tracedHead? m (k + 1) n).value, k :: (tracedHead? m (k + 1) n).reads⟩ := by
  rw [tracedHead?]
  show Traced.mk (if isHead (m k) then pure true else (_ : Traced Bool)).value
    ([(k : Int)] ++ (if isHead (m k) then pure true else (_ : Traced Bool)).reads) = _
  split <;> rfl

theorem tracedBytes_succ (m : Nat → UInt8) (k n : Nat) :
    tracedBytes m k (n + 1) =
      ⟨m k :: (tracedBytes m (k + 1) n).value, k :: (tracedBytes m (k + 1) n).reads⟩ := by
  rw [tracedBytes]
  show Traced.mk _ ([(k : Int)] ++ ((tracedBytes m (k + 1) n).reads ++ [])) = _
  rw [List.append_nil]
  rfl

theorem tracedDecode_eq (m : Nat → UInt8) (k : Nat) :
    tracedDecode m k =
      let n := if isHead (m k) then headLength (m k) else 1
      let found := tracedHead? m (k + 1) (n - 1)
      let tail := tracedBytes m (k + 1) (n - 1)
      if n = 1 then ⟨⟨(m k).toNat, 1⟩, [(k : Int)]⟩
      else if found.value then ⟨⟨(m k).toNat, 1⟩, k :: found.reads⟩
      else ⟨⟨assemble n (m k) tail.value, n⟩, k :: (found.reads ++ tail.reads)⟩ := by
  extract_lets n found tail
  unfold tracedDecode
  show Traced.mk (if n = 1 then pure ⟨(m k).toNat, 1⟩ else (_ : Traced Decoded)).value
    ([(k : Int)] ++ (if n = 1 then pure ⟨(m k).toNat, 1⟩ else (_ : Traced Decoded)).reads) = _
  split
  · rfl
  · show Traced.mk (if found.value then pure ⟨(m k).toNat, 1⟩ else (_ : Traced Decoded)).value
      ([(k : Int)] ++ (found.reads ++
        (if found.value then pure ⟨(m k).toNat, 1⟩ else (_ : Traced Decoded)).reads)) = _
    split
    · rw [Traced.reads_pure, List.append_nil]
      rfl
    · show Traced.mk _ ([(k : Int)] ++ (found.reads ++ (tail.reads ++ []))) = _
      rw [List.append_nil]
      rfl

/-! ## A zero behind the bytes -/

/-- From a place on, the memory holds these bytes and a zero behind them. -/
def Holds (m : Nat → UInt8) (k : Nat) (s : Bytes) : Prop := ∀ i ≤ s.length, m (k + i) = s.getD i 0

variable {m : Nat → UInt8} {k n : Nat} {b : UInt8} {s : Bytes}

theorem Holds.head (h : Holds m k s) : m k = s.headD 0 := by
  have hfirst := h 0 (Nat.zero_le _)
  cases s <;> exact hfirst

theorem Holds.tail (h : Holds m k (b :: s)) : Holds m (k + 1) s := by
  intro i hi
  rw [Nat.add_assoc, Nat.add_comm 1 i]
  exact h (i + 1) (Nat.succ_le_succ hi)

/-- The search for a head ends at the zero, if not before. -/
theorem Holds.search_eq (h : Holds m k s) (n : Nat) :
    (tracedHead? m k n).value = (decide (s.length < n) || (s.take n).any isHead) ∧
      ∀ r ∈ (tracedHead? m k n).reads, (k : Int) ≤ r ∧ r ≤ k + s.length := by
  induction n generalizing k s with
  | zero => exact ⟨by simp [tracedHead?], fun r hr => absurd hr List.not_mem_nil⟩
  | succ n ih =>
      rw [tracedHead?_succ, h.head]
      cases s with
      | nil => exact ⟨by simp [isHead], by simp [isHead]⟩
      | cons b s =>
          rw [List.headD_cons]
          obtain ⟨hvalue, hreads⟩ := ih h.tail
          split
          case isTrue hb => exact ⟨by simp [hb], by simp; omega⟩
          case isFalse hb =>
            refine ⟨by simp [hvalue, hb], fun r hr => ?_⟩
            rw [List.length_cons]
            rcases List.mem_cons.mp hr with rfl | hr
            · omega
            · have hr := hreads r hr
              omega

theorem Holds.bytes_eq (h : Holds m k s) (hn : n ≤ s.length) :
    (tracedBytes m k n).value = s.take n ∧
      ∀ r ∈ (tracedBytes m k n).reads, (k : Int) ≤ r ∧ r < k + n := by
  induction n generalizing k s with
  | zero => exact ⟨rfl, fun r hr => absurd hr List.not_mem_nil⟩
  | succ n ih =>
      cases s with
      | nil => exact absurd hn (Nat.not_succ_le_zero n)
      | cons b s =>
          obtain ⟨hvalue, hreads⟩ := ih h.tail (Nat.le_of_succ_le_succ hn)
          rw [tracedBytes_succ, h.head]
          refine ⟨congrArg (b :: ·) hvalue, fun r hr => ?_⟩
          rcases List.mem_cons.mp hr with rfl | hr
          · omega
          · have hr := hreads r hr
            omega

/-- **The reader stops at a zero.** What it gives is told by the bytes before the zero. -/
theorem Holds.decode_eq (h : Holds m k s) :
    (tracedDecode m k).value = decode s ∧
      ∀ r ∈ (tracedDecode m k).reads, (k : Int) ≤ r ∧ r ≤ k + s.length := by
  rw [tracedDecode_eq, h.head]
  cases s with
  | nil => exact ⟨rfl, by simp [isHead, headLength]⟩
  | cons b s =>
      rw [List.headD_cons, decode, List.length_cons]
      dsimp only
      generalize (if isHead b = true then headLength b else 1) = n
      obtain ⟨hfound, hsearch⟩ := h.tail.search_eq (n - 1)
      have hwhole : (tracedHead? m (k + 1) (n - 1)).value = true ↔
          (s.take (n - 1)).length < n - 1 ∨ (s.take (n - 1)).any isHead = true := by
        rw [hfound, Bool.or_eq_true, decide_eq_true_eq, List.length_take]
        exact or_congr_left (by omega)
      by_cases hone : n = 1
      · rw [if_pos hone, if_pos (Or.inl hone)]
        exact ⟨rfl, by simp; omega⟩
      by_cases hcut : (tracedHead? m (k + 1) (n - 1)).value = true
      · rw [if_neg hone, if_pos hcut, if_pos (Or.inr (hwhole.mp hcut))]
        refine ⟨rfl, fun r hr => ?_⟩
        rcases List.mem_cons.mp hr with rfl | hr
        · omega
        · have hr := hsearch r hr
          omega
      · -- the search has passed over as many trails as are read then
        have hnone := mt hwhole.mpr hcut
        have hfull : n - 1 ≤ s.length := by
          rw [not_or, List.length_take] at hnone
          omega
        obtain ⟨hread, hwithin⟩ := h.tail.bytes_eq hfull
        rw [if_neg hone, if_neg hcut, if_neg (not_or.mpr ⟨hone, hnone⟩), hread]
        refine ⟨rfl, fun r hr => ?_⟩
        rcases List.mem_cons.mp hr with rfl | hr
        · omega
        rcases List.mem_append.mp hr with hr | hr
        · have hr := hsearch r hr
          omega
        · have hr := hwithin r hr
          omega

theorem holds_append_zero (s t : Bytes) : Holds (fun i => (s ++ 0 :: t).getD i 0) 0 s := by
  intro i hi
  simp only [Nat.zero_add, List.getD_eq_getElem?_getD]
  rcases Nat.lt_or_eq_of_le hi with hlt | rfl
  · rw [List.getElem?_append_left hlt]
  · simp

/-- Whatever lies behind a zero, and the zero itself, make no difference. -/
theorem decode_append_zero (s t : Bytes) : decode (s ++ 0 :: t) = decode s := by
  have hall : Holds (fun i => (s ++ 0 :: t).getD i 0) 0 (s ++ 0 :: t) := fun i _ => by
    rw [Nat.zero_add]
  rw [← hall.decode_eq.1, (holds_append_zero s t).decode_eq.1]

/-- No form is longer, so nothing behind its bytes is looked at. -/
theorem decode_take (s : Bytes) : decode (s.take Buffer.maxForm) = decode s := by
  cases s with
  | nil => rfl
  | cons b s =>
      have hn : (if isHead b then headLength b else 1) - 1 ≤ 4 := by
        rcases headLength_cases b with h | h | h | h | h <;> split <;> omega
      show decode (b :: s.take 4) = decode (b :: s)
      simp only [decode, List.take_take, Nat.min_eq_left hn]

end Code

/-! ## The pieces of a gap buffer -/

namespace GapBuffer

variable {g g' : GapBuffer} {p : Int}

/-- Where the piece that a position lies in ends. -/
def pieceEnd (g : GapBuffer) (p : Int) : Int := if p < g.gapPos then g.gapPos else g.endPos

/-- Where the guard of the piece lies in the array. -/
def guardOffset (g : GapBuffer) (p : Int) : Nat :=
  if p < g.gapPos then g.gapStart else g.storage.size - 1

/-- The text from a position on to the end of its piece. -/
def restOfPiece (g : GapBuffer) (p : Int) : Bytes := g.slice p (g.pieceEnd p)

theorem length_restOfPiece (g : GapBuffer) (p : Int) :
    (g.restOfPiece p).length = (g.pieceEnd p - p).toNat := by
  simp [restOfPiece, slice]

/-- The rest of a piece lies in the array as it stands in the text. -/
theorem offset_add (h₁ : 1 ≤ p) {i : Nat} (hi : p + i < g.pieceEnd p) :
    g.offset (p + i) = g.offset p + i := by
  unfold pieceEnd at hi
  unfold offset shift
  split at hi <;> split <;> split <;> omega

theorem InShape.offset_add_length (h : g.InShape) (h₁ : 1 ≤ p) (h₂ : p ≤ g.endPos) :
    g.offset p + (g.restOfPiece p).length = g.guardOffset p := by
  have hsize := h.size_eq
  rw [length_restOfPiece]
  unfold pieceEnd guardOffset offset shift
  unfold endPos gapPos at *
  split <;> split <;> omega

theorem WellFormed.rawByte_guardOffset (h : g.WellFormed) (p : Int) :
    g.rawByte (g.guardOffset p) = 0 := by
  unfold guardOffset
  split
  · exact h.gap_guard
  · exact h.last_guard

/-- Up to the guard of a piece there is nothing but the array, and of the gap only this guard. -/
theorem InShape.within_guard (h : g.InShape) (h₁ : 1 ≤ p) (h₂ : p ≤ g.endPos) {r : Int}
    (hfirst : g.offset p ≤ r) (hlast : r ≤ g.guardOffset p) :
    r < g.storage.size ∧
      (g.gapStart ≤ r → r < g.gapStart + g.gapSize → r = g.gapStart) := by
  have hle := h.gap_le
  have hpos := h.gap_pos
  have hsize := h.size_eq
  unfold guardOffset offset shift at *
  unfold endPos gapPos at *
  split at hlast <;> split at hfirst <;> omega

/-- Behind the rest of a piece there is its guard. -/
theorem WellFormed.holds (h : g.WellFormed) (h₁ : 1 ≤ p) (h₂ : p ≤ g.endPos) :
    Code.Holds g.rawByte (g.offset p) (g.restOfPiece p) := by
  intro i hi
  rcases Nat.lt_or_eq_of_le hi with hlt | rfl
  · have hplace := hlt
    rw [length_restOfPiece] at hplace
    rw [← offset_add h₁ (i := i) (by omega), List.getD_eq_getElem?_getD,
      List.getElem?_eq_getElem hlt]
    simp [restOfPiece, slice, byteAt]
  · rw [h.offset_add_length h₁ h₂, h.rawByte_guardOffset, List.getD_eq_getElem?_getD,
      List.getElem?_eq_none (Nat.le_refl _), Option.getD_none]

/-- The array itself, with the zeros that are taken to be behind it. -/
theorem holds_array (g : GapBuffer) (k : Nat) :
    Code.Holds g.rawByte k (g.storage.toList.drop k) := by
  intro i _
  simp [rawByte, Array.getD_eq_getD_getElem?, List.getD_eq_getElem?_getD]

/-- What is left of a piece is told by the text and the place of the gap. -/
theorem InShape.restOfPiece_eq (h : g.InShape) (h₁ : 1 ≤ p) :
    g.restOfPiece p =
      (g.contents.take (g.pieceEnd p - 1).toNat).drop (p - 1).toNat := by
  have hle := h.gap_le
  have hend : g.pieceEnd p ≤ g.endPos := by
    unfold pieceEnd gapPos endPos
    split <;> omega
  unfold endPos at hend
  apply List.ext_getElem
  · rw [length_restOfPiece, List.length_drop, List.length_take, length_contents]
    omega
  · intro i hi _
    rw [length_restOfPiece] at hi
    rw [List.getElem_drop, List.getElem_take, getElem_contents, ← byteAt_eq]
    simp only [restOfPiece, slice, List.getElem_map, List.getElem_range]
    congr 1
    omega

end GapBuffer

namespace Buffer

variable {b : Buffer} {p : Int}

/-- The character at a place of a multibyte text. -/
def tracedDecodeAt (b : Buffer) (p : Int) : Traced Int := do
  return (← Code.tracedDecode b.text.rawByte (b.text.offset p)).code

theorem value_tracedDecodeAt (b : Buffer) (p : Int) :
    (b.tracedDecodeAt p).value = b.decodeAt p := by
  have hbytes : b.text.bytesFrom p maxForm =
      (b.text.storage.toList.drop (b.text.offset p)).take maxForm := by
    simp [GapBuffer.bytesFrom]
  show (Code.tracedDecode b.text.rawByte (b.text.offset p)).value.code = _
  rw [decodeAt, hbytes, Code.decode_take, (b.text.holds_array _).decode_eq.1]

theorem reads_tracedDecodeAt (b : Buffer) (p : Int) :
    (b.tracedDecodeAt p).reads = (Code.tracedDecode b.text.rawByte (b.text.offset p)).reads :=
  List.append_nil _

theorem decodeAt_eq (h : b.text.WellFormed) (h₁ : 1 ≤ p) (h₂ : p ≤ b.text.endPos) :
    b.decodeAt p = (Code.decode (b.text.restOfPiece p)).code := by
  rw [← value_tracedDecodeAt, ← (h.holds h₁ h₂).decode_eq.1]
  rfl

/-- **A decode stays in its piece.** Whatever bytes the text has, a decode from any of its positions
reads the rest of the piece and the guard behind it, and no other byte of the array. So its
character is that of the rest of the piece with a zero behind it, and depends on the text and the
place of the gap only, not on what else is in the gap or on how large it is. -/
theorem decodeAt_within_piece (b : Buffer) (h : b.text.WellFormed) {p : Int} (h₁ : 1 ≤ p)
    (h₂ : p ≤ b.text.endPos) :
    (b.tracedDecodeAt p).value = b.decodeAt p ∧
      (∀ r ∈ (b.tracedDecodeAt p).reads,
        b.text.offset p ≤ r ∧ r ≤ b.text.guardOffset p ∧ r < b.text.storage.size ∧
          (b.text.gapStart ≤ r → r < b.text.gapStart + b.text.gapSize → r = b.text.gapStart)) ∧
      (∀ t, b.decodeAt p = (Code.decode (b.text.restOfPiece p ++ 0 :: t)).code) ∧
      ∀ b' : Buffer, b'.text.WellFormed → b'.text.contents = b.text.contents →
        b'.text.gapPos = b.text.gapPos → b'.decodeAt p = b.decodeAt p := by
  refine ⟨b.value_tracedDecodeAt p, fun r hr => ?_, fun t => ?_, fun b' h' hcontents hgap => ?_⟩
  · rw [reads_tracedDecodeAt] at hr
    obtain ⟨hfirst, hlast⟩ := (h.holds h₁ h₂).decode_eq.2 r hr
    have hguard := h.offset_add_length h₁ h₂
    have hlast : r ≤ b.text.guardOffset p := by omega
    exact ⟨hfirst, hlast, h.within_guard h₁ h₂ hfirst hlast⟩
  · rw [decodeAt_eq h h₁ h₂, Code.decode_append_zero]
  · have hlen := congrArg List.length hcontents
    rw [GapBuffer.length_contents, GapBuffer.length_contents] at hlen
    have hle := h.gap_le
    have hle' := h'.gap_le
    have hend : b'.text.endPos = b.text.endPos := by
      unfold GapBuffer.endPos
      omega
    have hrest : b'.text.restOfPiece p = b.text.restOfPiece p := by
      rw [h'.restOfPiece_eq h₁, h.restOfPiece_eq h₁, hcontents, GapBuffer.pieceEnd,
        GapBuffer.pieceEnd, hgap, hend]
    rw [decodeAt_eq h' h₁ (hend ▸ h₂), decodeAt_eq h h₁ h₂, hrest]

/-- A form that is cut by the gap, with the byte that it lacks both in the gap, behind the guard,
and in the text behind the gap. The same is read at a larger gap with other bytes in it. -/
theorem decodeAt_within_piece_cut :
    let g : GapBuffer := ⟨#[0x61, 0xE3, 0x81, 0x00, 0x82, 0x82, 0x42, 0x00], 3, 2, 5⟩
    let g' : GapBuffer := ⟨#[0x61, 0xE3, 0x81, 0x00, 0x82, 0x9F, 0x80, 0x82, 0x42, 0x00], 3, 4, 5⟩
    let b : Buffer := { text := g }
    let b' : Buffer := { text := g' }
    (g.WellFormed ∧ g'.WellFormed ∧ g.contents = [0x61, 0xE3, 0x81, 0x82, 0x42]) ∧
      (b.tracedDecodeAt 2).value = 0xE3 ∧ (b.tracedDecodeAt 2).reads = [1, 2, 3] ∧
      (∀ r ∈ (b.tracedDecodeAt 2).reads, r ≤ (3 : Nat)) ∧
      b.decodeAt 2 = (Code.decode ([0xE3, 0x81] ++ 0 :: [0x82])).code ∧
      b'.decodeAt 2 = b.decodeAt 2 := by
  intro g g' b b'
  have hg : g.WellFormed := ⟨⟨by decide, by decide, by decide⟩, by decide, by decide⟩
  have hg' : g'.WellFormed := ⟨⟨by decide, by decide, by decide⟩, by decide, by decide⟩
  obtain ⟨hvalue, hreads, hcode, hsame⟩ :=
    decodeAt_within_piece b hg (p := 2) (by decide) (by decide)
  exact ⟨⟨hg, hg', by decide⟩, hvalue.trans (by decide), by decide, fun r hr => (hreads r hr).2.1,
    hcode [0x82], hsame b' hg' (by decide) rfl⟩

end Buffer

end GapText
