import GapText.Proofs.Gap

/-!
# The gap buffer stays inside its array

The array operations of `GapText.Gap` are total: a read outside the array gives a zero, and a write
there does nothing. This module runs the same commands on a machine that stops instead (`run?`): it
goes through the loops index by index, counts with the distances that the positions give, and has no
result as soon as one index is outside the array that it is used on. On a well-formed gap buffer it
always has a result, and that result is the one of the total machine.
-/

namespace GapText.GapBuffer

/-! ## The machine that stops -/

/-- Writes a byte, if the array has a place for it. -/
def write? (a : Array UInt8) (j : Nat) (b : UInt8) : Option (Array UInt8) :=
  if j < a.size then some (a.setIfInBounds j b) else none

def copyInto? (source : Array UInt8) (i : Nat) (a : Array UInt8) (j : Nat) :
    Nat → Option (Array UInt8)
  | 0 => some a
  | n + 1 => do
      let a ← write? a j (← source[i]?)
      copyInto? source (i + 1) a (j + 1) n

def copyDown? (a : Array UInt8) (i j : Nat) : Nat → Option (Array UInt8)
  | 0 => some a
  | n + 1 => do
      let a ← write? a j (← a[i]?)
      copyDown? a (i + 1) (j + 1) n

/-- There is no byte below offset zero. -/
def copyUp? (a : Array UInt8) : Nat → Nat → Nat → Option (Array UInt8)
  | _, _, 0 => some a
  | i + 1, j + 1, n + 1 => do
      let a ← write? a j (← a[i]?)
      copyUp? a i j n
  | _, _, _ + 1 => none

def guarded? (g : GapBuffer) : Option GapBuffer := do
  let storage ← write? g.storage g.gapStart 0
  return { g with storage := ← write? storage (storage.size - 1) 0 }

def load? (s : Bytes) : Option GapBuffer := do
  let room := Array.replicate (s.length + spareBytes + 1) 0
  let storage ← copyInto? s.toArray 0 room 0 s.length
  guarded? { storage, gapStart := s.length, gapSize := spareBytes, length := s.length }

/-- The distance is that of the two positions, wherever they are. -/
def relocate? (g : GapBuffer) (p : Int) : Option GapBuffer := do
  let gapEnd := g.gapStart + g.gapSize
  let copy :=
    if p < g.gapPos then copyUp? g.storage g.gapStart gapEnd (g.gapPos - p).toNat
    else copyDown? g.storage gapEnd g.gapStart (p - g.gapPos).toNat
  return { g with storage := ← copy, gapStart := (p - 1).toNat }

def moveGap? (g : GapBuffer) (p : Int) : Option (Logged GapBuffer) :=
  if p = g.gapPos then some (pure g)
  else do
    let moved ← g.relocate? p
    return ⟨← moved.guarded?, [.gapMoved g.gapPos p]⟩

/-- A gap that ends behind the array leaves no length for the piece behind it. -/
def enlarge? (g : GapBuffer) (n : Nat) : Option GapBuffer :=
  let gapEnd := g.gapStart + g.gapSize
  if g.storage.size < gapEnd then none
  else do
    let room := Array.replicate (g.storage.size + n) 0
    let left ← copyInto? g.storage 0 room 0 g.gapStart
    let storage ← copyInto? g.storage gapEnd left (gapEnd + n) (g.storage.size - gapEnd)
    return { g with storage, gapSize := g.gapSize + n }

def growGap? (g : GapBuffer) (growth : Int) : Option (Logged GapBuffer) :=
  if growth ≤ 0 then some (pure g)
  else do
    let longer ← g.enlarge? growth.toNat
    let grown ← longer.guarded?
    return ⟨grown, [.gapGrown growth grown.gapSize grown.storage.size]⟩

def ensureGap? (g : GapBuffer) (need : Int) : Option (Logged GapBuffer) :=
  if need < g.gapSize then some (pure g)
  else g.growGap? (max (need - g.gapSize + spareBytes) minGrowth)

def fill? (g : GapBuffer) (s : Bytes) : Option GapBuffer := do
  let storage ← copyInto? s.toArray 0 g.storage g.gapStart s.length
  return { g.fill s with storage }

def insert? (g : GapBuffer) (p : Int) (s : Bytes) : Option (Logged GapBuffer) :=
  if s.isEmpty then some (pure g)
  else do
    let moved ← g.moveGap? p
    let ready ← moved.value.ensureGap? s.length
    let filled ← ready.value.fill? s
    return ⟨← filled.guarded?, moved.events ++ ready.events⟩

def delete? (g : GapBuffer) (lo hi : Int) : Option (Logged GapBuffer) :=
  if hi ≤ lo then some (pure g)
  else do
    let moved ← g.moveGap? lo
    let shorter := moved.value.swallow (hi - lo).toNat
    return ⟨← shorter.guarded?, moved.events⟩

def run? (g : GapBuffer) : Command → Option (Logged GapBuffer)
  | .clear => some (pure empty)
  | .load s => (load? s).map pure
  | .insert p s => g.insert? p s
  | .delete lo hi => g.delete? lo hi
  | .move p => g.moveGap? p
  | .ensure need => g.ensureGap? need
  | .grow growth => g.growGap? growth

/-! ## The loops -/

theorem write?_eq_some {a : Array UInt8} {j : Nat} (hj : j < a.size) (b : UInt8) :
    write? a j b = some (a.setIfInBounds j b) := if_pos hj

theorem getElem?_eq_some_getD {a : Array UInt8} {i : Nat} (hi : i < a.size) :
    a[i]? = some (a.getD i 0) := by
  rw [Array.getD_eq_getD_getElem?, Array.getElem?_eq_getElem hi, Option.getD_some]

theorem copyInto?_eq_some {source : Array UInt8} {n i j : Nat} {a : Array UInt8}
    (hi : i + n ≤ source.size) (hj : j + n ≤ a.size) :
    copyInto? source i a j n = some (copyInto source i a j n) := by
  induction n generalizing i j a with
  | zero => rfl
  | succ n ih =>
      rw [copyInto?, getElem?_eq_some_getD (by omega)]
      simp only [Option.bind_eq_bind, Option.bind_some]
      rw [write?_eq_some (by omega), Option.bind_some,
        ih (by omega) (by rw [Array.size_setIfInBounds]; omega), copyInto]

theorem copyDown?_eq_some {n i j : Nat} {a : Array UInt8}
    (hi : i + n ≤ a.size) (hj : j + n ≤ a.size) :
    copyDown? a i j n = some (copyDown a i j n) := by
  induction n generalizing i j a with
  | zero => rfl
  | succ n ih =>
      rw [copyDown?, getElem?_eq_some_getD (by omega)]
      simp only [Option.bind_eq_bind, Option.bind_some]
      rw [write?_eq_some (by omega), Option.bind_some,
        ih (by rw [Array.size_setIfInBounds]; omega) (by rw [Array.size_setIfInBounds]; omega),
        copyDown]

theorem copyUp?_eq_some {n i j : Nat} {a : Array UInt8}
    (hn : n ≤ i) (hn' : n ≤ j) (hi : i ≤ a.size) (hj : j ≤ a.size) :
    copyUp? a i j n = some (copyUp a i j n) := by
  induction n generalizing i j a with
  | zero => cases i <;> cases j <;> rfl
  | succ n ih =>
      -- the loop ends before an offset runs out
      obtain ⟨i, rfl⟩ : ∃ m, i = m + 1 := ⟨i - 1, by omega⟩
      obtain ⟨j, rfl⟩ : ∃ m, j = m + 1 := ⟨j - 1, by omega⟩
      rw [copyUp?, getElem?_eq_some_getD (by omega)]
      simp only [Option.bind_eq_bind, Option.bind_some]
      rw [write?_eq_some (by omega), Option.bind_some,
        ih (by omega) (by omega) (by rw [Array.size_setIfInBounds]; omega)
          (by rw [Array.size_setIfInBounds]; omega), copyUp]
      rfl

/-! ## The operations -/

variable {g : GapBuffer}

theorem guarded?_eq_some (h : g.gapStart < g.storage.size) : g.guarded? = some g.guarded := by
  unfold guarded?
  rw [write?_eq_some h]
  simp only [Option.bind_eq_bind, Option.bind_some, Array.size_setIfInBounds]
  rw [write?_eq_some (by rw [Array.size_setIfInBounds]; omega)]
  rfl

theorem InShape.gapStart_lt_size (h : g.InShape) : g.gapStart < g.storage.size := by
  have hle := h.gap_le
  have hsize := h.size_eq
  omega

theorem relocate?_eq_some {p : Int} (h : g.InShape) (hp : 1 ≤ p ∧ p ≤ g.endPos) :
    g.relocate? p = some (g.relocate (p - 1).toNat) := by
  have hle := h.gap_le
  have hsize := h.size_eq
  have hgap : g.gapPos = g.gapStart + 1 := rfl
  have hend : g.endPos = g.length + 1 := rfl
  unfold relocate? relocate
  dsimp only
  by_cases hleft : p < g.gapPos
  · rw [if_pos hleft, if_pos (by omega),
      show (g.gapPos - p).toNat = g.gapStart - (p - 1).toNat by omega,
      copyUp?_eq_some (by omega) (by omega) (by omega) (by omega)]
    rfl
  · rw [if_neg hleft, if_neg (by omega),
      show (p - g.gapPos).toNat = (p - 1).toNat - g.gapStart by omega,
      copyDown?_eq_some (by omega) (by omega)]
    rfl

theorem moveGap?_eq_some {p : Int} (h : g.InShape) (hp : 1 ≤ p ∧ p ≤ g.endPos) :
    g.moveGap? p = some (g.moveGap p) := by
  unfold moveGap? moveGap
  split
  · rfl
  · have hmoved : (g.relocate (p - 1).toNat).InShape :=
      inShape_relocate h (by unfold endPos at hp; omega)
    rw [relocate?_eq_some h hp]
    simp only [Option.bind_eq_bind, Option.bind_some]
    rw [guarded?_eq_some hmoved.gapStart_lt_size]
    rfl

theorem enlarge?_eq_some (h : g.InShape) (n : Nat) : g.enlarge? n = some (g.enlarge n) := by
  have hle := h.gap_le
  have hsize := h.size_eq
  unfold enlarge? enlarge
  simp only [Option.bind_eq_bind]
  rw [if_neg (by omega), copyInto?_eq_some (by omega) (by rw [Array.size_replicate]; omega),
    Option.bind_some,
    copyInto?_eq_some (by omega) (by rw [size_copyInto, Array.size_replicate]; omega)]
  rfl

theorem growGap?_eq_some (h : g.InShape) (growth : Int) :
    g.growGap? growth = some (g.growGap growth) := by
  unfold growGap? growGap
  split
  · rfl
  · rw [enlarge?_eq_some h]
    simp only [Option.bind_eq_bind, Option.bind_some]
    rw [guarded?_eq_some (inShape_enlarge h _).gapStart_lt_size]
    rfl

theorem ensureGap?_eq_some (h : g.InShape) (need : Int) :
    g.ensureGap? need = some (g.ensureGap need) := by
  unfold ensureGap? ensureGap
  split
  · rfl
  · exact growGap?_eq_some h _

theorem fill?_eq_some {s : Bytes} (h : g.InShape) (hs : s.length < g.gapSize) :
    g.fill? s = some (g.fill s) := by
  have hle := h.gap_le
  have hsize := h.size_eq
  unfold fill?
  rw [copyInto?_eq_some (by rw [List.size_toArray]; omega) (by omega)]
  rfl

theorem insert?_eq_some {p : Int} {s : Bytes} (h : g.WellFormed) (hp : 1 ≤ p ∧ p ≤ g.endPos) :
    g.insert? p s = some (g.insert p s) := by
  have hmoved := wellFormed_moveGap h hp
  have hready := (wellFormed_ensureGap hmoved s.length).toInShape
  have hroom := lt_gapSize_ensureGap (g.moveGap p).value s.length
  have hfilled := inShape_fill (s := s) hready (by omega)
  unfold insert? insert
  split
  · rfl
  · rw [moveGap?_eq_some h.toInShape hp]
    simp only [Option.bind_eq_bind, Option.bind_some]
    rw [ensureGap?_eq_some hmoved.toInShape, Option.bind_some, fill?_eq_some hready (by omega),
      Option.bind_some, guarded?_eq_some hfilled.gapStart_lt_size, Option.bind_some,
      ← List.append_nil (Logged.events (ensureGap _ _))]
    rfl

theorem delete?_eq_some {lo hi : Int} (h : g.WellFormed) (hlo : 1 ≤ lo) (hhi : hi ≤ g.endPos) :
    g.delete? lo hi = some (g.delete lo hi) := by
  unfold delete? delete
  split
  · rfl
  · have hplace : 1 ≤ lo ∧ lo ≤ g.endPos := ⟨hlo, by omega⟩
    have hmoved := (wellFormed_moveGap h hplace).toInShape
    rw [moveGap?_eq_some h.toInShape hplace]
    simp only [Option.bind_eq_bind, Option.bind_some]
    rw [guarded?_eq_some (by exact hmoved.gapStart_lt_size), Option.bind_some,
      ← List.append_nil (Logged.events (moveGap _ _))]
    rfl

theorem WellFormed.guarded_eq (h : g.WellFormed) : g.guarded = g := by
  have hstorage : g.guarded.storage = g.storage := by
    apply eq_of_getD (size_guarded g)
    intro k
    show g.guarded.rawByte k = g.rawByte k
    rw [rawByte_guarded]
    split
    · rename_i hk
      rcases hk with rfl | rfl
      · exact h.gap_guard.symm
      · exact h.last_guard.symm
    · rfl
  cases g
  simpa [guarded] using hstorage

theorem load?_eq_some (s : Bytes) : load? s = some (ofList s) := by
  have hcopied : copyInto s.toArray 0 (Array.replicate (s.length + spareBytes + 1) 0) 0 s.length
      = (ofList s).storage := by
    apply eq_of_getD
    · simp only [size_copyInto, Array.size_replicate, ofList, Array.size_append, List.size_toArray]
      omega
    · intro k
      show _ = (ofList s).rawByte k
      rw [getD_copyInto (by rw [Array.size_replicate]; omega), getD_replicate_zero, rawByte_ofList,
        Array.getD_eq_getD_getElem?, List.getD_eq_getElem?_getD, List.getElem?_toArray]
      split
      · rw [Nat.zero_add, Nat.sub_zero]
      · rw [List.getElem?_eq_none (by omega)]
        rfl
  have hloaded := wellFormed_ofList s
  unfold load?
  simp only [Option.bind_eq_bind]
  rw [copyInto?_eq_some (by rw [List.size_toArray]; omega) (by rw [Array.size_replicate]; omega),
    Option.bind_some, hcopied]
  show (ofList s).guarded? = _
  rw [guarded?_eq_some hloaded.gapStart_lt_size, hloaded.guarded_eq]

/-- On a well-formed gap buffer no index of a command lies outside the array that it is used on. -/
theorem run?_eq_some {c : Command} (h : g.WellFormed) (hc : g.Admissible c) :
    g.run? c = some (g.run c) := by
  cases c with
  | clear => rfl
  | load s => rw [run?, load?_eq_some, Option.map_some, run]
  | insert p s => exact insert?_eq_some h hc
  | delete lo hi => exact delete?_eq_some h hc.1 hc.2
  | move p => exact moveGap?_eq_some h.toInShape hc
  | ensure n => exact ensureGap?_eq_some h.toInShape n
  | grow n => exact growGap?_eq_some h.toInShape n

/-- A move to two places behind the end of an empty text has no second byte to read. -/
example : (⟨#[0, 0], 0, 1, 0⟩ : GapBuffer).run? (.move 3) = none := by decide

/-- **The layout holds in every state that a run reaches**: the gap starts in the text and is never
empty, the array holds the text, the gap and one byte more, and both guards are zero. From such a
state every further command stays inside its arrays, and when room was asked for there is more. -/
theorem layout_run (cs : List Command) (h : Along after Admissible empty cs) :
    let g := cs.foldl after empty
    (1 ≤ g.gapPos ∧ g.gapPos ≤ g.endPos ∧ 1 ≤ g.gapSize ∧
      (g.storage.size : Int) = g.endPos - 1 + g.gapSize + 1 ∧
      g.storage[(g.gapPos - 1).toNat]? = some 0 ∧ g.storage.back? = some 0) ∧
    (∀ c, g.Admissible c → g.run? c = some (g.run c)) ∧
    ∀ n, n < ((g.ensureGap n).value.gapSize : Int) := by
  intro g
  have hg : g.WellFormed := wellFormed_run h
  have hle := hg.gap_le
  have hsize := hg.size_eq
  have hgap : g.gapPos = g.gapStart + 1 := rfl
  have hend : g.endPos = g.length + 1 := rfl
  refine ⟨⟨by omega, by omega, hg.gap_pos, by omega, ?_, ?_⟩, ?_, lt_gapSize_ensureGap g⟩
  · rw [getElem?_eq_some_getD (by omega), show (g.gapPos - 1).toNat = g.gapStart by omega]
    exact congrArg some hg.gap_guard
  · rw [Array.back?_eq_getElem?, getElem?_eq_some_getD (by omega)]
    exact congrArg some hg.last_guard
  · intro c hc
    exact run?_eq_some hg hc

/-- An insertion that leaves one byte of the gap, a move over more bytes than that, and growth. -/
theorem layout_run_full_gap :
    let cs : List Command :=
      [.insert 1 (List.replicate 1999 65), .move 5, .insert 5 [66, 67], .delete 2 9, .grow (-3),
        .ensure 3000]
    let g := cs.foldl after empty
    Along after Admissible empty cs ∧ g.gapPos ≤ g.endPos ∧ g.storage.back? = some 0 := by
  intro cs g
  have hcs : Along after Admissible empty cs := by decide +kernel
  obtain ⟨⟨-, hpos, -, -, -, hlast⟩, -, -⟩ := layout_run cs hcs
  exact ⟨hcs, hpos, hlast⟩

end GapText.GapBuffer
