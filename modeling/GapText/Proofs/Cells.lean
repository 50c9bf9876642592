import GapText.Proofs.Drawing
import Mathlib.Data.List.Induction

/-!
# The screen cell by cell

What a call does is told for each cell alone: whether the call reaches it, and what it then puts
there (`Command.puts?`). A text that is drawn reaches the cells of its row from its first column to
its last, as far as they are in the grid, and each gets its own byte of the text. Texts drawn side
by side are one text (`drawn?_append`), so a text that is reversed in the middle is a single stroke
with attributes that change on the way.

A grid that was blank at the start then shows in each cell what the last call that reached the cell
put there, if any.
-/

namespace GapText.Screen

/-- The cell in a row and a column, if the grid has one there. -/
def cell? (s : Screen) (row col : Int) : Option Cell :=
  if 0 ≤ col then (s.line row)[col.toNat]? else none

/-- A row and a column of a grid of this size. -/
def Inside (rows cols : Nat) (i j : Int) : Prop := (0 ≤ i ∧ i < rows) ∧ 0 ≤ j ∧ j < cols

instance (rows cols : Nat) (i j : Int) : Decidable (Inside rows cols i j) :=
  inferInstanceAs (Decidable (_ ∧ _))

/-- What a text that is drawn in a row from a column on puts into a cell, if it reaches the cell: a
byte, with the attribute that this byte of the text is to have. -/
def drawn? (rows cols : Nat) (row col : Int) (text : Bytes) (attr : Int → Int) (i j : Int) :
    Option Cell :=
  if (0 ≤ row ∧ row < rows) ∧ i = row ∧ max 0 col ≤ j ∧ j < min (cols : Int) (col + text.length)
  then
    text[(j - col).toNat]?.map fun byte => { byte, attr := attr (j - col) }
  else none

/-- What a call puts into a cell, if it reaches the cell. -/
def Command.puts? (rows cols : Nat) (k : Command) (i j : Int) : Option Cell :=
  match k with
  | .clear => if Inside rows cols i j then some {} else none
  | .plain row col text => drawn? rows cols row col text (fun _ => 0) i j
  | .reversed row col text start len =>
    drawn? rows cols row col text
      (fun n => if max 0 start ≤ n ∧ n < max 0 start + max 0 len then -1 else 0) i j
  | .colored row col text pair => drawn? rows cols row col text (fun _ => pair) i j
  | .blank row col =>
    if (0 ≤ row ∧ row < rows) ∧ i = row ∧ max 0 col ≤ j ∧ j < cols then some {} else none
  | .cursor .. | .refresh => none

variable {s : Screen} {rows cols : Nat} {row col i j : Int} {text : Bytes} {attr : Int → Int}

/-! ## The grid -/

theorem Proper.run (h : s.Proper) (k : Command) : (s.run k).Proper := by
  cases k with
  | clear => exact proper_clear s
  | plain row col text => exact h.put _ _ _ _
  | reversed row col text start len => exact ((h.put _ _ _ _).put _ _ _ _).put _ _ _ _
  | colored row col text pair => exact h.put _ _ _ _
  | blank row col => exact h.put _ _ _ _
  | cursor row col => exact ⟨h.rows_eq, h.cols_eq⟩
  | refresh => exact ⟨h.rows_eq, h.cols_eq⟩

theorem size_run (s : Screen) (k : Command) :
    (s.run k).rows = s.rows ∧ (s.run k).cols = s.cols := by
  cases k <;> exact ⟨rfl, rfl⟩

theorem Proper.length_line_eq (h : s.Proper) (i : Int) :
    (s.line i).length = if 0 ≤ i ∧ i < s.rows then s.cols else 0 := by
  split
  case isTrue hi =>
    obtain ⟨r, rfl⟩ := Int.eq_ofNat_of_zero_le hi.1
    exact h.length_line (by omega)
  case isFalse hi =>
    have hrows := h.rows_eq
    unfold line
    split
    · rw [List.getD_eq_getElem?_getD, List.getElem?_eq_none (by omega)]
      rfl
    · rfl

theorem Proper.isSome_cell?_iff (h : s.Proper) :
    (s.cell? i j).isSome ↔ Inside s.rows s.cols i j := by
  unfold cell? Inside
  by_cases hj : 0 ≤ j
  · rw [if_pos hj, isSome_getElem?, h.length_line_eq]
    split <;> omega
  · rw [if_neg hj]
    exact iff_of_false Bool.false_ne_true fun h => hj h.2.1

/-- A text that is put into a row gives its bytes to the cells that it reaches. -/
theorem cell?_put (s : Screen) (row col : Int) (text : Bytes) (attr : Int) (i j : Int) :
    (s.put row col text attr).cell? i j = (s.cell? i j).map fun cell =>
      if i = row ∧ col ≤ j then
        (text[(j - col).toNat]?.map fun byte => { byte, attr }).getD cell
      else cell := by
  unfold cell?
  by_cases hj : 0 ≤ j
  · rw [if_pos hj, if_pos hj, line_put]
    by_cases hrow : i = row
    · rw [if_pos hrow, overwriteLine, List.getElem?_mapIdx, Int.toNat_of_nonneg hj]
      cases (s.line i)[j.toNat]? with
      | none => rfl
      | some cell =>
          simp only [Option.map_some, hrow, true_and]
          split
          · cases text[(j - col).toNat]? <;> rfl
          · rfl
    · simp [hrow]
  · rw [if_neg hj, if_neg hj]
    rfl

theorem Proper.cell?_put (h : s.Proper) (row col : Int) (text : Bytes) (attr : Int) (i j : Int) :
    (s.put row col text attr).cell? i j =
      (drawn? s.rows s.cols row col text (fun _ => attr) i j).or (s.cell? i j) := by
  have hinside := h.isSome_cell?_iff (i := i) (j := j)
  rw [Screen.cell?_put, drawn?]
  cases hcell : s.cell? i j with
  | none =>
      rw [hcell] at hinside
      rw [if_neg]
      · rfl
      · rintro ⟨hrow, rfl, hj⟩
        exact Bool.false_ne_true (hinside.mpr ⟨hrow, by omega, by omega⟩)
  | some cell =>
      rw [hcell] at hinside
      obtain ⟨hi, hj⟩ := hinside.mp rfl
      rw [Option.map_some]
      by_cases hreach : i = row ∧ col ≤ j
      · obtain ⟨rfl, hcol⟩ := hreach
        rw [if_pos ⟨rfl, hcol⟩]
        by_cases hlt : (j - col).toNat < text.length
        · rw [if_pos (by omega), List.getElem?_eq_getElem hlt]
          rfl
        · rw [if_neg (by omega), List.getElem?_eq_none (by omega)]
          rfl
      · rw [if_neg hreach, if_neg (by omega)]
        rfl

/-! ## Strokes -/

/-- Texts that are drawn side by side are one text. -/
theorem drawn?_append {n : Nat} {text text' : Bytes} (hn : text.length = n) (rows cols : Nat)
    (row col : Int) (attr attr' : Int → Int) (i j : Int) :
    (drawn? rows cols row (col + n) text' attr' i j).or (drawn? rows cols row col text attr i j) =
      drawn? rows cols row col (text ++ text')
        (fun m => if m < n then attr m else attr' (m - n)) i j := by
  subst hn
  unfold drawn?
  rw [List.length_append]
  by_cases hrow : (0 ≤ row ∧ row < rows) ∧ i = row ∧ 0 ≤ j ∧ j < cols
  · rcases Int.lt_or_le j (col + text.length) with hfirst | hsecond
    · rw [if_neg (by omega), Option.none_or]
      by_cases hcol : col ≤ j
      · have hn : j - col < text.length := by omega
        rw [if_pos (by omega), if_pos (by omega), List.getElem?_append_left (by omega)]
        simp only [if_pos hn]
      · rw [if_neg (by omega), if_neg (by omega)]
    · have hn : ¬ j - col < text.length := by omega
      rw [if_neg (c := _ ∧ _ ∧ _ ∧ j < min (cols : Int) (col + text.length)) (by omega),
        Option.or_none]
      by_cases hlt : j < col + text.length + text'.length
      · rw [if_pos (by omega), if_pos (by omega), List.getElem?_append_right (by omega)]
        simp only [if_neg hn, Int.sub_sub]
        congr 2
        omega
      · rw [if_neg (by omega), if_neg (by omega)]
  · rw [if_neg (by omega), if_neg (by omega), if_neg (by omega)]
    rfl

theorem drawn?_congr {attr' : Int → Int}
    (h : ∀ n : Int, 0 ≤ n → n < text.length → attr n = attr' n) :
    drawn? rows cols row col text attr i j = drawn? rows cols row col text attr' i j := by
  unfold drawn?
  split
  · rw [h _ (by omega) (by omega)]
  · rfl

/-- The three texts that a partly reversed text is drawn as are one stroke. -/
theorem Proper.cell?_drawReversed (h : s.Proper) (row col : Int) (text : Bytes) (start len : Int)
    (i j : Int) :
    (s.drawReversed row col text start len).cell? i j =
      (drawn? s.rows s.cols row col text
        (fun n => if max 0 start ≤ n ∧ n < max 0 start + max 0 len then -1 else 0) i j).or
        (s.cell? i j) := by
  unfold drawReversed
  extract_lets lo hi
  have hleft : (text.take lo).length = lo := List.length_take_of_le (by omega)
  have hright : (text.take hi).length = hi := List.length_take_of_le (by omega)
  have hmiddle : text.take lo ++ (text.take hi).drop lo = text.take hi := by
    have hboth := List.take_append_drop lo (text.take hi)
    rwa [List.take_take, Nat.min_eq_left (by omega)] at hboth
  have hstroke : (drawn? s.rows s.cols row (col + hi) (text.drop hi) (fun _ => 0) i j).or
      ((drawn? s.rows s.cols row (col + lo) ((text.take hi).drop lo) (fun _ => -1) i j).or
        (drawn? s.rows s.cols row col (text.take lo) (fun _ => 0) i j)) =
      drawn? s.rows s.cols row col text
        (fun n => if max 0 start ≤ n ∧ n < max 0 start + max 0 len then -1 else 0) i j := by
    rw [drawn?_append hleft, hmiddle, drawn?_append hright, List.take_append_drop]
    apply drawn?_congr
    intro n _ hn
    by_cases hin : max 0 start ≤ n ∧ n < max 0 start + max 0 len
    · rw [if_pos hin, if_pos (by omega), if_neg (by omega)]
    · rw [if_neg hin]
      by_cases hlow : n < lo
      · rw [if_pos (by omega), if_pos hlow]
      · rw [if_neg (by omega)]
  have hput := h.put row col (text.take lo) 0
  rw [(hput.put _ _ _ _).cell?_put, hput.cell?_put, h.cell?_put, ← hstroke, Option.or_assoc,
    Option.or_assoc]
  rfl

theorem Proper.cell?_blankFrom (h : s.Proper) (row col i j : Int) :
    (s.blankFrom row col).cell? i j =
      (if (0 ≤ row ∧ row < s.rows) ∧ i = row ∧ max 0 col ≤ j ∧ j < s.cols then some {}
        else none : Option Cell).or (s.cell? i j) := by
  unfold blankFrom
  dsimp only
  rw [h.cell?_put, drawn?, Bytes.blanks, List.length_replicate]
  congr 1
  split
  · rw [if_pos (by omega), List.getElem?_replicate, if_pos (by omega)]
    rfl
  · rw [if_neg (by omega)]

theorem Proper.cell?_clear (h : s.Proper) (i j : Int) :
    s.clear.cell? i j =
      (if Inside s.rows s.cols i j then some {} else none : Option Cell).or (s.cell? i j) := by
  have hold := h.isSome_cell?_iff (i := i) (j := j)
  by_cases hin : Inside s.rows s.cols i j
  · rw [if_pos hin, Option.some_or]
    obtain ⟨⟨hi, hrow⟩, hj, hcol⟩ := hin
    obtain ⟨i, rfl⟩ := Int.eq_ofNat_of_zero_le hi
    rw [cell?, if_pos hj, line_clear s (by omega), colored, Bytes.blanks, List.map_replicate,
      List.getElem?_replicate, if_pos (by omega)]
  · have hnew := (proper_clear s).isSome_cell?_iff (i := i) (j := j)
    rw [if_neg hin, Option.none_or, Option.not_isSome_iff_eq_none.mp (mt hold.mp hin)]
    exact Option.not_isSome_iff_eq_none.mp (mt hnew.mp hin)

/-- One call: it puts something into the cells that it reaches, and leaves all others. -/
theorem Proper.cell?_run (h : s.Proper) (k : Command) (i j : Int) :
    (s.run k).cell? i j = (k.puts? s.rows s.cols i j).or (s.cell? i j) := by
  cases k with
  | clear => exact h.cell?_clear i j
  | plain row col text => exact h.cell?_put row col text 0 i j
  | reversed row col text start len => exact h.cell?_drawReversed row col text start len i j
  | colored row col text pair => exact h.cell?_put row col text pair i j
  | blank row col => exact h.cell?_blankFrom row col i j
  | cursor row col => rfl
  | refresh => rfl

/-! ## Runs -/

/-- The grid keeps its shape. -/
theorem shape_run (rows cols : Nat) (ks : List Command) :
    let s := ks.foldl run (ofSize rows cols)
    s.Proper ∧ s.rows = rows ∧ s.cols = cols := by
  induction ks using List.reverseRecOn with
  | nil => exact ⟨proper_clear (ofSize rows cols), rfl, rfl⟩
  | append_singleton ks k ih =>
      obtain ⟨hproper, hrows, hcols⟩ := ih
      rw [List.foldl_concat]
      exact ⟨hproper.run k, (size_run _ k).1.trans hrows, (size_run _ k).2.trans hcols⟩

/-- A cell shows what the last call that reached it put there. -/
theorem cell?_last (ks : List Command) (h : Inside rows cols i j) :
    (ks.foldl run (ofSize rows cols)).cell? i j =
      some ((ks.reverse.findSome? fun k => k.puts? rows cols i j).getD {}) := by
  induction ks using List.reverseRecOn with
  | nil =>
      have hfresh : (ofSize rows cols).cell? i j =
          (if Inside rows cols i j then some {} else none : Option Cell).or _ :=
        (proper_clear (ofSize rows cols)).cell?_clear i j
      rw [if_pos h] at hfresh
      exact hfresh
  | append_singleton ks k ih =>
      obtain ⟨hproper, hrows, hcols⟩ := shape_run rows cols ks
      rw [List.foldl_concat, hproper.cell?_run, hrows, hcols, ih, List.reverse_concat,
        List.findSome?_cons]
      cases k.puts? rows cols i j <;> rfl

/-- **Every call is clipped to the grid, cell by cell.** Whatever is asked of a screen, the grid
keeps its rows and their lengths, and what is seen of the screen are its cells. Every further call
puts something into exactly the cells that it reaches, and leaves all others. So each cell shows
what the last call that reached it put there, or is a plain blank. -/
theorem cells_run (rows cols : Nat) (ks : List Command) :
    let s := ks.foldl run (ofSize rows cols)
    (s.cells.length = rows ∧ ∀ line ∈ s.cells, line.length = cols) ∧
    (∀ i j, (s.cell? i j).isSome ↔ Inside rows cols i j) ∧
    (∀ i j, (0 ≤ j → (s.rowText i)[j.toNat]? = (s.cell? i j).map (·.byte)) ∧
      s.attrAt i j = ((s.cell? i j).getD {}).attr) ∧
    (∀ k i j, (s.run k).cell? i j = (k.puts? rows cols i j).or (s.cell? i j)) ∧
    ∀ i j, Inside rows cols i j →
      s.cell? i j = some ((ks.reverse.findSome? fun k => k.puts? rows cols i j).getD {}) := by
  intro s
  obtain ⟨hproper, hrows, hcols⟩ : s.Proper ∧ s.rows = rows ∧ s.cols = cols :=
    shape_run rows cols ks
  refine ⟨⟨hproper.rows_eq.trans hrows, fun line hline => (hproper.cols_eq line hline).trans hcols⟩,
    fun i j => ?_, fun i j => ⟨fun hj => ?_, ?_⟩, fun k i j => ?_, fun i j h => cell?_last ks h⟩
  · rw [hproper.isSome_cell?_iff, hrows, hcols]
  · rw [rowText, List.getElem?_map, cell?, if_pos hj]
  · unfold attrAt cell?
    split
    · rw [List.getD_eq_getElem?_getD]
    · rfl
  · rw [hproper.cell?_run, hrows, hcols]

/-- A text that starts before the first column, one that is reversed from before its first byte and
goes on behind the last column, one in a row that is not there, and the end of a row blanked. -/
theorem cells_run_clipped :
    let ks : List Command :=
      [.plain 1 (-1) [97, 98, 99, 100], .reversed 0 2 [120, 121, 122] (-1) 1, .colored 2 0 [65] 3,
        .blank 1 2]
    let s := ks.foldl run (ofSize 2 4)
    s.cell? 1 0 = some ⟨98, 0⟩ ∧ s.cell? 1 1 = some ⟨99, 0⟩ ∧ s.cell? 1 2 = some {} ∧
      s.cell? 0 2 = some ⟨120, -1⟩ ∧ s.cell? 0 3 = some ⟨121, 0⟩ ∧ s.attrAt 0 2 = -1 ∧
      (s.cell? 2 0).isSome = false := by
  intro ks s
  obtain ⟨-, hinside, hseen, -, hlast⟩ := cells_run 2 4 ks
  have hreversed := hlast 0 2 (by decide)
  refine ⟨hlast 1 0 (by decide), hlast 1 1 (by decide), hlast 1 2 (by decide), hreversed,
    hlast 0 3 (by decide), ?_, ?_⟩
  · rw [(hseen 0 2).2, hreversed]
    decide
  · rw [← Bool.not_eq_true, hinside]
    decide

end GapText.Screen
