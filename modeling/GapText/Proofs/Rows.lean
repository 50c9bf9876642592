import GapText.Proofs.Window

/-!
# Drawn rows, cell by cell

What a row of the window holds is decided by its line alone: by the glyphs of the line, the left
edge of the window and the width of the screen (`rowCells`). So two buffers whose lines have the
same glyphs are drawn alike, whatever their bytes are. Where every glyph takes as many columns as it
has bytes, the row is these bytes side by side, each with the attribute of its glyph.
-/

namespace GapText

namespace Display

open Screen

variable {r i n : Nat} {s : Screen}

/-! ## One row -/

/-- Negative attributes are all drawn reversed. -/
theorem drawRun_eq (s : Screen) (row col : Int) (text : Bytes) (attr : Int) :
    drawRun s row col text attr = s.put row col text (max attr (-1)) := by
  unfold drawRun
  split
  · subst attr
    rfl
  · split
    · rw [drawReversed_whole, show max attr (-1) = -1 by omega]
    · rw [show max attr (-1) = attr by omega]
      rfl

/-- A line of cells after runs were drawn into it side by side from a column on. -/
def paint (cols : Nat) (cells : List Cell) (col : Int) : List (List Glyph) → List Cell
  | [] => overwriteLine cells (max 0 col) (Bytes.blanks (cols - max 0 col).toNat) 0
  | run :: rest =>
    let attr := (run.head?.map (·.attr)).getD 0
    paint cols (overwriteLine cells col (textOf run) (max attr (-1)))
      (col + runWidth run) rest

/-- The runs are drawn into their own row, each over what was drawn before. -/
theorem line_drawRuns (s : Screen) (row col : Int) (runs : List (List Glyph)) (i : Int) :
    (drawRuns s row col runs).line i =
      if i = row then paint s.cols (s.line i) col runs else s.line i := by
  induction runs generalizing s col with
  | nil => exact line_put s row _ _ 0 i
  | cons run runs ih =>
      rw [drawRuns, drawRun_eq]
      refine (ih _ _).trans ?_
      rw [line_put]
      split
      · rfl
      · rfl

/-- What a row of the window holds when this line, if any, is seen through it. -/
def rowCells (cols : Nat) (left : Int) : Option (List Glyph) → List Cell
  | none => colored (Bytes.blanks cols) 0
  | some line =>
    paint cols (colored (Bytes.blanks cols) 0) 0
      ((visible left cols 0 line).splitBy fun g h => g.attr == h.attr)

theorem line_drawRow (v : Viewport) (lines : List (List Glyph)) (s : Screen) (r i : Nat)
    (hblank : s.line r = colored (Bytes.blanks s.cols) 0) :
    (drawRow v lines s r).line i =
      if i = r then rowCells s.cols v.left (lineAt lines (v.top + i)) else s.line i := by
  unfold drawRow
  by_cases hi : i = r
  · subst i
    rw [if_pos rfl]
    split
    · rename_i line hline
      rw [hline, drawLine, line_drawRuns, if_pos rfl, hblank]
      rfl
    · rename_i hline
      rw [hline, hblank]
      rfl
  · rw [if_neg hi]
    split
    · rw [drawLine, line_drawRuns, if_neg (by omega)]
    · rfl

/-! ## A window of rows -/

/-- The first `n` rows hold what is seen of the lines from `top` on. -/
structure Holds (lines : List (List Glyph)) (v : Viewport) (n : Nat) (s s' : Screen) : Prop where
  rows_eq : s'.rows = s.rows
  cols_eq : s'.cols = s.cols
  refreshes_eq : s'.refreshes = s.refreshes
  line_eq : ∀ i : Nat, s'.line i =
    if i < n then rowCells s.cols v.left (lineAt lines (v.top + i)) else s.line i

theorem refreshes_drawRow (v : Viewport) (lines : List (List Glyph)) (s : Screen) (i : Nat) :
    (drawRow v lines s i).refreshes = s.refreshes := by
  have hruns : ∀ (runs : List (List Glyph)) (s : Screen) (col : Int),
      (drawRuns s i col runs).refreshes = s.refreshes := by
    intro runs
    induction runs with
    | nil => exact fun _ _ => rfl
    | cons run runs ih =>
        intro s col
        rw [drawRuns, drawRun_eq]
        exact ih _ _
  unfold drawRow
  split
  · exact hruns _ _ _
  · rfl

theorem drawWindow_holds (v : Viewport) (lines : List (List Glyph)) (hn : n ≤ s.rows)
    (hblank : ∀ i < s.rows, s.line (i : Nat) = colored (Bytes.blanks s.cols) 0) :
    Holds lines v n s (drawWindow s n v lines) := by
  rw [drawWindow_eq]
  induction n with
  | zero => exact ⟨rfl, rfl, rfl, fun i => (if_neg (Nat.not_lt_zero i)).symm⟩
  | succ n ih =>
      rw [List.range_succ, List.foldl_append, List.foldl_cons, List.foldl_nil]
      have hbefore := ih (by omega)
      generalize (List.range n).foldl _ s = s₁ at hbefore
      have honly := onlyRow_drawRow v lines s₁ n
      have hrow : s₁.line n = colored (Bytes.blanks s₁.cols) 0 := by
        rw [hbefore.line_eq, if_neg (Nat.lt_irrefl n), hbefore.cols_eq, hblank n (by omega)]
      refine ⟨honly.rows_eq.trans hbefore.rows_eq, honly.cols_eq.trans hbefore.cols_eq,
        (refreshes_drawRow v lines s₁ n).trans hbefore.refreshes_eq, fun i => ?_⟩
      rw [line_drawRow v lines s₁ n i hrow, hbefore.line_eq i, hbefore.cols_eq]
      rcases Nat.lt_trichotomy i n with hi | rfl | hi
      · rw [if_neg (by omega), if_pos hi, if_pos (by omega)]
      · rw [if_pos rfl, if_pos (by omega)]
      · rw [if_neg (by omega), if_neg (by omega), if_neg (by omega)]

/-- A buffer with these colored stretches, drawn through a window: the rows above the last one hold
the lines, and the cursor is where the point is. -/
structure Drawn (tab : Int) (s : Screen) (b : Buffer) (found : List Span) (v : Viewport)
    (s' : Screen) : Prop where
  rows_eq : s'.rows = s.rows
  cols_eq : s'.cols = s.cols
  refreshes_eq : s'.refreshes = s.refreshes + 1
  cursor_eq : s'.cursor = ((pointCell tab b).1 - v.top, (pointCell tab b).2 - v.left)
  line_eq : ∀ i : Nat, i < s.rows - 1 →
    s'.line i = rowCells s.cols v.left (lineAt (lines tab found b) (v.top + i))

theorem line_finish {i : Nat} (hi : i + 1 < s.rows) (text : Bytes) (row col : Int) :
    (finish s text row col).line i = s.line i := by
  have hlast : (s.rows : Int) - 1 = ((s.rows - 1 : Nat) : Int) := by omega
  unfold finish
  dsimp only
  rw [hlast]
  show (((s.put (s.rows - 1 : Nat) 0 text 0).put (s.rows - 1 : Nat) _ _ 0).line i) = _
  rw [line_put, if_neg (by omega), line_put, if_neg (by omega)]

theorem exists_render {o : Overlaid} {found : List Span} {before after : List Int} (tab : Int)
    (s : Screen) (v : Viewport) (message : Bytes) (hchains : o.chains = .ok (before, after))
    (hspans : spans o = .ok found) :
    let v' := scroll v (s.rows - 1) s.cols (pointCell tab o.buffer)
    ∃ s', render tab s o v message = .ok (s', v') ∧ Drawn tab s o.buffer found v' s' := by
  intro v'
  obtain ⟨status, hstatus⟩ := exists_statusLine hchains
  obtain ⟨hrows, hcols, hrefreshes, hline⟩ := drawWindow_holds v' (lines tab found o.buffer)
    (s := s.clear) (Nat.sub_le s.rows 1) fun i hi => line_clear s hi
  refine ⟨_, render_eq hspans hstatus rfl rfl, hrows, hcols, congrArg (· + 1) hrefreshes, rfl, ?_⟩
  intro i hi
  rw [line_finish (by rw [hrows]; show i + 1 < s.rows; omega), hline, if_pos hi]
  rfl

/-! ## Glyphs of one column a byte -/

/-- The cells of glyphs side by side. -/
def ink (glyphs : List Glyph) : List Cell :=
  glyphs.flatMap fun g => colored g.text (max g.attr (-1))

theorem length_ink (glyphs : List Glyph) : (ink glyphs).length = (textOf glyphs).length := by
  simp [ink, textOf, List.length_flatMap]

/-- All glyphs of the run have the attribute of its first one. -/
def Uniform (run : List Glyph) : Prop := ∀ g ∈ run, g.attr = (run.head?.map (·.attr)).getD 0

theorem uniform_of_mem_splitBy {glyphs run : List Glyph}
    (h : run ∈ glyphs.splitBy fun g h => g.attr == h.attr) : Uniform run := by
  have hchain := List.isChain_of_mem_splitBy h
  cases run with
  | nil => exact fun g hg => absurd hg List.not_mem_nil
  | cons first rest =>
      -- neighbours have equal attributes, hence all of the run have
      have hpairwise : (first :: rest).Pairwise fun g h => g.attr = h.attr := by
        have htrans : IsTrans Glyph fun g h => g.attr = h.attr := ⟨fun _ _ _ => Eq.trans⟩
        exact List.isChain_iff_pairwise.mp (hchain.imp fun _ _ => beq_iff_eq.mp)
      intro g hg
      rcases List.mem_cons.mp hg with rfl | hg
      · rfl
      · exact (List.rel_of_pairwise_cons hpairwise hg).symm

theorem Uniform.ink_eq {run : List Glyph} (h : Uniform run) :
    ink run = colored (textOf run) (max ((run.head?.map (·.attr)).getD 0) (-1)) := by
  unfold ink textOf colored
  rw [List.map_flatMap]
  exact List.flatMap_congr fun g hg => by rw [h g hg]

/-- Uniform runs that take one column a byte are drawn as their cells, with blanks behind. -/
theorem paint_eq {cols col : Nat} {cells : List Cell} {runs : List (List Glyph)}
    (hlen : cells.length = cols) (heven : Even runs.flatten) (hruns : ∀ run ∈ runs, Uniform run)
    (hfits : col + (textOf runs.flatten).length ≤ cols) :
    paint cols cells col runs = cells.take col ++ ink runs.flatten ++
      colored (Bytes.blanks (cols - (col + (textOf runs.flatten).length))) 0 := by
  induction runs generalizing cells col with
  | nil =>
      have hcol : max 0 (col : Int) = col := by omega
      have hrest : ((cols : Int) - col).toNat = cols - col := by omega
      change col + 0 ≤ cols at hfits
      rw [paint, hcol, hrest,
        overwriteLine_eq _ 0 (by rw [Bytes.blanks, List.length_replicate]; omega)]
      simp [Bytes.blanks, ink, textOf]
      omega
  | cons run runs ih =>
      obtain ⟨hrun, hruns⟩ := List.forall_mem_cons.mp hruns
      have htext : textOf (run :: runs).flatten = textOf run ++ textOf runs.flatten := by
        simp [textOf]
      have hink : ink (run :: runs).flatten = ink run ++ ink runs.flatten := by
        simp [ink]
      obtain ⟨hevenRun, hevenRuns⟩ : Even run ∧ Even runs.flatten :=
        ⟨fun g hg => heven g (List.mem_append_left _ hg),
          fun g hg => heven g (List.mem_append_right _ hg)⟩
      rw [htext, List.length_append] at hfits ⊢
      rw [paint, hink, runWidth_eq hevenRun, ← Int.natCast_add,
        ih (by rw [length_overwriteLine, hlen]) hevenRuns hruns (by omega),
        overwriteLine_eq _ _ (by omega), ← hrun.ink_eq, ← length_ink run]
      have htake : (cells.take col ++ ink run).length = col + (ink run).length := by
        rw [List.length_append, List.length_take]
        rw [← length_ink run] at hfits
        omega
      rw [List.take_append_of_le_length (Nat.le_of_eq htake.symm), List.take_of_length_le
        (Nat.le_of_eq htake), ← List.append_assoc, Nat.add_assoc]

/-- What is visible fits into the window. -/
theorem runWidth_visible_le (left : Int) (cols x : Nat) (glyphs : List Glyph) :
    (runWidth (visible left cols x glyphs) : Int) ≤ max 0 (left + cols - max left x) := by
  induction glyphs generalizing x with
  | nil => exact Int.le_max_left 0 _
  | cons g rest ih =>
      have hrest := ih (x + g.width)
      rw [visible]
      split
      · rw [runWidth]
        push_cast at hrest ⊢
        omega
      · push_cast at hrest ⊢
        omega

/-- However the visible glyphs are divided into runs of one attribute each, their cells come to lie
side by side, with blanks behind. -/
theorem paint_visible {cols : Nat} {left : Int} {line : List Glyph} {runs : List (List Glyph)}
    (heven : Even (visible left cols 0 line)) (hflat : runs.flatten = visible left cols 0 line)
    (hruns : ∀ run ∈ runs, Uniform run) :
    paint cols (colored (Bytes.blanks cols) 0) 0 runs = ink (visible left cols 0 line) ++
      colored (Bytes.blanks (cols - (ink (visible left cols 0 line)).length)) 0 := by
  have hfits : (textOf (visible left cols 0 line)).length ≤ cols := by
    have hsum := runWidth_visible_le left cols 0 line
    rw [runWidth_eq heven] at hsum
    omega
  show paint cols (colored (Bytes.blanks cols) 0) (0 : Nat) runs = _
  rw [paint_eq (by simp [Bytes.blanks]) (by rw [hflat]; exact heven) hruns (by rw [hflat]; omega),
    hflat, length_ink]
  simp

/-- A row of glyphs that take one column a byte. -/
theorem rowCells_eq {cols : Nat} {left : Int} {line : List Glyph}
    (heven : Even (visible left cols 0 line)) :
    rowCells cols left (some line) = ink (visible left cols 0 line) ++
      colored (Bytes.blanks (cols - (ink (visible left cols 0 line)).length)) 0 :=
  paint_visible heven (List.flatten_splitBy _ _) fun _ hrun => uniform_of_mem_splitBy hrun

end Display

end GapText
