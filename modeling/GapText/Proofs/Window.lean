import GapText.Proofs.Layout

/-!
# What a window shows

A drawn buffer, row by row: the characters of a line that fit into the window whole are in the
columns that they take, counted from the column of the line that is drawn first, and all other
columns are blank. The cursor is counted from the left edge of the window instead. The two agree
unless a character stands across that edge; then what is drawn lies to the left of where the cursor
takes it to be.
-/

namespace GapText.Display

open Screen

/-! ## Rows -/

/-- A row through which the columns of a line from `left` on are seen, the one in column `base`
first. -/
structure Shows (tab : Int) (left cols : Nat) (line : List Int) (base : Nat) (row : Bytes) :
    Prop where
  length_eq : row.length = cols
  drawn : ∀ col c, StandsAt tab 0 line col c → left ≤ col →
    col + (form tab c col).length ≤ left + cols →
      base ≤ col ∧ (row.drop (col - base)).take (form tab c col).length = form tab c col
  blank : ∀ q < cols, (∀ col c, StandsAt tab 0 line col c → left ≤ col →
    col + (form tab c col).length ≤ left + cols →
      base + q < col ∨ col + (form tab c col).length ≤ base + q) → row[q]? = some 32

/-- A line of some characters; one that is not there is empty. -/
def lineOf (cs : List Int) (i : Nat) : List Int := ((cs.splitOn newline)[i]?).getD []

variable {tab : Int} {left cols base : Nat} {line : List Int} {text : Bytes}

theorem Draws.length_le (h : Draws tab left (left + cols) 0 line base text) (hbase : left ≤ base) :
    text.length ≤ cols := by
  rcases Nat.eq_zero_or_pos text.length with hnil | hpos
  · omega
  · obtain ⟨col, c, -, -, hend, -, hlt⟩ := h.covered (text.length - 1) (by omega)
    omega

/-- What is drawn of a line with blanks behind it. -/
theorem Draws.shows (h : Draws tab left (left + cols) 0 line base text) (hbase : left ≤ base) :
    Shows tab left cols line base (text ++ Bytes.blanks (cols - text.length)) := by
  have hlen := h.length_le hbase
  constructor
  · rw [List.length_append, Bytes.blanks, List.length_replicate]
    omega
  · intro col c hat hcol hend
    obtain ⟨hle, htext⟩ := h.drawn col c hat hcol hend
    refine ⟨hle, ?_⟩
    have hwithin := congrArg List.length htext
    rw [List.length_take, List.length_drop] at hwithin
    rcases Nat.eq_zero_or_pos (form tab c col).length with hnil | hpos
    · rw [hnil, List.take_zero, List.length_eq_zero_iff.mp hnil]
    · rw [List.drop_append_of_le_length (by omega),
        List.take_append_of_le_length (by rw [List.length_drop]; omega), htext]
  · intro q hq hfree
    rcases Nat.lt_or_ge q text.length with hin | hout
    · obtain ⟨col, c, hat, hcol, hend, hle, hlt⟩ := h.covered q hin
      rcases hfree col c hat hcol hend with hbefore | hbehind <;> omega
    · rw [List.getElem?_append_right hout, Bytes.blanks, List.getElem?_replicate, if_pos (by omega)]

/-- One row of `drawWindow`. -/
def drawRow (v : Viewport) (lines : List (List Glyph)) (s : Screen) (i : Nat) : Screen :=
  match lineAt lines (v.top + i) with
  | some line => drawLine s i (visible v.left s.cols 0 line)
  | none => s

theorem drawWindow_eq (s : Screen) (rows : Nat) (v : Viewport) (lines : List (List Glyph)) :
    drawWindow s rows v lines = (List.range rows).foldl (drawRow v lines) s := rfl

section Drawing

variable {s : Screen} {top : Nat} {spans : List Span} {ls : List Letter} {i n : Nat}

theorem onlyRow_drawRow (v : Viewport) (lines : List (List Glyph)) (s : Screen) (i : Nat) :
    OnlyRow i s (drawRow v lines s i) := by
  unfold drawRow
  split
  · exact onlyRow_drawRuns s i 0 _
  · exact OnlyRow.refl i s

theorem drawRow_shows (hplain : ∀ l ∈ ls, IsPlain l.code) (h : s.Proper) (hi : i < s.rows)
    (hblank : s.rowText i = Bytes.blanks s.cols) :
    Shows tab left s.cols (lineOf (ls.map (·.code)) (top + i))
      (origin tab left 0 (lineOf (ls.map (·.code)) (top + i)))
      ((drawRow ⟨top, left⟩ ((splitLines ls).map (glyphsFrom tab spans 0)) s i).rowText i) := by
  have hdraws : Draws tab left (left + s.cols) 0 (lineOf (ls.map (·.code)) (top + i)) _ _ :=
    draws_windowText (Nat.zero_le left)
  have hleft := le_origin tab left 0 (lineOf (ls.map (·.code)) (top + i))
  have hshows := hdraws.shows hleft
  have hfits := hdraws.length_le hleft
  have hline : lineOf (ls.map (·.code)) (top + i) =
      (((splitLines ls)[top + i]?).map (List.map (·.code))).getD [] := by
    rw [lineOf, ← codes_splitLines, List.getElem?_map]
  unfold drawRow lineAt
  dsimp only
  rw [if_pos (by omega), ← Int.natCast_add, Int.toNat_natCast, List.getElem?_map]
  cases hat : (splitLines ls)[top + i]? with
  | none =>
      rw [hat] at hline
      change lineOf (ls.map (·.code)) (top + i) = [] at hline
      rw [hline] at hshows ⊢
      show Shows tab left s.cols [] _ (s.rowText i)
      rw [hblank]
      exact hshows
  | some letters =>
      rw [hat] at hline
      change lineOf (ls.map (·.code)) (top + i) = letters.map (·.code) at hline
      rw [hline] at hshows hfits ⊢
      have hletters : ∀ l ∈ letters, IsPlain l.code := fun l hl =>
        hplain l (mem_of_mem_splitLines (List.mem_of_getElem? hat) hl)
      have htext : textOf (visible left s.cols 0 (glyphsFrom tab spans 0 letters)) = _ :=
        textOf_visible hletters
      show Shows _ _ _ _ _ ((drawLine s i _).rowText i)
      rw [rowText_drawLine h hi (even_visible fun l hl => width_eq (hletters l hl)) (htext ▸ hfits),
        htext]
      exact hshows

/-- The first `n` rows of `s'` show the lines from `top` on, and the others are blank. -/
structure ShowsLines (tab : Int) (top left : Nat) (cs : List Int) (n : Nat) (s s' : Screen) :
    Prop where
  rows_eq : s'.rows = s.rows
  cols_eq : s'.cols = s.cols
  proper : s'.Proper
  shows : ∀ i < n, Shows tab left s.cols (lineOf cs (top + i))
    (origin tab left 0 (lineOf cs (top + i))) (s'.rowText i)
  blank : ∀ i < s.rows, n ≤ i → s'.rowText i = Bytes.blanks s.cols

theorem drawWindow_shows (hplain : ∀ l ∈ ls, IsPlain l.code) (h : s.Proper) (hn : n ≤ s.rows)
    (hblank : ∀ i < s.rows, s.rowText i = Bytes.blanks s.cols) :
    ShowsLines tab top left (ls.map (·.code)) n s
      (drawWindow s n ⟨top, left⟩ ((splitLines ls).map (glyphsFrom tab spans 0))) := by
  rw [drawWindow_eq]
  induction n with
  | zero =>
      exact ⟨rfl, rfl, h, fun i hi => absurd hi (Nat.not_lt_zero i), fun i hi _ => hblank i hi⟩
  | succ n ih =>
      rw [List.range_succ, List.foldl_append, List.foldl_cons, List.foldl_nil]
      have hbefore := ih (by omega)
      generalize (List.range n).foldl _ s = s₁ at hbefore
      have honly := onlyRow_drawRow ⟨top, left⟩ ((splitLines ls).map (glyphsFrom tab spans 0)) s₁ n
      have hrow := @drawRow_shows tab left s₁ top spans ls n hplain hbefore.proper
        (by rw [hbefore.rows_eq]; omega)
        (by rw [hbefore.cols_eq]; exact hbefore.blank n (by omega) (Nat.le_refl n))
      refine ⟨honly.rows_eq.trans hbefore.rows_eq, honly.cols_eq.trans hbefore.cols_eq,
        honly.proper hbefore.proper, fun i hi => ?_, fun i hi hge => ?_⟩
      · rcases Nat.lt_or_eq_of_le (Nat.le_of_lt_succ hi) with hlt | rfl
        · rw [honly.others i (Nat.ne_of_lt hlt)]
          exact hbefore.shows i hlt
        · rw [← hbefore.cols_eq]
          exact hrow
      · rw [honly.others i (by omega)]
        exact hbefore.blank i hi (by omega)

end Drawing

/-! ## The point -/

/-- The lines before the point; the last of them is its own one, as far as the point. -/
def front (b : Buffer) : List (List Int) :=
  ((shown b).take (b.point.char - b.lower.char).toNat).splitOn newline

def pointRow (b : Buffer) : Nat := (front b).length - 1

def pointCol (tab : Int) (b : Buffer) : Nat := extent tab 0 ((front b).getLastD [])

theorem pointCell_eq {b : Buffer}
    (hpoint : b.lower.char ≤ b.point.char ∧ b.point.char ≤ b.upper.char)
    (hplain : ∀ c ∈ shown b, IsPlain c) :
    pointCell tab b = (pointRow b, pointCol tab b) := by
  have hfront : front b = (splitLines
      ((accessible b).take (b.point.char - b.lower.char).toNat)).map (List.map (·.code)) := by
    rw [codes_splitLines, front, shown, List.map_take]
  unfold pointCell pointRow pointCol
  dsimp only
  rw [if_pos (by omega), hfront, List.length_map, List.getLastD_eq_getLast?,
    List.getLastD_eq_getLast?, List.getLast?_map]
  congr 1
  cases hlast : (splitLines ((accessible b).take _)).getLast? with
  | none => rfl
  | some ls =>
      refine lineWidth_eq fun l hl => hplain _ (List.mem_map_of_mem ?_)
      exact List.mem_of_mem_take (mem_of_mem_splitLines (List.mem_of_getLast? hlast) hl)

theorem exists_scroll {v : Viewport} {rows cols : Nat} (cell : Nat × Nat) (hrows : 1 ≤ rows)
    (hcols : 1 ≤ cols) (htop : 0 ≤ v.top) (hleft : 0 ≤ v.left) :
    ∃ top left : Nat, scroll v rows cols cell = ⟨top, left⟩ ∧ top ≤ cell.1 ∧
      cell.1 < top + rows ∧ left ≤ cell.2 ∧ cell.2 < left + cols := by
  have htop' : 0 ≤ (scroll v rows cols cell).top ∧ (scroll v rows cols cell).top ≤ cell.1 ∧
      cell.1 < (scroll v rows cols cell).top + rows := by
    unfold scroll
    dsimp only
    split <;> split <;> omega
  have hleft' : 0 ≤ (scroll v rows cols cell).left ∧ (scroll v rows cols cell).left ≤ cell.2 ∧
      cell.2 < (scroll v rows cols cell).left + cols := by
    unfold scroll
    dsimp only
    split
    · omega
    · split <;> omega
  obtain ⟨top, htop⟩ := Int.eq_ofNat_of_zero_le htop'.1
  obtain ⟨left, hleft⟩ := Int.eq_ofNat_of_zero_le hleft'.1
  refine ⟨top, left, ?_, by omega, by omega, by omega, by omega⟩
  rw [← htop, ← hleft]

/-! ## Drawn buffers -/

theorem exists_spans {o : Overlaid} {before after : List Int}
    (hchains : o.chains = .ok (before, after)) : ∃ found, spans o = .ok found := by
  unfold spans Overlaid.linked
  rw [hchains]
  exact ⟨_, rfl⟩

theorem exists_statusLine {o : Overlaid} {before after : List Int}
    (hchains : o.chains = .ok (before, after)) : ∃ status, statusLine o = .ok status := by
  unfold statusLine
  rw [hchains]
  exact ⟨_, rfl⟩

/-- What is done behind the rows of the window: the last row and the cursor. -/
def finish (s : Screen) (text : Bytes) (row col : Int) : Screen :=
  let last : Int := s.rows - 1
  (((s.drawPlain last 0 text).blankFrom last (min s.cols text.length)).setCursor row col).refresh

theorem rowText_finish {s : Screen} {i : Nat} (hi : i + 1 < s.rows) (text : Bytes)
    (row col : Int) : (finish s text row col).rowText i = s.rowText i := by
  have hlast : (s.rows : Int) - 1 = ((s.rows - 1 : Nat) : Int) := by omega
  unfold finish
  dsimp only
  rw [hlast]
  exact ((onlyRow_put s (s.rows - 1) 0 text 0).trans (onlyRow_put _ (s.rows - 1) _ _ 0)).others i
    (by omega)

theorem render_eq {s : Screen} {o : Overlaid} {v v' : Viewport} {message status : Bytes}
    {found : List Span} {cell : Nat × Nat} (hspans : spans o = .ok found)
    (hstatus : statusLine o = .ok status) (hcell : pointCell tab o.buffer = cell)
    (hscroll : scroll v (s.rows - 1) s.cols cell = v') :
    render tab s o v message =
      .ok (finish (drawWindow s.clear (s.rows - 1) v' (lines tab found o.buffer))
        (footer status message) (cell.1 - v'.top) (cell.2 - v'.left), v') := by
  subst hcell hscroll
  unfold render
  rw [hspans, hstatus]
  rfl

/-- The character at the point stands where the lines before the point end. -/
theorem standsAt_point {b : Buffer} {c : Int}
    (hc : (shown b)[(b.point.char - b.lower.char).toNat]? = some c) (hne : c ≠ newline) :
    StandsAt tab 0 (lineOf (shown b) (pointRow b)) (pointCol tab b) c := by
  obtain ⟨rest, hline, hrest⟩ := exists_line_of_place (shown b) (b.point.char - b.lower.char).toNat
  obtain ⟨more, rfl⟩ := hrest c hc hne
  refine ⟨(front b).getLastD [], more, ?_, rfl⟩
  unfold lineOf pointRow front
  rw [hline]
  rfl

section Rendering

variable {s : Screen} {o : Overlaid} {v : Viewport} {before after : List Int}

/-- The rows are drawn from the column that comes first in each line, and the cursor is put where
the point is in the window. -/
theorem render_shows (message : Bytes) (hchains : o.chains = .ok (before, after))
    (hpoint : o.buffer.lower.char ≤ o.buffer.point.char ∧
      o.buffer.point.char ≤ o.buffer.upper.char)
    (hplain : ∀ c ∈ shown o.buffer, IsPlain c) {top left : Nat}
    (hscroll : scroll v (s.rows - 1) s.cols (pointRow o.buffer, pointCol tab o.buffer) =
      ⟨top, left⟩) :
    ∃ s', render tab s o v message = .ok (s', ⟨top, left⟩) ∧
      s'.cursor = ((pointRow o.buffer : Int) - top, (pointCol tab o.buffer : Int) - left) ∧
      ∀ i < s.rows - 1, Shows tab left s.cols (lineOf (shown o.buffer) (top + i))
        (origin tab left 0 (lineOf (shown o.buffer) (top + i))) (s'.rowText i) := by
  obtain ⟨found, hspans⟩ := exists_spans hchains
  obtain ⟨status, hstatus⟩ := exists_statusLine hchains
  have hletters : ∀ l ∈ accessible o.buffer, IsPlain l.code :=
    fun l hl => hplain _ (List.mem_map_of_mem hl)
  have hdrawn : ShowsLines tab top left (shown o.buffer) (s.rows - 1) s.clear
      (drawWindow s.clear (s.rows - 1) ⟨top, left⟩ (lines tab found o.buffer)) :=
    drawWindow_shows hletters (proper_clear s) (Nat.sub_le _ _) fun i hi => rowText_clear s hi
  refine ⟨_, render_eq hspans hstatus (pointCell_eq hpoint hplain) hscroll, rfl, fun i hi => ?_⟩
  rw [rowText_finish (by rw [hdrawn.rows_eq]; show i + 1 < s.rows; omega)]
  exact hdrawn.shows i hi

end Rendering

/-- **What a drawn buffer shows.** The cursor is in the window, at the line and the column of the
point. Every row but the last shows its line: the characters that lie in the window whole are in
their columns, counted from the one that is drawn first, and the rest is blank. That is the left
edge of the window unless a character stands across it; so without one the character at the point,
if it fits, is drawn under the cursor. -/
theorem render_window (tab : Int) (s : Screen) (o : Overlaid) (v : Viewport) (message : Bytes)
    (before after : List Int) (hchains : o.chains = .ok (before, after))
    (hpoint : o.buffer.lower.char ≤ o.buffer.point.char ∧
      o.buffer.point.char ≤ o.buffer.upper.char)
    (hplain : ∀ c ∈ shown o.buffer, IsPlain c) (hrows : 2 ≤ s.rows) (hcols : 1 ≤ s.cols)
    (htop : 0 ≤ v.top) (hleft : 0 ≤ v.left) :
    let b := o.buffer
    let row := pointRow b
    let col := pointCol tab b
    ∃ (s' : Screen) (top left : Nat),
      render tab s o v message = .ok (s', ⟨top, left⟩) ∧
      scroll v (s.rows - 1) s.cols (row, col) = ⟨top, left⟩ ∧
      (top ≤ row ∧ row < top + (s.rows - 1) ∧ left ≤ col ∧ col < left + s.cols ∧
        s'.cursor = ((row : Int) - top, (col : Int) - left)) ∧
      (∀ i < s.rows - 1,
        let line := lineOf (shown b) (top + i)
        Shows tab left s.cols line (origin tab left 0 line) (s'.rowText i) ∧
          (¬ Straddles tab 0 left line → Shows tab left s.cols line left (s'.rowText i))) ∧
      (∀ c, (shown b)[(b.point.char - b.lower.char).toNat]? = some c → c ≠ newline →
        StandsAt tab 0 (lineOf (shown b) row) col c ∧
          (¬ Straddles tab 0 left (lineOf (shown b) row) →
            col + (form tab c col).length ≤ left + s.cols →
              ((s'.rowText s'.cursor.1).drop s'.cursor.2.toNat).take (form tab c col).length =
                form tab c col)) ∧
      ∀ cs, b.Sound cs → shown b =
        ((cs.take (b.upper.char - 1).toNat).drop (b.lower.char - 1).toNat).map
          (shownAs b.multibyte) := by
  intro b row col
  obtain ⟨top, left, hscroll, htop, hbottom, hleft, hright⟩ :=
    exists_scroll (row, col) (show 1 ≤ s.rows - 1 by omega) hcols htop hleft
  obtain ⟨s', hrender, hcursor, hshows⟩ :=
    render_shows message hchains hpoint hplain hscroll
  -- a line that nothing stands across is drawn from the left edge on
  have hfreeShows : ∀ i < s.rows - 1, ¬ Straddles tab 0 left (lineOf (shown b) (top + i)) →
      Shows tab left s.cols (lineOf (shown b) (top + i)) left (s'.rowText i) := by
    intro i hi hfree
    have hline := hshows i hi
    rwa [origin_eq_left hfree] at hline
  refine ⟨s', top, left, hrender, hscroll, ⟨htop, hbottom, hleft, hright, hcursor⟩,
    fun i hi => ⟨hshows i hi, hfreeShows i hi⟩,
    fun c hc hne => ⟨standsAt_point hc hne, fun hfree hfits => ?_⟩, fun cs hcs => shown_eq hcs⟩
  have hrow : top + (row - top) = row := Nat.add_sub_cancel' htop
  have hline := hfreeShows (row - top) (by omega) (hrow.symm ▸ hfree)
  rw [hrow] at hline
  obtain ⟨-, htext⟩ := hline.drawn col c (standsAt_point hc hne) hleft hfits
  have hcell : s'.cursor = (((row - top : Nat) : Int), ((col - left : Nat) : Int)) := by
    rw [hcursor, Int.ofNat_sub htop, Int.ofNat_sub hleft]
  rw [hcell]
  exact htext

/-- A control character and a raw byte on the second line of a text with a wide character outside
the accessible part, in a window that starts between two characters. -/
theorem render_window_scrolled :
    let ks : List Buffer.Command :=
      [.insertExternal 1 [0xC3, 0xA9, 0x61, 0x0A, 0x78, 0x79, 0x01, 0xFF, 0x7A], .narrow 2 9,
        .goTo 7]
    let b := ks.foldl Buffer.step { multibyte := true }
    shown b = [0x61, 0x0A, 0x78, 0x79, 0x01, 0x3FFFFF, 0x7A] ∧
      ∃ s', render 8 (ofSize 3 6) ⟨{}, b⟩ ⟨0, 2⟩ [] = .ok (s', ⟨0, 2⟩) ∧ s'.cursor = (1, 2) ∧
        (s'.rowText 1).take 2 = [0x5E, 0x41] ∧
        ((s'.rowText 1).drop 2).take 4 = [0x5C, 0x33, 0x37, 0x37] := by
  intro ks b
  have hks : Along Buffer.step Buffer.Admissible { multibyte := true } ks := by decide +kernel
  have hshown : shown b = [0x61, 0x0A, 0x78, 0x79, 0x01, 0x3FFFFF, 0x7A] :=
    (shown_eq (Buffer.represents_run ks hks).1.sound).trans (by decide +kernel)
  have hpoint : b.lower.char ≤ b.point.char ∧ b.point.char ≤ b.upper.char := by decide +kernel
  have hplain : ∀ c ∈ shown b, IsPlain c := by
    rw [hshown]
    decide
  obtain ⟨s', top, left, hrender, hscroll, ⟨-, -, -, -, hcursor⟩, hrows, hat, -⟩ :=
    render_window 8 (ofSize 3 6) ⟨{}, b⟩ ⟨0, 2⟩ [] [] [] (by decide +kernel) hpoint hplain
      (by decide) (by decide) (by decide) (by decide)
  have hplace : (b.point.char - b.lower.char).toNat = 5 := by decide +kernel
  have hrow : pointRow b = 1 := by
    rw [pointRow, front, hshown, hplace]
    decide
  have hcol : pointCol 8 b = 4 := by
    rw [pointCol, front, hshown, hplace]
    decide +kernel
  rw [hrow, hcol, show scroll ⟨0, 2⟩ ((ofSize 3 6).rows - 1) (ofSize 3 6).cols (1, 4) = ⟨0, 2⟩ by
    decide, Viewport.mk.injEq] at hscroll
  obtain ⟨rfl, rfl⟩ : top = 0 ∧ left = 2 := by omega
  rw [hrow, hcol] at hcursor
  have hline : lineOf (shown b) 1 = [0x78, 0x79, 0x01, 0x3FFFFF, 0x7A] := by
    rw [hshown]
    decide
  obtain ⟨-, hshows⟩ := hrows 1 (by decide)
  rw [hline] at hshows
  obtain ⟨-, hcontrol⟩ := (hshows (by decide +kernel)).drawn 2 0x01 (by decide +kernel)
    (by decide) (by decide +kernel)
  refine ⟨hshown, s', hrender, hcursor, hcontrol, ?_⟩
  have hunder := (hat 0x3FFFFF (by rw [hshown, hplace]; rfl) (by decide)).2
  rw [hrow, hcol, hline, hcursor] at hunder
  exact hunder (by decide +kernel) (by decide +kernel)

/-- A tab stands across the left edge of the window. The characters behind it are drawn from the
first column of the row on, and the cursor is where the first of them would be if the columns that
the tab takes in the window were left free. -/
theorem drawn_before_cursor :
    let b := [.insert 1 [0x09, 0x61, 0x62], .goTo 2].foldl Buffer.step { multibyte := true }
    lineOf (shown b) 0 = [0x09, 0x61, 0x62] ∧ StandsAt 4 0 [0x09, 0x61, 0x62] 4 0x61 ∧
      ∃ s', render 4 (ofSize 3 10) ⟨{}, b⟩ ⟨0, 2⟩ [] = .ok (s', ⟨0, 2⟩) ∧ s'.cursor = (0, 2) ∧
        (s'.rowText 0).take 1 = [0x61] ∧ (s'.rowText 0)[2]? = some 32 ∧
        ¬ Shows 4 2 10 [0x09, 0x61, 0x62] 2 (s'.rowText 0) := by
  intro b
  have hks : Along Buffer.step Buffer.Admissible { multibyte := true }
      [.insert 1 [0x09, 0x61, 0x62], .goTo 2] := by decide +kernel
  have hshown : shown b = [0x09, 0x61, 0x62] :=
    (shown_eq (Buffer.represents_run _ hks).1.sound).trans (by decide +kernel)
  have hline : lineOf (shown b) 0 = [0x09, 0x61, 0x62] := by
    rw [hshown]
    decide
  have hplace : (b.point.char - b.lower.char).toNat = 1 := by decide +kernel
  have hrow : pointRow b = 0 := by
    rw [pointRow, front, hshown, hplace]
    decide
  have hcol : pointCol 4 b = 4 := by
    rw [pointCol, front, hshown, hplace]
    decide +kernel
  obtain ⟨s', hrender, hcursor, hshows⟩ := @render_shows 4 (ofSize 3 10) ⟨{}, b⟩ ⟨0, 2⟩ [] [] []
    (by decide +kernel) (by decide +kernel) (by rw [hshown]; decide) 0 2
    (by rw [hrow, hcol]; decide)
  have hrowShows := hshows 0 (by decide)
  rw [hrow, hcol] at hcursor
  rw [hline, show origin 4 2 0 [0x09, 0x61, 0x62] = 4 by decide +kernel] at hrowShows
  obtain ⟨-, hdrawn⟩ := hrowShows.drawn 4 0x61 (by decide +kernel) (by decide) (by decide +kernel)
  -- the three characters end in column 6, which is column 2 of the row
  have hblank : (s'.rowText 0)[2]? = some 32 := by
    refine hrowShows.blank 2 (by decide) fun col c hat hcol _ => Or.inr ?_
    simp only [standsAt_cons, not_standsAt_nil, or_false] at hat
    rcases hat with ⟨rfl, rfl⟩ | ⟨rfl, rfl⟩ | ⟨rfl, rfl⟩
    · exact absurd hcol (by decide)
    · decide +kernel
    · decide +kernel
  refine ⟨hline, by decide +kernel, s', hrender, hcursor, hdrawn, hblank, fun hshows => ?_⟩
  obtain ⟨-, hunder⟩ := hshows.drawn 4 0x61 (by decide +kernel) (by decide) (by decide +kernel)
  have hat := congrArg (fun row : Bytes => row[0]?) hunder
  rw [show form 4 0x61 (4 : Nat) = [0x61] by decide +kernel, List.getElem?_take_of_lt (by decide),
    List.getElem?_drop] at hat
  exact absurd (hblank.symm.trans hat) (by decide)

end GapText.Display
