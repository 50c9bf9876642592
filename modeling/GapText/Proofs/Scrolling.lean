import GapText.Proofs.Rows
import Mathlib.Data.List.DropRight

/-!
# A window that follows the point

The line of the point is the number of newlines before it, and its column is the sum of the columns
that the characters behind the last of them take (`cellWidth`), whatever is drawn for them. The
window is moved to the nearest place from which this cell is seen (`Nearest`); from there it need
not be moved, and what is drawn does not depend on what was on the screen before. So drawing once
more changes nothing but the count of refreshes.
-/

namespace GapText

namespace Screen

variable {s s' : Screen}

/-! ## What is on a screen -/

/-- The same cells, whatever was done with the cursor. -/
def SameCells (s s' : Screen) : Prop := ∃ cursor refreshes, s' = { s with cursor, refreshes }

theorem SameCells.put (h : SameCells s s') (row col : Int) (text : Bytes) (attr : Int) :
    SameCells (s.put row col text attr) (s'.put row col text attr) := by
  obtain ⟨cursor, refreshes, rfl⟩ := h
  exact ⟨cursor, refreshes, rfl⟩

theorem SameCells.blankFrom (h : SameCells s s') (row col : Int) :
    SameCells (s.blankFrom row col) (s'.blankFrom row col) := by
  obtain ⟨cursor, refreshes, rfl⟩ := h
  exact ⟨cursor, refreshes, rfl⟩

/-- Nothing is left on a cleared screen but its size. -/
theorem sameCells_clear (hrows : s'.rows = s.rows) (hcols : s'.cols = s.cols) :
    SameCells s.clear s'.clear := by
  obtain ⟨rows, cols, cells, cursor, refreshes⟩ := s'
  obtain rfl : rows = s.rows := hrows
  obtain rfl : cols = s.cols := hcols
  exact ⟨cursor, refreshes, rfl⟩

theorem SameCells.eq_of_cursor (h : SameCells s s') (hcursor : s'.cursor = s.cursor) :
    s' = { s with refreshes := s'.refreshes } := by
  obtain ⟨cursor, refreshes, rfl⟩ := h
  obtain rfl : cursor = s.cursor := hcursor
  rfl

end Screen

namespace Display

open Screen Code

variable {s s' : Screen}

theorem SameCells.drawRuns (h : SameCells s s') (row col : Int) (runs : List (List Glyph)) :
    SameCells (drawRuns s row col runs) (drawRuns s' row col runs) := by
  induction runs generalizing s s' col with
  | nil => exact h.blankFrom row col
  | cons run runs ih =>
      rw [Display.drawRuns, Display.drawRuns]
      refine ih ?_ _
      rw [drawRun_eq, drawRun_eq]
      exact h.put row col _ _

theorem SameCells.drawRow (h : SameCells s s') (v : Viewport) (lines : List (List Glyph))
    (i : Nat) : SameCells (drawRow v lines s i) (drawRow v lines s' i) := by
  have hcols : s'.cols = s.cols := by
    obtain ⟨_, _, rfl⟩ := h
    rfl
  unfold Display.drawRow
  split
  · rw [hcols]
    exact SameCells.drawRuns h _ _ _
  · exact h

theorem SameCells.drawWindow (h : SameCells s s') (rows : Nat) (v : Viewport)
    (lines : List (List Glyph)) :
    SameCells (drawWindow s rows v lines) (drawWindow s' rows v lines) := by
  rw [drawWindow_eq, drawWindow_eq]
  generalize List.range rows = is
  induction is generalizing s s' with
  | nil => exact h
  | cons i is ih => exact ih (SameCells.drawRow h v lines i)

theorem SameCells.finish (h : SameCells s s') (text : Bytes) (row col : Int) :
    SameCells (finish s text row col) (finish s' text row col) := by
  obtain ⟨_, _, rfl⟩ := h
  exact ⟨_, _, rfl⟩

/-! ## Columns -/

/-- The columns that a character takes from a column on: those up to the next tab stop, two for a
control character, four for a raw byte, and one for every other. -/
def cellWidth (tabWidth : Int) (c : Int) (col : Nat) : Nat :=
  let stop := (col / tabWidth.toNat + 1) * tabWidth.toNat
  if c = tab then stop - col
  else if c < 0x20 ∨ c = rubout then 2
  else if isRaw c then 4
  else 1

/-- The column behind some characters of a line. -/
def column (tabWidth : Int) (line : List Int) : Nat :=
  line.foldl (fun col c => col + cellWidth tabWidth c col) 0

variable {tabWidth : Int} {col : Nat} {c : Int}

theorem tab_columns (htab : 1 ≤ tabWidth) (col : Nat) :
    (tabWidth - (col : Int).tmod tabWidth).toNat =
      (col / tabWidth.toNat + 1) * tabWidth.toNat - col := by
  obtain ⟨n, rfl⟩ := Int.eq_ofNat_of_zero_le (show 0 ≤ tabWidth by omega)
  have hmod : (col : Int).tmod n = ((col % n : Nat) : Int) := Int.ofNat_tmod col n
  have hdiv := Nat.div_add_mod col n
  rw [hmod, Int.toNat_natCast, Nat.add_mul, Nat.one_mul, Nat.mul_comm]
  omega

theorem width_eq_cellWidth (htab : 1 ≤ tabWidth) (c : Int) (col : Nat) :
    width tabWidth c col = cellWidth tabWidth c col := by
  have hrubout : rubout = 0x7F := rfl
  have hmax : maxUnicode = 0x10FFFF := rfl
  have hraw : isRaw c = true ↔ 0x3FFF7F < c := decide_eq_true_iff
  unfold width cellWidth
  by_cases h : c = tab
  · rw [if_pos h, if_neg (by rintro ⟨hhigh, -⟩; rw [h] at hhigh; exact absurd hhigh (by decide)),
      form, if_pos h, Bytes.blanks, List.length_replicate]
    exact tab_columns htab col
  · rw [if_neg h]
    split
    · rename_i hone
      rw [if_neg (by omega), if_neg hone.2.1]
    · rename_i hmany
      unfold form
      rw [if_neg h]
      by_cases hcontrol : c < 0x20 ∨ c = rubout
      · rw [if_pos hcontrol]
        split
        · rfl
        · rw [if_pos (by omega)]
          rfl
      · obtain ⟨hlow, hdelete⟩ := not_or.mp hcontrol
        rw [if_neg hcontrol, if_neg hdelete, if_neg hlow]
        by_cases hascii : c < 0x80
        · rw [if_pos hascii, if_neg fun hc => absurd (hraw.mp hc) (by omega)]
          rfl
        · rw [if_neg hascii]
          by_cases hbyte : isRaw c = true
          · rw [if_pos hbyte, if_pos hbyte]
            rfl
          · have hbeyond : maxUnicode < c := by
              by_contra hle
              exact hmany ⟨by omega, hbyte, by omega⟩
            rw [if_neg hbyte, if_neg hbyte, if_pos hbeyond]
            rfl

theorem lineWidth_eq_column (htab : 1 ≤ tabWidth) (line : List Letter) :
    lineWidth tabWidth line = column tabWidth (line.map (·.code)) := by
  unfold lineWidth column
  rw [List.foldl_map]
  exact List.foldl_ext _ _ _ fun col l _ => congrArg _ (width_eq_cellWidth htab l.code col)

/-! ## The line of the point -/

/-- There is one line more than there are newlines, and the last one is what is behind the last
newline. -/
theorem length_splitOn_newline (cs : List Int) :
    (cs.splitOn newline).length = cs.count newline + 1 ∧
      (cs.splitOn newline).getLastD [] = cs.rtakeWhile (· ≠ newline) := by
  induction cs using List.reverseRecOn with
  | nil => exact ⟨rfl, rfl⟩
  | append_singleton cs c ih =>
      obtain ⟨hlength, hlast⟩ := ih
      rw [splitOn_append, hlast, List.length_append, List.length_dropLast, hlength,
        List.count_append]
      by_cases hc : c = newline
      · subst hc
        rw [List.rtakeWhile_concat_neg _ _ _ (by simp)]
        exact ⟨rfl, by simp [List.splitOn_cons_eq_if_modifyHead]⟩
      · rw [List.rtakeWhile_concat_pos _ _ _ (by simpa using hc),
          List.splitOn_cons_eq_if_modifyHead, if_neg (fun h => hc (beq_iff_eq.mp h)),
          List.count_singleton, if_neg (fun h => hc (beq_iff_eq.mp h))]
        exact ⟨rfl, by simp⟩

/-- The accessible characters before the point. -/
def textBefore (b : Buffer) : List Int := (shown b).take (b.point.char - b.lower.char).toNat

theorem pointCell_eq_textBefore {b : Buffer} (htab : 1 ≤ tabWidth)
    (hpoint : b.lower.char ≤ b.point.char ∧ b.point.char ≤ b.upper.char) :
    pointCell tabWidth b = ((textBefore b).count newline,
      column tabWidth ((textBefore b).rtakeWhile (· ≠ newline))) := by
  have hfront : (textBefore b).splitOn newline = (splitLines
      ((accessible b).take (b.point.char - b.lower.char).toNat)).map (List.map (·.code)) := by
    rw [codes_splitLines, textBefore, shown, List.map_take]
  obtain ⟨hlength, hlast⟩ := length_splitOn_newline (textBefore b)
  rw [hfront, List.length_map] at hlength
  rw [hfront, List.getLastD_eq_getLast?, List.getLast?_map] at hlast
  unfold pointCell
  dsimp only
  rw [if_pos (by omega), hlength, Nat.add_sub_cancel, lineWidth_eq_column htab, ← hlast,
    List.getLastD_eq_getLast?]
  cases (splitLines ((accessible b).take _)).getLast? <;> rfl

/-- On a text these are the characters from the start of the accessible part up to the point. -/
theorem textBefore_eq {b : Buffer} {cs : List Int} (h : b.Sound cs)
    (hpoint : b.point.char ≤ b.upper.char) :
    textBefore b = ((cs.take (b.point.char - 1).toNat).drop (b.lower.char - 1).toNat).map
      (shownAs b.multibyte) := by
  have hlower := h.lower.one_le
  rw [textBefore, shown_eq h, ← List.map_take, List.drop_take, List.drop_take, List.take_take]
  congr 2
  omega

/-! ## The window -/

/-- A window of `n` lines or columns, from `start` on, has the one of number `x` in it. -/
def Sees (n x : Nat) (start : Int) : Prop := 0 ≤ start ∧ start ≤ x ∧ x < start + n

instance (n x : Nat) (start : Int) : Decidable (Sees n x start) :=
  inferInstanceAs (Decidable (_ ∧ _))

/-- Of all values with a property `y` is the one nearest to `x`, and `x` itself if it has it. -/
structure Nearest (P : Int → Prop) (x y : Int) : Prop where
  fits : P y
  stays : P x → y = x
  nearest : ∀ z, P z → z ≠ y → (y - x).natAbs < (z - x).natAbs

theorem scroll_nearest (v : Viewport) {rows cols : Nat} (cell : Nat × Nat) (hrows : 1 ≤ rows)
    (hcols : 1 ≤ cols) (htop : 0 ≤ v.top) (hleft : 0 ≤ v.left) :
    Nearest (Sees rows cell.1) v.top (scroll v rows cols cell).top ∧
      Nearest (Sees cols cell.2) v.left (scroll v rows cols cell).left := by
  have hrow : ∃ top, (scroll v rows cols cell).top = top ∧
      (cell.1 < v.top ∧ top = cell.1 ∨ v.top + rows ≤ cell.1 ∧ top = cell.1 - rows + 1 ∨
        v.top ≤ cell.1 ∧ cell.1 < v.top + rows ∧ top = v.top) := by
    refine ⟨_, rfl, ?_⟩
    unfold scroll
    dsimp only
    split <;> split <;> omega
  have hcol : ∃ left, (scroll v rows cols cell).left = left ∧
      (cell.2 < v.left ∧ left = cell.2 ∨ v.left + cols ≤ cell.2 ∧ left = cell.2 - cols + 1 ∨
        v.left ≤ cell.2 ∧ cell.2 < v.left + cols ∧ left = v.left) := by
    refine ⟨_, rfl, ?_⟩
    unfold scroll
    dsimp only
    split
    · omega
    · split <;> omega
  obtain ⟨top, htop', hrow⟩ := hrow
  obtain ⟨left, hleft', hcol⟩ := hcol
  rw [htop', hleft']
  unfold Sees
  exact ⟨⟨by omega, by omega, by omega⟩, by omega, by omega, by omega⟩

theorem scroll_of_sees {v : Viewport} {rows cols : Nat} {cell : Nat × Nat} (hrows : 1 ≤ rows)
    (hcols : 1 ≤ cols) (htop : Sees rows cell.1 v.top) (hleft : Sees cols cell.2 v.left) :
    scroll v rows cols cell = v := by
  obtain ⟨hrow, hcol⟩ := scroll_nearest v cell hrows hcols htop.1 hleft.1
  have htop' := hrow.stays htop
  have hleft' := hcol.stays hleft
  revert htop' hleft'
  generalize scroll v rows cols cell = v'
  rintro htop' hleft'
  obtain ⟨top, left⟩ := v'
  obtain rfl : top = v.top := htop'
  obtain rfl : left = v.left := hleft'
  rfl

section Again

variable {o : Overlaid} {v v' v₁ v₂ : Viewport} {message : Bytes} {before after : List Int}
  {s₁ s₂ s₁' s₂' : Screen}

/-- What is drawn is a matter of where the window is in the end and of the size of the screen. -/
theorem sameCells_render (hchains : o.chains = .ok (before, after)) (hrows : s₂.rows = s₁.rows)
    (hcols : s₂.cols = s₁.cols) (h₁ : render tabWidth s₁ o v₁ message = .ok (s₁', v))
    (h₂ : render tabWidth s₂ o v₂ message = .ok (s₂', v)) : SameCells s₁' s₂' := by
  obtain ⟨found, hspans⟩ := exists_spans hchains
  obtain ⟨status, hstatus⟩ := exists_statusLine hchains
  rw [render_eq hspans hstatus rfl rfl, Except.ok.injEq, Prod.mk.injEq] at h₁ h₂
  obtain ⟨rfl, hv₁⟩ := h₁
  obtain ⟨rfl, hv₂⟩ := h₂
  rw [hv₁, hv₂, hrows]
  exact SameCells.finish (SameCells.drawWindow (sameCells_clear hrows hcols) _ v _) _ _ _

/-- A window that need not be moved shows what is on the screen already. -/
theorem render_again (hchains : o.chains = .ok (before, after))
    (hrender : render tabWidth s o v message = .ok (s', v'))
    (hscroll : scroll v' (s.rows - 1) s.cols (pointCell tabWidth o.buffer) = v') :
    render tabWidth s' o v' message = .ok ({ s' with refreshes := s'.refreshes + 1 }, v') := by
  obtain ⟨found, hspans⟩ := exists_spans hchains
  obtain ⟨s₁, hfirst, hdrawn⟩ := exists_render tabWidth s v message hchains hspans
  obtain ⟨rfl, rfl⟩ : s₁ = s' ∧ _ = v' := by
    simpa using hfirst.symm.trans hrender
  obtain ⟨s₂, hsecond, hdrawn'⟩ := exists_render tabWidth s₁ (scroll v _ _ _) message hchains hspans
  rw [hdrawn.rows_eq, hdrawn.cols_eq, hscroll] at hsecond hdrawn'
  have hcells := sameCells_render hchains hdrawn.rows_eq hdrawn.cols_eq hrender hsecond
  rw [hsecond, hcells.eq_of_cursor (hdrawn'.cursor_eq.trans hdrawn.cursor_eq.symm),
    hdrawn'.refreshes_eq]

end Again

/-- Nothing but the chains can keep a buffer from being drawn. -/
theorem render_succeeds_iff (tabWidth : Int) (s : Screen) (o : Overlaid) (v : Viewport)
    (message : Bytes) :
    (∃ drawn, render tabWidth s o v message = .ok drawn) ↔ ∃ chains, o.chains = .ok chains := by
  constructor
  · rintro ⟨drawn, hrender⟩
    cases hchains : o.chains with
    | ok chains => exact ⟨chains, rfl⟩
    | error e =>
        unfold render spans Overlaid.linked at hrender
        rw [hchains] at hrender
        cases hrender
  · rintro ⟨⟨before, after⟩, hchains⟩
    obtain ⟨found, hspans⟩ := exists_spans hchains
    obtain ⟨s', hrender, -⟩ := exists_render tabWidth s v message hchains hspans
    exact ⟨_, hrender⟩

/-- **A window that follows the point.** A buffer can be drawn if its chains can be followed. Then
the line and the column of the point are in the window, and the cursor is on them. The window's top
line and its left column are those from before where the point is seen from there, and else the
nearest ones from which it is. Drawing once more, through this window, leaves all cells, the cursor
and the window as they are. -/
theorem render_follows_point (tabWidth : Int) (s : Screen) (o : Overlaid) (v : Viewport)
    (message : Bytes)
    (hpoint : o.buffer.lower.char ≤ o.buffer.point.char ∧
      o.buffer.point.char ≤ o.buffer.upper.char)
    (htab : 1 ≤ tabWidth) (hrows : 2 ≤ s.rows) (hcols : 1 ≤ s.cols) (htop : 0 ≤ v.top)
    (hleft : 0 ≤ v.left) :
    let text := textBefore o.buffer
    let row := text.count newline
    let col := column tabWidth (text.rtakeWhile (· ≠ newline))
    ((∃ drawn, render tabWidth s o v message = .ok drawn) ↔ ∃ chains, o.chains = .ok chains) ∧
      (∀ s' v', render tabWidth s o v message = .ok (s', v') →
        (0 ≤ v'.top ∧ v'.top ≤ row ∧ row < v'.top + (s.rows - 1 : Nat)) ∧
        (0 ≤ v'.left ∧ v'.left ≤ col ∧ col < v'.left + s.cols) ∧
        s'.cursor = (row - v'.top, col - v'.left) ∧
        Nearest (Sees (s.rows - 1) row) v.top v'.top ∧ Nearest (Sees s.cols col) v.left v'.left ∧
        render tabWidth s' o v' message = .ok ({ s' with refreshes := s'.refreshes + 1 }, v')) ∧
      ∀ cs, o.buffer.Sound cs → text =
        ((cs.take (o.buffer.point.char - 1).toNat).drop (o.buffer.lower.char - 1).toNat).map
          (shownAs o.buffer.multibyte) := by
  intro text row col
  refine ⟨render_succeeds_iff tabWidth s o v message, fun s' v' hrender => ?_,
    fun cs hcs => textBefore_eq hcs hpoint.2⟩
  obtain ⟨⟨before, after⟩, hchains⟩ :=
    (render_succeeds_iff tabWidth s o v message).mp ⟨_, hrender⟩
  obtain ⟨found, hspans⟩ := exists_spans hchains
  obtain ⟨s₁, hdrawing, hdrawn⟩ := exists_render tabWidth s v message hchains hspans
  obtain ⟨rfl, rfl⟩ : s₁ = s' ∧ _ = v' := by
    simpa using hdrawing.symm.trans hrender
  have hcell : pointCell tabWidth o.buffer = (row, col) := pointCell_eq_textBefore htab hpoint
  have hrows' : 1 ≤ s.rows - 1 := by omega
  obtain ⟨hrow, hcol⟩ := scroll_nearest v (row, col) hrows' hcols htop hleft
  have hstays := scroll_of_sees hrows' hcols hrow.fits hcol.fits
  have hcursor := hdrawn.cursor_eq
  rw [hcell] at hcursor
  refine ⟨?_, ?_, ?_, ?_, ?_, render_again hchains hrender ?_⟩ <;> rw [hcell]
  · exact hrow.fits
  · exact hcol.fits
  · exact hcursor
  · exact hrow
  · exact hcol
  · exact hstays

/-- A window too far down and too far to the left of a point behind a tab, a control character and a
raw byte. -/
theorem render_follows_point_back :
    let ks : List Buffer.Command :=
      [.insertExternal 1 [0xC3, 0xA9, 0x0A, 0x09, 0x01, 0xFF, 0x61], .narrow 2 7, .goTo 6]
    let b := ks.foldl Buffer.step { multibyte := true }
    textBefore b = [0x0A, 0x09, 0x01, 0x3FFFFF] ∧
      ∃ s' v', render 4 (ofSize 2 5) ⟨{}, b⟩ ⟨3, 0⟩ [] = .ok (s', v') ∧ v'.top = 1 ∧ v'.left = 6 ∧
        s'.cursor = (0, 4) ∧
        render 4 s' ⟨{}, b⟩ v' [] = .ok ({ s' with refreshes := s'.refreshes + 1 }, v') := by
  intro ks b
  have hks : Along Buffer.step Buffer.Admissible { multibyte := true } ks := by decide +kernel
  obtain ⟨hsucceeds, hshown, hbefore⟩ :=
    render_follows_point 4 (ofSize 2 5) ⟨{}, b⟩ ⟨3, 0⟩ [] (by decide +kernel) (by decide)
      (by decide) (by decide) (by decide) (by decide)
  obtain ⟨⟨s', v'⟩, hrender⟩ := hsucceeds.mpr ⟨([], []), by decide +kernel⟩
  obtain ⟨-, -, hcursor, hrow, hcol, hagain⟩ := hshown s' v' hrender
  have htext : textBefore b = [0x0A, 0x09, 0x01, 0x3FFFFF] :=
    (hbefore _ (Buffer.represents_run ks hks).1.sound).trans (by decide +kernel)
  have hcell : (textBefore b).count newline = 1 ∧
      column 4 ((textBefore b).rtakeWhile (· ≠ newline)) = 10 := by
    rw [htext]
    decide +kernel
  dsimp only at hcursor hrow hcol
  rw [hcell.1] at hrow hcursor
  rw [hcell.2] at hcol hcursor
  have htop : v'.top = 1 := by
    obtain ⟨-, hle, hlt⟩ : Sees 1 1 v'.top := hrow.fits
    omega
  have hleft : v'.left = 6 := by
    obtain ⟨-, hle, hlt⟩ : Sees 5 10 v'.left := hcol.fits
    have hnear := hcol.nearest 6 (by decide)
    omega
  refine ⟨htext, s', v', hrender, htop, hleft, ?_, hagain⟩
  rw [hcursor, htop, hleft]
  rfl

end Display

end GapText
