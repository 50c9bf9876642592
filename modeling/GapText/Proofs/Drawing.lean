import GapText.Display.Render
import Mathlib.Data.List.SplitBy

/-!
# Drawing into a grid

Every drawing call writes bytes into one row. On a grid whose rows have the length that they are
said to have, a row is told by its text, and what a call does is an equation on that text; all other
rows stay as they are (`OnlyRow`). Runs of glyphs that take as many columns as they have bytes are
then drawn as one text, whatever their attributes are.
-/

namespace GapText

namespace Screen

/-! ## One write -/

/-- A grid of the size that it is said to have. -/
structure Proper (s : Screen) : Prop where
  rows_eq : s.cells.length = s.rows
  cols_eq : ∀ line ∈ s.cells, line.length = s.cols

theorem proper_clear (s : Screen) : s.clear.Proper :=
  ⟨List.length_replicate, fun _ hline => by
    rw [List.eq_of_mem_replicate hline]
    exact List.length_replicate⟩

@[simp] theorem length_overwriteLine (line : List Cell) (col : Int) (text : Bytes) (attr : Int) :
    (overwriteLine line col text attr).length = line.length := List.length_mapIdx

/-- A text as cells of one attribute. -/
def colored (text : Bytes) (attr : Int) : List Cell := text.map fun byte => { byte, attr }

@[simp] theorem length_colored (text : Bytes) (attr : Int) :
    (colored text attr).length = text.length := List.length_map _

@[simp] theorem map_byte_colored (text : Bytes) (attr : Int) :
    (colored text attr).map (·.byte) = text := by
  simp [colored, Function.comp_def]

/-- A line is overwritten from a column on as far as the text reaches. -/
theorem overwriteLine_eq (cells : List Cell) {col : Nat} {text : Bytes} (attr : Int)
    (hfits : col + text.length ≤ cells.length) :
    overwriteLine cells col text attr =
      cells.take col ++ colored text attr ++ cells.drop (col + text.length) := by
  apply List.ext_getElem?
  intro j
  rw [overwriteLine, List.getElem?_mapIdx, List.append_assoc]
  rcases Nat.lt_or_ge j col with hj | hj
  · rw [List.getElem?_append_left (by rw [List.length_take]; omega), List.getElem?_take_of_lt hj]
    cases cells[j]? with
    | none => rfl
    | some cell => rw [Option.map_some, if_neg (by omega)]
  · have hlen : (cells.take col).length = col := by
      rw [List.length_take]
      omega
    rw [List.getElem?_append_right (by omega), hlen]
    have hoffset : ((j : Int) - col).toNat = j - col := by omega
    rcases Nat.lt_or_ge (j - col) text.length with hin | hout
    · rw [List.getElem?_append_left (by rw [length_colored]; exact hin), colored,
        List.getElem?_map, List.getElem?_eq_getElem (show j < cells.length by omega),
        Option.map_some, if_pos (by omega), hoffset, List.getElem?_eq_getElem hin]
      rfl
    · rw [List.getElem?_append_right (by rw [length_colored]; exact hout), length_colored,
        List.getElem?_drop, hoffset, List.getElem?_eq_none hout,
        show col + text.length + (j - col - text.length) = j by omega]
      cases cells[j]? with
      | none => rfl
      | some cell => rw [Option.map_some, ite_self]

theorem map_byte_overwriteLine (cells : List Cell) {col : Nat} {text : Bytes} (attr : Int)
    (hfits : col + text.length ≤ cells.length) :
    (overwriteLine cells col text attr).map (·.byte) =
      (cells.map (·.byte)).take col ++ text ++ (cells.map (·.byte)).drop (col + text.length) := by
  simp [overwriteLine_eq cells attr hfits, List.map_take, List.map_drop]

/-- Nothing but one row changes. -/
structure OnlyRow (r : Nat) (s s' : Screen) : Prop where
  rows_eq : s'.rows = s.rows
  cols_eq : s'.cols = s.cols
  proper : s.Proper → s'.Proper
  others : ∀ i : Nat, i ≠ r → s'.rowText i = s.rowText i

variable {r : Nat} {s s' s'' : Screen}

theorem OnlyRow.refl (r : Nat) (s : Screen) : OnlyRow r s s := ⟨rfl, rfl, id, fun _ _ => rfl⟩

theorem OnlyRow.trans (h : OnlyRow r s s') (h' : OnlyRow r s' s'') : OnlyRow r s s'' :=
  ⟨h'.rows_eq.trans h.rows_eq, h'.cols_eq.trans h.cols_eq, fun hs => h'.proper (h.proper hs),
    fun i hi => (h'.others i hi).trans (h.others i hi)⟩

theorem line_natCast (s : Screen) (i : Nat) : s.line i = (s.cells[i]?).getD [] := by
  unfold line
  rw [if_pos (Int.natCast_nonneg i), Int.toNat_natCast, List.getD_eq_getElem?_getD]

theorem Proper.length_line (h : s.Proper) (hr : r < s.rows) : (s.line r).length = s.cols := by
  rw [line_natCast, List.getElem?_eq_getElem (h.rows_eq ▸ hr), Option.getD_some]
  exact h.cols_eq _ (List.getElem_mem _)

theorem Proper.length_rowText (h : s.Proper) (hr : r < s.rows) : (s.rowText r).length = s.cols := by
  rw [rowText, List.length_map, h.length_line hr]

/-- A row that is not there stays empty, so this holds of every row. -/
theorem line_put (s : Screen) (row col : Int) (text : Bytes) (attr i : Int) :
    (s.put row col text attr).line i =
      if i = row then overwriteLine (s.line i) col text attr else s.line i := by
  unfold line
  by_cases hi : 0 ≤ i
  · rw [if_pos hi, if_pos hi, List.getD_eq_getElem?_getD, List.getD_eq_getElem?_getD]
    show ((s.cells.mapIdx _)[i.toNat]?).getD [] = _
    rw [List.getElem?_mapIdx]
    cases s.cells[i.toNat]? with
    | none => simp [overwriteLine]
    | some cells =>
        rw [Option.map_some, Option.getD_some, Option.getD_some, Int.toNat_of_nonneg hi]
  · simp [hi, overwriteLine]

theorem line_clear (s : Screen) {i : Nat} (hi : i < s.rows) :
    s.clear.line i = colored (Bytes.blanks s.cols) 0 := by
  rw [line_natCast]
  show ((List.replicate s.rows _)[i]?).getD [] = _
  rw [List.getElem?_replicate, if_pos hi, Option.getD_some, colored, Bytes.blanks,
    List.map_replicate]

theorem Proper.put (h : s.Proper) (row col : Int) (text : Bytes) (attr : Int) :
    (s.put row col text attr).Proper := by
  refine ⟨List.length_mapIdx.trans h.rows_eq, fun line hline => ?_⟩
  obtain ⟨i, hi, rfl⟩ := List.mem_mapIdx.mp hline
  have hlen := h.cols_eq _ (List.getElem_mem hi)
  split
  · rw [length_overwriteLine]
    exact hlen
  · exact hlen

theorem onlyRow_put (s : Screen) (r : Nat) (col : Int) (text : Bytes) (attr : Int) :
    OnlyRow r s (s.put r col text attr) := by
  refine ⟨rfl, rfl, fun h => h.put r col text attr, fun i hi => ?_⟩
  rw [rowText, rowText, line_put, if_neg (by omega)]

theorem rowText_put (h : s.Proper) (hr : r < s.rows) {col : Nat} {text : Bytes} (attr : Int)
    (hfits : col + text.length ≤ s.cols) :
    (s.put r col text attr).rowText r =
      (s.rowText r).take col ++ text ++ (s.rowText r).drop (col + text.length) := by
  rw [rowText, rowText, line_put, if_pos rfl]
  exact map_byte_overwriteLine _ attr (h.length_line hr ▸ hfits)

theorem put_nil (s : Screen) (row col : Int) (attr : Int) : s.put row col [] attr = s := by
  have hline : ∀ line : List Cell, overwriteLine line col [] attr = line := by
    intro line
    unfold overwriteLine
    refine List.ext_getElem List.length_mapIdx fun j _ _ => ?_
    rw [List.getElem_mapIdx]
    exact ite_self _
  have hcells : (s.cells.mapIdx fun i line =>
      if (i : Int) = row then overwriteLine line col [] attr else line) = s.cells := by
    refine List.ext_getElem List.length_mapIdx fun i _ _ => ?_
    rw [List.getElem_mapIdx, hline, ite_self]
  unfold put
  rw [hcells]

/-! ## Calls -/

theorem drawReversed_whole (s : Screen) (row col : Int) (text : Bytes) :
    s.drawReversed row col text 0 text.length = s.put row col text (-1) := by
  unfold drawReversed
  have hlo : min (max 0 (0 : Int)).toNat text.length = 0 := Nat.zero_min _
  have hhi : min text.length (0 + (max 0 (text.length : Int)).toNat) = text.length := by omega
  dsimp only
  rw [hlo, hhi, List.take_length, List.drop_length, List.take_zero, List.drop_zero, put_nil,
    put_nil]
  rw [Int.ofNat_zero, Int.add_zero]

/-- The calls for runs of different attributes write the same text. -/
theorem exists_drawRun_eq (s : Screen) (row col : Int) (text : Bytes) (attr : Int) :
    ∃ a, Display.drawRun s row col text attr = s.put row col text a := by
  unfold Display.drawRun
  split
  · exact ⟨0, rfl⟩
  · split
    · exact ⟨-1, drawReversed_whole s row col text⟩
    · exact ⟨attr, rfl⟩

theorem rowText_blankFrom (h : s.Proper) (hr : r < s.rows) {col : Nat} (hfits : col ≤ s.cols) :
    (s.blankFrom r col).rowText r = (s.rowText r).take col ++ Bytes.blanks (s.cols - col) := by
  have hlen := h.length_rowText hr
  have hcol : max 0 (col : Int) = col := by omega
  have hrest : ((s.cols : Int) - col).toNat = s.cols - col := by omega
  unfold blankFrom
  dsimp only
  rw [hcol, hrest, rowText_put h hr 0 (by rw [Bytes.blanks, List.length_replicate]; omega),
    Bytes.blanks, List.length_replicate, List.drop_eq_nil_of_le (by omega), List.append_nil]

theorem rowText_clear (s : Screen) {i : Nat} (hi : i < s.rows) :
    s.clear.rowText i = Bytes.blanks s.cols := by
  rw [rowText, line_clear s hi, map_byte_colored]

end Screen

namespace Display

open Screen

variable {r : Nat} {s : Screen}

/-! ## A row of glyphs -/

/-- The glyphs take as many columns as they have bytes. -/
def Even (glyphs : List Glyph) : Prop := ∀ g ∈ glyphs, g.width = g.text.length

/-- What a row of glyphs says. -/
def textOf (glyphs : List Glyph) : Bytes := glyphs.flatMap (·.text)

theorem runWidth_eq {glyphs : List Glyph} (h : Even glyphs) :
    runWidth glyphs = (textOf glyphs).length := by
  induction glyphs with
  | nil => rfl
  | cons g glyphs ih =>
      obtain ⟨hg, hglyphs⟩ := List.forall_mem_cons.mp h
      rw [runWidth, ih hglyphs, hg]
      exact List.length_append.symm

theorem onlyRow_drawRuns (s : Screen) (r : Nat) (col : Int) (runs : List (List Glyph)) :
    OnlyRow r s (drawRuns s r col runs) := by
  induction runs generalizing s col with
  | nil => exact onlyRow_put s r _ _ 0
  | cons run runs ih =>
      obtain ⟨a, hrun⟩ := exists_drawRun_eq s r col (textOf run) ((run.head?.map (·.attr)).getD 0)
      rw [drawRuns]
      refine OnlyRow.trans ?_ (ih _ _)
      show OnlyRow r s (drawRun s r col (textOf run) _)
      rw [hrun]
      exact onlyRow_put s r col _ a

/-- Runs are drawn side by side, so their bounds do not show in the text. -/
theorem rowText_drawRuns {runs : List (List Glyph)} (h : s.Proper) (hr : r < s.rows) {col : Nat}
    (heven : Even runs.flatten) (hfits : col + (textOf runs.flatten).length ≤ s.cols) :
    (drawRuns s r col runs).rowText r = (s.rowText r).take col ++ textOf runs.flatten ++
      Bytes.blanks (s.cols - (col + (textOf runs.flatten).length)) := by
  induction runs generalizing s col with
  | nil =>
      rw [drawRuns, rowText_blankFrom h hr (by omega)]
      show _ = _ ++ [] ++ Bytes.blanks (s.cols - (col + 0))
      rw [List.append_nil, Nat.add_zero]
  | cons run runs ih =>
      have htext : textOf (run :: runs).flatten = textOf run ++ textOf runs.flatten := by
        unfold textOf
        rw [List.flatten_cons, List.flatMap_append]
      rw [htext, List.length_append] at hfits ⊢
      obtain ⟨hrun, hruns⟩ : Even run ∧ Even runs.flatten :=
        ⟨fun g hg => heven g (List.mem_append_left _ hg),
          fun g hg => heven g (List.mem_append_right _ hg)⟩
      obtain ⟨a, hdraw⟩ := exists_drawRun_eq s r col (textOf run) ((run.head?.map (·.attr)).getD 0)
      have honly := onlyRow_put s r col (textOf run) a
      have hlen := h.length_rowText hr
      rw [drawRuns]
      show (drawRuns (drawRun s r col (textOf run) _) r (col + runWidth run) runs).rowText r = _
      rw [hdraw, runWidth_eq hrun, ← Int.natCast_add,
        ih (honly.proper h) hr hruns (by show _ ≤ s.cols; omega), rowText_put h hr a (by omega)]
      have htake : ((s.rowText r).take col ++ textOf run).length = col + (textOf run).length := by
        rw [List.length_append, List.length_take]
        omega
      rw [List.take_append_of_le_length (Nat.le_of_eq htake.symm),
        List.take_of_length_le (by omega), ← List.append_assoc, Nat.add_assoc]
      rfl

theorem rowText_drawLine {glyphs : List Glyph} (h : s.Proper) (hr : r < s.rows)
    (heven : Even glyphs) (hfits : (textOf glyphs).length ≤ s.cols) :
    (drawLine s r glyphs).rowText r =
      textOf glyphs ++ Bytes.blanks (s.cols - (textOf glyphs).length) := by
  have hflat := List.flatten_splitBy (fun g h : Glyph => g.attr == h.attr) glyphs
  have hdraw : (drawLine s r glyphs).rowText r = (s.rowText r).take 0 ++ _ ++ _ :=
    rowText_drawRuns h hr (hflat.symm ▸ heven) (by rw [hflat, Nat.zero_add]; exact hfits)
  rw [hdraw, hflat, List.take_zero, List.nil_append, Nat.zero_add]

end Display

end GapText
