import GapText.Proofs.Faces

/-!
# The attribute of every column

In a window whose left edge is the start of the lines, a letter that fits is drawn in the columns
that it takes in its line. What these columns are drawn with is told by the overlays on the chains
alone: by the last one with a face around the letter (`lastColor`). All other columns are plain
blanks. That holds of the row as it is in the end, so it does not matter how the letters are divided
into runs on the way, nor by which call a run is drawn.
-/

namespace GapText

/-- What the overlay draws the character behind a place with, if it has a face and lies around
it. -/
def Overlay.colorAt (r : Overlay) (x : Int) : Option Int := do
  let face ← r.props.get? (Bytes.ascii "face")
  let start ← r.start.char?
  let stop ← r.stop.char?
  if start ≤ x ∧ x < stop then some (Display.faceAttr face) else none

namespace Display

open Screen Code

/-! ## Colors -/

/-- The attribute that the last of some overlays gives to a place; plain if none of them does. -/
def lastColor (a : Arena) (ids : List Int) (x : Int) : Int :=
  (ids.reverse.findSome? fun id => (a.find? id).bind (·.colorAt x)).getD 0

variable {a : Arena} {ids : List Int} {id x : Int}

theorem colorAt_eq (a : Arena) (id x : Int) :
    (a.find? id).bind (·.colorAt x) =
      (spanOf a id).bind fun s => if s.Covers x then some s.attr else none := by
  unfold spanOf
  cases a.find? id with
  | none => rfl
  | some r =>
      show r.colorAt x = (span? r).bind _
      unfold Overlay.colorAt span?
      cases r.props.get? (Bytes.ascii "face") with
      | none => rfl
      | some face =>
          cases r.start.char? with
          | none => rfl
          | some start =>
              cases r.stop.char? with
              | none => rfl
              | some stop =>
                  show (if start ≤ x ∧ x < stop then some (faceAttr face) else none) =
                    (if start < stop then some (Span.mk start stop (faceAttr face))
                      else none).bind _
                  by_cases hx : start ≤ x ∧ x < stop
                  · rw [if_pos hx, if_pos (by omega)]
                    exact (if_pos hx).symm
                  · rw [if_neg hx]
                    split
                    · exact (if_neg hx).symm
                    · rfl

theorem attrAt_filterMap_spanOf (a : Arena) (ids : List Int) (x : Int) :
    attrAt (ids.filterMap (spanOf a)) x = lastColor a ids x := by
  induction ids using List.reverseRecOn with
  | nil => rfl
  | append_singleton ids id ih =>
      unfold lastColor at ih ⊢
      rw [List.reverse_concat, List.findSome?_cons, colorAt_eq, List.filterMap_append]
      cases hid : spanOf a id with
      | none =>
          rw [List.filterMap_cons_none hid, List.filterMap_nil, List.append_nil]
          exact ih
      | some s =>
          rw [List.filterMap_cons_some hid, List.filterMap_nil, attrAt_append_singleton, ih,
            Option.bind_some]
          split <;> rfl

/-! ## Letters in their columns -/

/-- The characters that are drawn as ASCII text: beside the plain ones those beyond Unicode, for
which a question mark is drawn. -/
def HasAsciiForm (c : Int) : Prop := IsPlain c ∨ maxUnicode < c

instance (c : Int) : Decidable (HasAsciiForm c) := inferInstanceAs (Decidable (_ ∨ _))

/-- In a line that starts in column `x`, the letter stands in column `col`. -/
def LetterAt (tab : Int) (x : Nat) (line : List Letter) (col : Nat) (l : Letter) : Prop :=
  ∃ pre post, line = pre ++ l :: post ∧ extent tab x (pre.map (·.code)) = col

variable {tab : Int} {cols col n : Nat} {l d : Letter} {line rest : List Letter} {found : List Span}
  {cells row : List Cell} {attr : Int → Int}

theorem HasAsciiForm.width_eq {c : Int} (h : HasAsciiForm c) (col : Nat) :
    width tab c col = (form tab c col).length := by
  rcases h with h | h
  · exact Display.width_eq h col
  · unfold width
    rw [if_neg]
    omega

theorem letterAt_cons :
    LetterAt tab n (d :: rest) col l ↔
      col = n ∧ l = d ∨ LetterAt tab (n + (form tab d.code n).length) rest col l := by
  constructor
  · rintro ⟨pre, post, hline, rfl⟩
    cases pre with
    | nil => exact Or.inl ⟨rfl, (List.cons.inj hline).1.symm⟩
    | cons e pre =>
        obtain ⟨rfl, hrest⟩ := List.cons.inj hline
        exact Or.inr ⟨pre, post, hrest, rfl⟩
  · rintro (⟨rfl, rfl⟩ | ⟨pre, post, rfl, rfl⟩)
    · exact ⟨[], rest, rfl, rfl⟩
    · exact ⟨d :: pre, post, rfl, rfl⟩

theorem LetterAt.le (h : LetterAt tab n line col l) : n ≤ col := by
  obtain ⟨pre, -, -, rfl⟩ := h
  exact le_extent tab n _

/-- The letter takes its columns, and they are among the first `cols` ones. -/
def Fits (tab : Int) (cols : Nat) (n : Nat) (line : List Letter) (col : Nat) (l : Letter) : Prop :=
  LetterAt tab n line col l ∧ col + (form tab l.code col).length ≤ cols

/-- Cells that start in column `n`, as the line does: its letters that fit are in their columns,
with the attributes of their places, and there is nothing else. -/
structure Inks (tab : Int) (cols n : Nat) (attr : Int → Int) (line : List Letter)
    (cells : List Cell) : Prop where
  drawn : ∀ col l, Fits tab cols n line col l →
    (cells.drop (col - n)).take (form tab l.code col).length =
      colored (form tab l.code col) (attr l.place)
  covered : ∀ q < cells.length, ∃ col l, Fits tab cols n line col l ∧ col ≤ n + q ∧
    n + q < col + (form tab l.code col).length

/-- A letter that fits is drawn in front of what is drawn of the rest. -/
theorem Inks.cons (hfits : n + (form tab d.code n).length ≤ cols)
    (h : Inks tab cols (n + (form tab d.code n).length) attr rest cells) :
    Inks tab cols n attr (d :: rest) (colored (form tab d.code n) (attr d.place) ++ cells) := by
  have hlen : (colored (form tab d.code n) (attr d.place)).length = (form tab d.code n).length :=
    List.length_map _
  constructor
  · rintro col l ⟨hat, hend⟩
    rcases letterAt_cons.mp hat with ⟨rfl, rfl⟩ | hat
    · rw [Nat.sub_self, List.drop_zero, ← hlen, List.take_left]
    · have hle := hat.le
      rw [show col - n = (colored (form tab d.code n) (attr d.place)).length +
          (col - (n + (form tab d.code n).length)) by omega, ← List.drop_drop, List.drop_left]
      exact h.drawn col l ⟨hat, hend⟩
  · intro q hq
    rcases Nat.lt_or_ge q (form tab d.code n).length with hin | hout
    · exact ⟨n, d, ⟨letterAt_cons.mpr (Or.inl ⟨rfl, rfl⟩), hfits⟩, by omega, by omega⟩
    · rw [List.length_append, hlen] at hq
      obtain ⟨col, l, ⟨hat, hend⟩, hle, hlt⟩ :=
        h.covered (q - (form tab d.code n).length) (by omega)
      exact ⟨col, l, ⟨letterAt_cons.mpr (Or.inr hat), hend⟩, by omega, by omega⟩

/-- Behind a letter that does not fit none does. -/
theorem inks_nil (h : ∀ col l, ¬ Fits tab cols n line col l) : Inks tab cols n attr line [] :=
  ⟨fun col l hfits => absurd hfits (h col l), fun q hq => absurd hq (Nat.not_lt_zero q)⟩

theorem visible_of_lt (h : cols < n) (glyphs : List Glyph) : visible 0 cols n glyphs = [] := by
  induction glyphs generalizing n with
  | nil => rfl
  | cons g rest ih =>
      rw [visible, if_neg (by omega)]
      exact ih (by omega)

theorem inks_visible (hattr : ∀ x, -1 ≤ attrAt found x) (h : ∀ l ∈ line, HasAsciiForm l.code) :
    Inks tab cols n (attrAt found) line
      (ink (visible 0 cols n (glyphsFrom tab found n line))) := by
  induction line generalizing n with
  | nil =>
      refine inks_nil ?_
      rintro col l ⟨⟨pre, post, hline, -⟩, -⟩
      exact absurd hline (by simp)
  | cons d rest ih =>
      obtain ⟨hd, hrest⟩ := List.forall_mem_cons.mp h
      rw [glyphsFrom, hd.width_eq, visible]
      dsimp only
      by_cases hfits : n + (form tab d.code n).length ≤ cols
      · rw [if_pos (by omega)]
        have hinks := (ih hrest).cons hfits
        unfold ink at hinks ⊢
        rwa [List.flatMap_cons, Int.max_eq_left (hattr d.place)]
      · rw [if_neg (by omega), visible_of_lt (by omega)]
        refine inks_nil ?_
        rintro col l ⟨hat, hend⟩
        rcases letterAt_cons.mp hat with ⟨rfl, rfl⟩ | hat
        · exact hfits hend
        · have hle := hat.le
          omega

/-! ## Rows -/

/-- A row in which the letters of a line that fit are in their columns, with the attributes of their
places, and all other columns are plain blanks. -/
structure ShowsLetters (tab : Int) (cols : Nat) (attr : Int → Int) (line : List Letter)
    (row : List Cell) : Prop where
  drawn : ∀ col l, Fits tab cols 0 line col l →
    (row.drop col).take (form tab l.code col).length = colored (form tab l.code col) (attr l.place)
  blank : ∀ q < cols, (∀ col l, Fits tab cols 0 line col l →
    q < col ∨ col + (form tab l.code col).length ≤ q) → row[q]? = some {}

theorem Inks.showsLetters (h : Inks tab cols 0 attr line cells) :
    ShowsLetters tab cols attr line
      (cells ++ colored (Bytes.blanks (cols - cells.length)) 0) := by
  constructor
  · intro col l hfits
    have hdrawn := h.drawn col l hfits
    rw [Nat.sub_zero] at hdrawn
    have hwithin := congrArg List.length hdrawn
    rw [List.length_take, List.length_drop, colored, List.length_map] at hwithin
    rcases Nat.eq_zero_or_pos (form tab l.code col).length with hnil | hpos
    · rw [hnil, List.take_zero, List.length_eq_zero_iff.mp hnil]
      rfl
    · rw [List.drop_append_of_le_length (by omega),
        List.take_append_of_le_length (by rw [List.length_drop]; omega), hdrawn]
  · intro q hq hfree
    rcases Nat.lt_or_ge q cells.length with hin | hout
    · obtain ⟨col, l, hfits, hle, hlt⟩ := h.covered q hin
      rcases hfree col l hfits with hbefore | hbehind <;> omega
    · rw [List.getElem?_append_right hout, colored, Bytes.blanks, List.map_replicate,
        List.getElem?_replicate, if_pos (by omega)]

/-- The columns of a letter, one by one. -/
theorem ShowsLetters.attr_eq (h : ShowsLetters tab cols attr line row)
    (hfits : Fits tab cols 0 line col l) {q : Nat} (hle : col ≤ q)
    (hlt : q < col + (form tab l.code col).length) : (row.getD q {}).attr = attr l.place := by
  have hq : row[q]? = (colored (form tab l.code col) (attr l.place))[q - col]? := by
    rw [← h.drawn col l hfits, List.getElem?_take, if_pos (by omega), List.getElem?_drop]
    congr 1
    omega
  have hbyte : (form tab l.code col)[q - col]? = some (form tab l.code col)[q - col] :=
    List.getElem?_eq_getElem (by omega)
  rw [List.getD_eq_getElem?_getD, hq, colored, List.getElem?_map, hbyte]
  rfl

/-! ## Drawn buffers -/

section Drawings

variable {s s' s₀ : Screen} {b : Buffer} {v : Viewport} {i : Nat} {runs : List (List Glyph)}

/-- The letters of the line of this number; none if there is no such line. -/
def lettersOf (b : Buffer) (i : Int) : List Letter := (lettersAt b i).getD []

theorem hasAsciiForm_of_lettersOf (hascii : ∀ c ∈ shown b, HasAsciiForm c) (i : Int) :
    ∀ l ∈ lettersOf b i, HasAsciiForm l.code := by
  intro l hl
  refine hascii _ (List.mem_map_of_mem ?_)
  unfold lettersOf at hl
  cases hline : lettersAt b i with
  | none =>
      rw [hline] at hl
      exact absurd hl List.not_mem_nil
  | some line =>
      rw [hline] at hl
      exact mem_accessible_of_lettersAt hline l hl

/-- A row of a drawn buffer: the cells of its letters side by side, with blanks behind. -/
theorem Drawn.line_eq_ink (h : Drawn tab s b found v s') (hi : i < s.rows - 1)
    (hascii : ∀ c ∈ shown b, HasAsciiForm c) :
    let drawn := ink (visible v.left s.cols 0 (glyphsFrom tab found 0 (lettersOf b (v.top + i))))
    s'.line i = drawn ++ colored (Bytes.blanks (s.cols - drawn.length)) 0 := by
  have hletters := hasAsciiForm_of_lettersOf hascii (v.top + i)
  rw [h.line_eq i hi, lineAt_lines]
  unfold lettersOf at hletters ⊢
  cases hline : lettersAt b (v.top + i) with
  | none => rfl
  | some line =>
      rw [hline] at hletters
      exact rowCells_eq (even_visible fun l hl => (hletters l hl).width_eq)

/-- A row is what is drawn of its letters, divided into runs in any way, on a blank row. -/
theorem Drawn.line_eq_drawRuns (h : Drawn tab s b found v s') (hi : i < s.rows - 1)
    (hascii : ∀ c ∈ shown b, HasAsciiForm c) (hcols : s₀.cols = s.cols)
    (hblank : s₀.line i = colored (Bytes.blanks s.cols) 0)
    (hflat : runs.flatten = visible v.left s.cols 0
      (glyphsFrom tab found 0 (lettersOf b (v.top + i))))
    (hruns : ∀ run ∈ runs, Uniform run) : (drawRuns s₀ i 0 runs).line i = s'.line i := by
  have hletters := hasAsciiForm_of_lettersOf hascii (v.top + i)
  rw [line_drawRuns, if_pos rfl, hcols, hblank, h.line_eq_ink hi hascii]
  exact paint_visible (even_visible fun l hl => (hletters l hl).width_eq) hflat hruns

theorem Drawn.showsLetters (h : Drawn tab s b found v s') (hi : i < s.rows - 1)
    (hleft : v.left = 0) (hascii : ∀ c ∈ shown b, HasAsciiForm c)
    (hattr : ∀ x, -1 ≤ attrAt found x) :
    ShowsLetters tab s.cols (attrAt found) (lettersOf b (v.top + i)) (s'.line i) := by
  rw [h.line_eq_ink hi hascii, hleft]
  exact (inks_visible hattr (hasAsciiForm_of_lettersOf hascii _)).showsLetters

end Drawings

/-- Which call a run is drawn by does not show. -/
theorem drawRun_eq_put {attr : Int} (hattr : -1 ≤ attr) (s : Screen) (row col : Int)
    (text : Bytes) : drawRun s row col text attr = s.put row col text attr := by
  rw [drawRun_eq, Int.max_eq_left hattr]

end Display

namespace Workspace

open Screen Display

/-- **The attribute of every column.** In every state of a workspace, a buffer whose characters are
drawn as ASCII text is drawn, and when the window starts at the left end of the lines, each of its
rows holds the letters of one line: every letter that fits is in the columns that it takes, and all
of these have the attribute of the last overlay, in the order of the two chains, that has a face and
lies around the letter; they are plain if there is none. All other columns are plain blanks. Drawing
the same letters on a blank row in any other division into runs of one attribute comes to the same,
and so do the three ways to draw a run. -/
theorem render_attributes (multibyte : Bool) (arenas markers : Nat) (ks : List Command)
    (h : Along step Allowed (start multibyte arenas markers) ks) :
    let w := ks.foldl step (start multibyte arenas markers)
    ∀ a b o, w.overlaid? a b = some o → w.IsHome a b → (∀ c ∈ shown o.buffer, HasAsciiForm c) →
      ∀ (tab : Int) (s : Screen) (v : Viewport) (message : Bytes),
        let v' := scroll v (s.rows - 1) s.cols (pointCell tab o.buffer)
        ∃ before after found s', o.chains = .ok (before, after) ∧ spans o = .ok found ∧
          render tab s o v message = .ok (s', v') ∧
          (v'.left = 0 → ∀ i : Nat, i < s.rows - 1 →
            let line := lettersOf o.buffer (v'.top + i)
            (∀ col l, Fits tab s.cols 0 line col l →
              ((s'.rowText i).drop col).take (form tab l.code col).length = form tab l.code col ∧
                ∀ q : Nat, col ≤ q → q < col + (form tab l.code col).length →
                  s'.attrAt i q = lastColor o.arena (before ++ after) l.place) ∧
            (∀ q : Nat, q < s.cols → (∀ col l, Fits tab s.cols 0 line col l →
                q < col ∨ col + (form tab l.code col).length ≤ q) →
              (s'.rowText i)[q]? = some 32 ∧ s'.attrAt i q = 0) ∧
            ∀ s₀ : Screen, s₀.cols = s.cols → s₀.line i = colored (Bytes.blanks s.cols) 0 →
              ∀ runs : List (List Glyph),
                runs.flatten = visible 0 s.cols 0 (glyphsFrom tab found 0 line) →
                (∀ run ∈ runs, Uniform run) → (drawRuns s₀ i 0 runs).line i = s'.line i) ∧
          (∀ (s₀ : Screen) (row col : Int) (text : Bytes) (attr : Int), -1 ≤ attr →
            drawRun s₀ row col text attr = s₀.put row col text attr) ∧
          accessible o.buffer =
            (shown o.buffer).mapIdx (fun i c => ⟨o.buffer.lower.char + i, c⟩) ∧
          ∀ cs, o.buffer.Sound cs → shown o.buffer =
            ((cs.take (o.buffer.upper.char - 1).toNat).drop (o.buffer.lower.char - 1).toNat).map
              (shownAs o.buffer.multibyte) := by
  intro w a b o ho hhome hascii tab s v message v'
  obtain ⟨before, after, hhung⟩ := (indexed_run ks h).hung b
  have hchains := (hhung.indexed ho hhome).chains_eq
  have hspans := spans_eq hchains
  obtain ⟨s', hrender, hdrawn⟩ := exists_render tab s v message hchains hspans
  have hattr : ∀ x, -1 ≤ attrAt ((before ++ after).filterMap (spanOf o.arena)) x := by
    refine neg_one_le_attrAt fun s hs => ?_
    obtain ⟨id, -, hid⟩ := List.mem_filterMap.mp hs
    exact (ends_of_spanOf hid).2.2
  refine ⟨before, after, _, s', hchains, hspans, hrender, fun hleft i hi => ?_,
    fun s₀ row col text attr h => drawRun_eq_put h s₀ row col text, accessible_eq o.buffer,
    fun cs hcs => shown_eq hcs⟩
  have hshows := hdrawn.showsLetters hi hleft hascii hattr
  have hattrAt : ∀ q : Nat, s'.attrAt i q = ((s'.line i).getD q {}).attr := fun q => by
    rw [Screen.attrAt, if_pos (Int.natCast_nonneg q), Int.toNat_natCast]
  refine ⟨fun col l hfits => ⟨?_, fun q hle hlt => ?_⟩, fun q hq hfree => ?_,
    fun s₀ hcols hblank runs hflat hruns =>
      hdrawn.line_eq_drawRuns hi hascii hcols hblank (hleft ▸ hflat) hruns⟩
  · rw [Screen.rowText, ← List.map_drop, ← List.map_take, hshows.drawn col l hfits, colored,
      List.map_map]
    exact List.map_id _
  · rw [hattrAt, hshows.attr_eq hfits hle hlt, attrAt_filterMap_spanOf]
  · have hcell := hshows.blank q hq hfree
    rw [hattrAt, List.getD_eq_getElem?_getD, Screen.rowText, List.getElem?_map, hcell]
    exact ⟨rfl, rfl⟩

/-- A tab and a control character under two overlays, of which the one that is linked last shows
where both are, and a letter for which there is no room. -/
theorem render_attributes_overlapping :
    let face : String → Properties := fun name => [(Bytes.ascii "face", Bytes.ascii name)]
    let ks : List Command :=
      [.edit 0 (.insert 1 [0x61, 0x09, 0x62, 0x01, 0x63, 0x64]), .edit 0 (.goTo 1),
        .makeOverlay 0 0 1 4 (face "match"), .makeOverlay 0 0 3 6 (face "other")]
    let w := ks.foldl step (start true 1 0)
    ∃ o s', w.overlaid? 0 0 = some o ∧ o.chains = .ok ([], [0, 1]) ∧
      render 8 (Screen.ofSize 3 12) o {} [] = .ok (s', {}) ∧ s'.attrAt 0 7 = 1 ∧
      s'.attrAt 0 8 = -1 ∧ s'.attrAt 0 10 = -1 ∧ s'.attrAt 1 0 = 0 := by
  intro face ks w
  have hks : Along step Allowed (start true 1 0) ks := by decide +kernel
  obtain ⟨o, ho, hcell, hletters⟩ : ∃ o, w.overlaid? 0 0 = some o ∧ pointCell 8 o.buffer = _ ∧ _ :=
    exists_overlaid_of_text _ 1 4 3 6 (face "match") (face "other") (by decide +kernel)
  have hcolors : (w.overlaid? 0 0).map (fun o => [2, 3, 4].map (lastColor o.arena [0, 1])) =
      some [1, -1, -1] := by decide +kernel
  have hlists : (w.overlaid? 0 0).map Overlaid.chains = some (.ok ([], [0, 1])) := by
    decide +kernel
  rw [ho, Option.map_some, Option.some.injEq] at hcolors hlists
  have hascii : ∀ c ∈ shown o.buffer, HasAsciiForm c := by
    unfold shown
    rw [hletters]
    decide +kernel
  obtain ⟨before, after, found, s', hchains, -, hrender, hrows, -⟩ :=
    render_attributes true 1 0 ks hks 0 0 o ho (by decide +kernel) hascii 8 (Screen.ofSize 3 12)
      {} []
  have hwindow : scroll {} ((Screen.ofSize 3 12).rows - 1) (Screen.ofSize 3 12).cols
      (pointCell 8 o.buffer) = {} := by
    rw [hcell]
    decide +kernel
  rw [hwindow] at hrender hrows
  cases hchains.symm.trans hlists
  have hline : lettersOf o.buffer 0 =
      [⟨1, 0x61⟩, ⟨2, 0x09⟩, ⟨3, 0x62⟩, ⟨4, 0x01⟩, ⟨5, 0x63⟩, ⟨6, 0x64⟩] := by
    unfold lettersOf lettersAt
    rw [hletters]
    decide +kernel
  have hempty : lettersOf o.buffer 1 = [] := by
    unfold lettersOf lettersAt
    rw [hletters]
    decide +kernel
  obtain ⟨htab, hshared, hcontrol⟩ : lastColor o.arena [0, 1] 2 = 1 ∧
      lastColor o.arena [0, 1] 3 = -1 ∧ lastColor o.arena [0, 1] 4 = -1 := by
    simpa using hcolors
  obtain ⟨hdrawn, -⟩ := hrows rfl 0 (by decide)
  obtain ⟨-, hblank, -⟩ := hrows rfl 1 (by decide)
  change ∀ col l, Fits 8 12 0 (lettersOf o.buffer 0) col l → _ at hdrawn
  change ∀ q : Nat, q < 12 → (∀ col l, Fits 8 12 0 (lettersOf o.buffer 1) col l → _) → _ at hblank
  rw [hline] at hdrawn
  rw [hempty] at hblank
  refine ⟨o, s', ho, hlists, hrender, ?_, ?_, ?_, ?_⟩
  · exact ((hdrawn 1 ⟨2, 0x09⟩ ⟨⟨[_], _, rfl, by decide +kernel⟩, by decide +kernel⟩).2 7
      (by decide) (by decide +kernel)).trans htab
  · exact ((hdrawn 8 ⟨3, 0x62⟩ ⟨⟨[_, _], _, rfl, by decide +kernel⟩, by decide +kernel⟩).2 8
      (by decide) (by decide +kernel)).trans hshared
  · exact ((hdrawn 9 ⟨4, 0x01⟩ ⟨⟨[_, _, _], _, rfl, by decide +kernel⟩, by decide +kernel⟩).2 10
      (by decide) (by decide +kernel)).trans hcontrol
  · refine (hblank 0 (by decide) fun col l hfits => ?_).2
    obtain ⟨⟨pre, post, hnil, -⟩, -⟩ := hfits
    exact absurd hnil (by simp)

end Workspace

end GapText
