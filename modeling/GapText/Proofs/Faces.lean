import GapText.Proofs.Making
import GapText.Proofs.Recentering
import GapText.Proofs.Rows

/-!
# Which face shows

The attribute of a place is that of the last stretch around it, in the order of the chains, so of
overlapping faces the one that shows is a matter of this order. Recentering deals the same overlays
out anew: first those that end before the new center, by falling end, then the others by rising
start. After it, what shows at a place depends on where the stretches around it lie (`Yields`), and
no longer on the order in which the overlays came; where all of them have one face nothing changes.
-/

namespace GapText

namespace Display

open Screen

/-! ## The attribute of a place -/

/-- The place before a character that the stretch colors. -/
def Span.Covers (s : Span) (x : Int) : Prop := s.start ≤ x ∧ x < s.stop

instance (s : Span) (x : Int) : Decidable (s.Covers x) := inferInstanceAs (Decidable (_ ∧ _))

/-- All stretches around the place have one attribute. -/
def Agreed (spans : List Span) (x : Int) : Prop :=
  ∀ s ∈ spans, ∀ t ∈ spans, s.Covers x → t.Covers x → s.attr = t.attr

instance (spans : List Span) (x : Int) : Decidable (Agreed spans x) :=
  inferInstanceAs (Decidable (∀ _ ∈ _, _))

variable {found found' : List Span} {x p : Int}

theorem attrAt_append_singleton (found : List Span) (s : Span) (x : Int) :
    attrAt (found ++ [s]) x = if s.Covers x then s.attr else attrAt found x := by
  unfold attrAt
  rw [List.foldl_append]
  rfl

/-- The last one around a place shows there; those in front of it yield to it. -/
theorem exists_attrAt {R : Span → Span → Prop} (hrefl : ∀ s, R s s) (hsorted : found.Pairwise R)
    (hcovered : ∃ s ∈ found, s.Covers x) :
    ∃ s ∈ found, s.Covers x ∧ attrAt found x = s.attr ∧ ∀ t ∈ found, t.Covers x → R t s := by
  induction found using List.reverseRecOn with
  | nil =>
      obtain ⟨s, hs, -⟩ := hcovered
      exact absurd hs List.not_mem_nil
  | append_singleton found last ih =>
      obtain ⟨hfront, -, hlast⟩ := List.pairwise_append.mp hsorted
      rw [attrAt_append_singleton]
      by_cases hx : last.Covers x
      · refine ⟨last, by simp, hx, if_pos hx, fun t ht _ => ?_⟩
        rcases List.mem_append.mp ht with ht | ht
        · exact hlast t ht last (by simp)
        · rw [List.mem_singleton.mp ht]
          exact hrefl last
      · have hne : ∀ t ∈ found ++ [last], t.Covers x → t ∈ found := by
          intro t ht hcovers
          rcases List.mem_append.mp ht with ht | ht
          · exact ht
          · rw [List.mem_singleton.mp ht] at hcovers
            exact absurd hcovers hx
        obtain ⟨s, hs, hcovers⟩ := hcovered
        obtain ⟨s, hs, hcovers, hattr, hyield⟩ := ih hfront ⟨s, hne s hs hcovers, hcovers⟩
        exact ⟨s, List.mem_append_left _ hs, hcovers, by rw [if_neg hx, hattr],
          fun t ht hcovers => hyield t (hne t ht hcovers) hcovers⟩

theorem attrAt_eq_zero (h : ∀ s ∈ found, ¬ s.Covers x) : attrAt found x = 0 := by
  induction found using List.reverseRecOn with
  | nil => rfl
  | append_singleton found last ih =>
      rw [attrAt_append_singleton, if_neg (h last (by simp))]
      exact ih fun s hs => h s (List.mem_append_left _ hs)

/-- The order does not matter where all stretches agree. -/
theorem Agreed.attrAt_eq (h : Agreed found x) (hperm : found'.Perm found) :
    attrAt found' x = attrAt found x := by
  by_cases hcovered : ∃ s ∈ found, s.Covers x
  · obtain ⟨s, hs, hx, hattr, -⟩ := exists_attrAt (R := fun _ _ => True) (fun _ => trivial)
      (List.pairwise_of_forall fun _ _ => trivial) hcovered
    have hcovered' : ∃ s ∈ found', s.Covers x :=
      hcovered.imp fun s hs => ⟨hperm.mem_iff.mpr hs.1, hs.2⟩
    obtain ⟨t, ht, hx', hattr', -⟩ := exists_attrAt (R := fun _ _ => True) (fun _ => trivial)
      (List.pairwise_of_forall fun _ _ => trivial) hcovered'
    rw [hattr, hattr']
    exact h t (hperm.mem_iff.mp ht) s hs hx' hx
  · rw [attrAt_eq_zero fun s hs hx => hcovered ⟨s, hs, hx⟩,
      attrAt_eq_zero fun s hs hx => hcovered ⟨s, hperm.mem_iff.mp hs, hx⟩]

/-- Faces are drawn in color or reversed. -/
theorem neg_one_le_attrAt (h : ∀ s ∈ found, -1 ≤ s.attr) (x : Int) : -1 ≤ attrAt found x := by
  induction found using List.reverseRecOn with
  | nil => exact (by decide : (-1 : Int) ≤ 0)
  | append_singleton found last ih =>
      rw [attrAt_append_singleton]
      split
      · exact h last (by simp)
      · exact ih fun s hs => h s (List.mem_append_left _ hs)

/-! ## The stretches of an arena -/

variable {a a' : Arena} {ids : List Int} {id : Int}

/-- The stretch that an overlay of an arena colors, if it colors one. -/
def spanOf (a : Arena) (id : Int) : Option Span := (a.find? id).bind span?

theorem spans_eq {o : Overlaid} {before after : List Int}
    (hchains : o.chains = .ok (before, after)) :
    spans o = .ok ((before ++ after).filterMap (spanOf o.arena)) := by
  unfold spans Overlaid.linked
  rw [hchains]
  rfl

/-- A stretch lies between the ends of its overlay. -/
theorem ends_of_spanOf {s : Span} (h : spanOf a id = some s) :
    s.start = a.startChar id ∧ s.stop = a.stopChar id ∧ -1 ≤ s.attr := by
  obtain ⟨r, hr, hs⟩ := Option.bind_eq_some_iff.mp h
  simp only [span?, Option.bind_eq_bind, Option.bind_eq_some_iff, Marker.char?,
    Option.map_eq_some_iff] at hs
  obtain ⟨face, -, start, ⟨_, -, rfl⟩, stop, ⟨_, -, rfl⟩, hs⟩ := hs
  split at hs
  · cases hs
    unfold Arena.startChar Arena.stopChar faceAttr
    rw [hr]
    refine ⟨rfl, rfl, ?_⟩
    dsimp only
    split
    · decide
    · split <;> decide
  · cases hs

/-- Links do not color. -/
theorem spanOf_congr (h : (a'.find? id).map Overlay.loose = (a.find? id).map Overlay.loose) :
    spanOf a' id = spanOf a id :=
  Arena.congr_loose (f := fun r => r.bind span?) h (by rintro (_ | r) <;> rfl)

/-! ## Recentering -/

/-- After recentering at `p`, what shows where both stretches are is not `t` alone: of two that do
not end before `p` the one that starts later shows, of two that do the one that ends earlier, and
those that do not end before `p` show over those that do. -/
def Yields (p : Int) (t s : Span) : Prop :=
  if t.stop < p then s.stop < p → s.stop ≤ t.stop else p ≤ s.stop ∧ t.start ≤ s.start

instance (p : Int) (t s : Span) : Decidable (Yields p t s) := by
  unfold Yields
  infer_instance

theorem yields_refl (p : Int) (s : Span) : Yields p s s := by
  unfold Yields
  split
  · exact fun _ => Int.le_refl _
  · exact ⟨by omega, Int.le_refl _⟩

/-- The chains of a recentered buffer, the stretches on them in order. -/
theorem pairwise_yields (a : Arena) (p : Int) (ids : List Int) :
    ((Overlaid.ended a p ids ++ Overlaid.others a p ids).filterMap (spanOf a)).Pairwise
      (Yields p) := by
  rw [List.pairwise_filterMap]
  refine List.pairwise_append.mpr ⟨?_, ?_, ?_⟩
  · have hended := (Overlaid.stablySorted_ended a p ids).ordered
    refine hended.imp_of_mem fun {i j} hi hj hij t ht s hs => ?_
    obtain ⟨-, htstop, -⟩ := ends_of_spanOf ht
    obtain ⟨-, hsstop, -⟩ := ends_of_spanOf hs
    have hlt := (Overlaid.mem_ended.mp hi).2
    rw [Yields, if_pos (by omega)]
    omega
  · have hothers := (Overlaid.stablySorted_others a p ids).ordered
    refine hothers.imp_of_mem fun {i j} hi hj hij t ht s hs => ?_
    obtain ⟨htstart, htstop, -⟩ := ends_of_spanOf ht
    obtain ⟨hsstart, hsstop, -⟩ := ends_of_spanOf hs
    have hti := (Overlaid.mem_others.mp hi).2
    have hsj := (Overlaid.mem_others.mp hj).2
    rw [Yields, if_neg (by omega)]
    omega
  · intro i hi j hj t ht s hs
    obtain ⟨-, htstop, -⟩ := ends_of_spanOf ht
    obtain ⟨-, hsstop, -⟩ := ends_of_spanOf hs
    have hti := (Overlaid.mem_ended.mp hi).2
    have hsj := (Overlaid.mem_others.mp hj).2
    rw [Yields, if_pos (by omega)]
    omega

/-! ## Rows under two orders -/

variable {tab left : Int} {cols : Nat}

/-- The letters of the line of this number, if there is one. -/
def lettersAt (b : Buffer) (i : Int) : Option (List Letter) :=
  if 0 ≤ i then (splitLines (accessible b))[i.toNat]? else none

theorem lineAt_lines (tab : Int) (found : List Span) (b : Buffer) (i : Int) :
    lineAt (lines tab found b) i = (lettersAt b i).map (glyphsFrom tab found 0) := by
  unfold lineAt lettersAt lines
  split
  · exact List.getElem?_map
  · rfl

theorem mem_accessible_of_lettersAt {b : Buffer} {i : Int} {line : List Letter}
    (h : line ∈ lettersAt b i) : ∀ l ∈ line, l ∈ accessible b := by
  intro l hl
  unfold lettersAt at h
  split at h
  · exact mem_of_mem_splitLines (List.mem_of_getElem? h) hl
  · cases h

/-- Stretches count by the attributes that they give to the places of a line. -/
theorem glyphsFrom_congr {line : List Letter} (x : Nat)
    (h : ∀ l ∈ line, attrAt found' l.place = attrAt found l.place) :
    glyphsFrom tab found' x line = glyphsFrom tab found x line := by
  induction line generalizing x with
  | nil => rfl
  | cons l rest ih =>
      obtain ⟨hl, hrest⟩ := List.forall_mem_cons.mp h
      rw [glyphsFrom, glyphsFrom, hl, ih _ hrest]

/-- What is seen of a line from column `x` on: the places of the letters that lie in the window
whole, and what is drawn for them. -/
def seen (tab left : Int) (cols : Nat) (x : Nat) : List Letter → List (Int × Bytes)
  | [] => []
  | l :: rest =>
    let w := width tab l.code x
    let others := seen tab left cols (x + w) rest
    if left ≤ x ∧ x + w - left ≤ cols then (l.place, form tab l.code x) :: others else others

/-- A row with these texts side by side, each with the attribute of its place. -/
def inked (cols : Nat) (attr : Int → Int) (drawn : List (Int × Bytes)) : List Cell :=
  let cells := drawn.flatMap fun d => colored d.2 (attr d.1)
  cells ++ colored (Bytes.blanks (cols - cells.length)) 0

theorem ink_visible (hattr : ∀ x, -1 ≤ attrAt found x) (x : Nat) (line : List Letter) :
    ink (visible left cols x (glyphsFrom tab found x line)) =
      (seen tab left cols x line).flatMap fun d => colored d.2 (attrAt found d.1) := by
  induction line generalizing x with
  | nil => rfl
  | cons l rest ih =>
      have hrest := ih (x + width tab l.code x)
      unfold ink at hrest ⊢
      rw [glyphsFrom, visible, seen]
      dsimp only
      split
      · rw [List.flatMap_cons, List.flatMap_cons, hrest, Int.max_eq_left (hattr l.place)]
      · exact hrest

/-- A row of plain text: what is drawn does not depend on the stretches. -/
theorem rowCells_inked {line : Option (List Letter)} (hattr : ∀ x, -1 ≤ attrAt found x)
    (heven : ∀ ls ∈ line, Even (visible left cols 0 (glyphsFrom tab found 0 ls))) :
    rowCells cols left (line.map (glyphsFrom tab found 0)) =
      inked cols (attrAt found) (seen tab left cols 0 (line.getD [])) := by
  cases line with
  | none => rfl
  | some ls =>
      rw [Option.map_some, rowCells_eq (heven ls rfl), ink_visible hattr]
      rfl

section Drawings

variable {s s₁ s₂ : Screen} {b : Buffer} {v : Viewport} {i : Nat}

/-- The text is laid out without a look at the chains. -/
theorem accessible_withChains (b : Buffer) (l : Chains) :
    accessible { b with overlays := l } = accessible b := by
  have hletters : ∀ (n : Nat) (p : Position),
      lettersFrom { b with overlays := l } n p = lettersFrom b n p := by
    intro n
    induction n with
    | zero => exact fun _ => rfl
    | succ n ih =>
        intro p
        rw [lettersFrom, ih]
        rfl
  exact hletters _ _

theorem pointCell_withChains (tab : Int) (b : Buffer) (l : Chains) :
    pointCell tab { b with overlays := l } = pointCell tab b := by
  unfold pointCell
  rw [accessible_withChains]

theorem Drawn.of_withChains {l : Chains} (h : Drawn tab s { b with overlays := l } found v s₁) :
    Drawn tab s b found v s₁ := by
  obtain ⟨hrows, hcols, hrefreshes, hcursor, hline⟩ := h
  unfold lines at hline
  rw [pointCell_withChains] at hcursor
  rw [accessible_withChains] at hline
  exact ⟨hrows, hcols, hrefreshes, hcursor, hline⟩

/-- A row on which two drawings color every place alike. -/
theorem Drawn.line_congr (h₁ : Drawn tab s b found v s₁) (h₂ : Drawn tab s b found' v s₂)
    (hi : i < s.rows - 1)
    (hattr : ∀ line ∈ lettersAt b (v.top + i), ∀ l ∈ line,
      attrAt found' l.place = attrAt found l.place) : s₂.line i = s₁.line i := by
  rw [h₁.line_eq i hi, h₂.line_eq i hi, lineAt_lines, lineAt_lines]
  cases hline : lettersAt b (v.top + i) with
  | none => rfl
  | some line =>
      rw [Option.map_some, Option.map_some, glyphsFrom_congr 0 (hattr line hline)]

theorem Drawn.line_inked (h : Drawn tab s b found v s₁) (hi : i < s.rows - 1)
    (hattr : ∀ x, -1 ≤ attrAt found x) (hplain : ∀ c ∈ shown b, IsPlain c) :
    s₁.line i = inked s.cols (attrAt found)
      (seen tab v.left s.cols 0 ((lettersAt b (v.top + i)).getD [])) := by
  rw [h.line_eq i hi, lineAt_lines]
  refine rowCells_inked hattr fun line hline => even_visible fun l hl => width_eq ?_
  exact hplain _ (List.mem_map_of_mem (mem_accessible_of_lettersAt hline l hl))

end Drawings

/-- A new overlay does not change what there is to be laid out. -/
theorem layout_make (o : Overlaid) (b : BufferId) (home : ArenaId) (p q : Int)
    (props : Properties) (tab : Int) :
    let b' := (o.make b home p q props).state.buffer
    accessible b' = accessible o.buffer ∧ pointCell tab b' = pointCell tab o.buffer := by
  obtain ⟨l, hl⟩ := o.buffer_make b home p q props
  rw [hl]
  exact ⟨accessible_withChains _ _, pointCell_withChains tab _ _⟩

end Display

namespace Overlaid

open Display

/-- A recentered buffer has the same text under the same stretches, in the order in which they yield
to each other. -/
structure Redealt (p : Int) (o o' : Overlaid) (found found' : List Span) : Prop where
  spans_eq : spans o = .ok found
  spans_eq' : spans o' = .ok found'
  walked : (∃ lists, o.chains = .ok lists) ∧ ∃ lists, o'.chains = .ok lists
  buffer_eq : ∃ l, o'.buffer = { o.buffer with overlays := l }
  perm : found'.Perm found
  sorted : found'.Pairwise (Yields p)
  attrs : ∀ s ∈ found, -1 ≤ s.attr

theorem Indexed.exists_redealt {b : BufferId} {home : ArenaId} {o : Overlaid}
    {before after : List Int} (h : Indexed b home o before after) (p : Int) :
    ∃ o' events found found', o.recenter p = .done o' () events ∧ Redealt p o o' found found' := by
  obtain ⟨events, hrecenter⟩ := recenter_eq h.holds.before_leads h.holds.after_leads p
  have hdealt := (h.dealt p).1
  have hspans' := Display.spans_eq hdealt.chains_eq
  -- the stretches are those of the same overlays in another order
  have hsame : spanOf (o.dealt p (before ++ after)).arena = spanOf o.arena := by
    funext id
    exact spanOf_congr ((Overlaid.rechained_dealt o p _).loose_eq id)
  rw [hsame] at hspans'
  refine ⟨_, events, _, _, hrecenter, Display.spans_eq h.chains_eq, hspans',
    ⟨⟨_, h.chains_eq⟩, ⟨_, hdealt.chains_eq⟩⟩, ⟨_, rfl⟩,
    (Overlaid.ended_append_others_perm o.arena p (before ++ after)).filterMap (spanOf o.arena),
    pairwise_yields o.arena p (before ++ after), fun s hs => ?_⟩
  obtain ⟨id, -, hid⟩ := List.mem_filterMap.mp hs
  exact (ends_of_spanOf hid).2.2

variable {o o' : Overlaid} {p x : Int} {found found' : List Span}

theorem Redealt.agreed (h : Redealt p o o' found found') (hx : Agreed found x) :
    attrAt found' x = attrAt found x := hx.attrAt_eq h.perm

theorem Redealt.exists_shown (h : Redealt p o o' found found') (hx : ∃ s ∈ found, s.Covers x) :
    ∃ s ∈ found, s.Covers x ∧ attrAt found' x = s.attr ∧
      ∀ t ∈ found, t.Covers x → Yields p t s := by
  obtain ⟨s, hs, hx⟩ := hx
  obtain ⟨s, hs, hx, hattr, hyield⟩ := exists_attrAt (yields_refl p) h.sorted
    ⟨s, h.perm.mem_iff.mpr hs, hx⟩
  exact ⟨s, h.perm.mem_iff.mp hs, hx, hattr, fun t ht => hyield t (h.perm.mem_iff.mpr ht)⟩

/-- Both buffers are drawn through the same window. -/
theorem Redealt.exists_render (h : Redealt p o o' found found') (tab : Int) (s : Screen)
    (v : Viewport) (message : Bytes) :
    let v' := scroll v (s.rows - 1) s.cols (pointCell tab o.buffer)
    ∃ s₁ s₂, render tab s o v message = .ok (s₁, v') ∧ render tab s o' v message = .ok (s₂, v') ∧
      Drawn tab s o.buffer found v' s₁ ∧ Drawn tab s o.buffer found' v' s₂ := by
  intro v'
  obtain ⟨⟨lists, hchains⟩, ⟨lists', hchains'⟩⟩ := h.walked
  obtain ⟨l, hl⟩ := h.buffer_eq
  have hcell : pointCell tab o'.buffer = pointCell tab o.buffer := by
    rw [hl, pointCell_withChains]
  obtain ⟨s₁, hrender, hdrawn⟩ := Display.exists_render tab s v message hchains h.spans_eq
  obtain ⟨s₂, hrender', hdrawn'⟩ := Display.exists_render tab s v message hchains' h.spans_eq'
  rw [hcell] at hrender' hdrawn'
  rw [hl] at hdrawn'
  exact ⟨s₁, s₂, hrender, hrender', hdrawn, hdrawn'.of_withChains⟩

end Overlaid

namespace Workspace

open Display

/-- **Recentering and what is drawn.** In every state of a workspace, drawing a buffer before and
after it is recentered puts the window and the cursor in the same place. Of the faces around a
place, the one that shows afterwards is told by where they lie around the new center; where they
agree it is the one that showed before. So all rows above the last one whose places are agreed upon
stay as they are, and in plain text no character moves, whichever faces show. -/
theorem render_recentered (multibyte : Bool) (arenas markers : Nat) (ks : List Command)
    (h : Along step Allowed (start multibyte arenas markers) ks) :
    let w := ks.foldl step (start multibyte arenas markers)
    ∀ a b o, w.overlaid? a b = some o → w.IsHome a b →
      ∀ (p tab : Int) (s : Screen) (v : Viewport) (message : Bytes),
        let v' := scroll v (s.rows - 1) s.cols (pointCell tab o.buffer)
        ∃ o' events found found' s₁ s₂,
          (o.recenter p = .done o' () events ∧ spans o = .ok found ∧ spans o' = .ok found') ∧
          (render tab s o v message = .ok (s₁, v') ∧ render tab s o' v message = .ok (s₂, v')) ∧
          (s₂.cursor = s₁.cursor ∧ s₂.refreshes = s₁.refreshes) ∧
          (∀ x, (∃ s ∈ found, s.Covers x) → ∃ s ∈ found, s.Covers x ∧ attrAt found' x = s.attr ∧
            ∀ t ∈ found, t.Covers x → Yields p t s) ∧
          (∀ x, Agreed found x → attrAt found' x = attrAt found x) ∧
          (∀ i : Nat, i < s.rows - 1 →
            (∀ line ∈ lettersAt o.buffer (v'.top + i), ∀ l ∈ line, Agreed found l.place) →
              s₂.line i = s₁.line i) ∧
          ((∀ c ∈ shown o.buffer, IsPlain c) → ∀ i : Nat, i < s.rows - 1 →
            let drawn := seen tab v'.left s.cols 0 ((lettersAt o.buffer (v'.top + i)).getD [])
            s₁.line i = inked s.cols (attrAt found) drawn ∧
              s₂.line i = inked s.cols (attrAt found') drawn) := by
  intro w a b o ho hhome p tab s v message v'
  obtain ⟨before, after, hhung⟩ := (indexed_run ks h).hung b
  obtain ⟨o', events, found, found', hrecenter, hdealt⟩ :=
    (hhung.indexed ho hhome).exists_redealt p
  obtain ⟨s₁, s₂, hrender, hrender', hdrawn, hdrawn'⟩ := hdealt.exists_render tab s v message
  have hattr := hdealt.attrs
  refine ⟨o', events, found, found', s₁, s₂, ⟨hrecenter, hdealt.spans_eq, hdealt.spans_eq'⟩,
    ⟨hrender, hrender'⟩, ⟨hdrawn'.cursor_eq.trans hdrawn.cursor_eq.symm,
      hdrawn'.refreshes_eq.trans hdrawn.refreshes_eq.symm⟩, fun x => hdealt.exists_shown,
    fun x => hdealt.agreed, ?_, ?_⟩
  · intro i hi hplaces
    exact hdrawn.line_congr hdrawn' hi fun line hline l hl =>
      hdealt.agreed (hplaces line hline l hl)
  · intro hplain i hi drawn
    exact ⟨hdrawn.line_inked hi (neg_one_le_attrAt hattr) hplain,
      hdrawn'.line_inked hi
        (neg_one_le_attrAt fun s hs => hattr s (hdealt.perm.mem_iff.mp hs)) hplain⟩

/-! ### Two overlays -/

section Examples

/-- What is laid out when a text was put in and two overlays were made. -/
theorem exists_overlaid_of_text (s : Bytes) (p q p' q' : Int) (props props' : Properties)
    (hs : Along Buffer.step Buffer.Admissible { multibyte := true } [.insert 1 s, .goTo 1]) :
    let ks : List Command := [.edit 0 (.insert 1 s), .edit 0 (.goTo 1),
      .makeOverlay 0 0 p q props, .makeOverlay 0 0 p' q' props']
    let b := [.insert 1 s, .goTo 1].foldl Buffer.step { multibyte := true }
    let e := [.insert 1 s, .goTo 1].foldl (Editor.after true) {}
    ∃ o, (ks.foldl step (start true 1 0)).overlaid? 0 0 = some o ∧
      pointCell 8 o.buffer = pointCell 8 b ∧
      accessible o.buffer = (((e.chars.take (e.upper - 1).toNat).drop (e.lower - 1).toNat).map
        (shownAs true)).mapIdx fun i c => ⟨e.lower + i, c⟩ := by
  intro ks b e
  have hstart : (start true 1 0).overlaid? 0 0 = some ⟨{}, { multibyte := true }⟩ := rfl
  have htext := overlaid?_edit (overlaid?_edit hstart (.insert 1 s)) (.goTo 1)
  have ho := overlaid?_makeOverlay (overlaid?_makeOverlay htext p q props) p' q' props'
  obtain ⟨hrep, hm⟩ := Buffer.represents_run [.insert 1 s, .goTo 1] hs
  obtain ⟨hletters, hcell⟩ := layout_make ⟨{}, b⟩ 0 0 p q props 8
  obtain ⟨hletters', hcell'⟩ :=
    layout_make (Overlaid.make ⟨{}, b⟩ 0 0 p q props).state 0 0 p' q' props' 8
  refine ⟨_, ho, hcell'.trans hcell, hletters'.trans (hletters.trans ?_)⟩
  rw [accessible_of_represents hrep, hm]

/-- A line without overlays, and one on which the overlay that is linked last shows before the
buffer is recentered, but the one that starts last shows afterwards. -/
theorem render_recentered_two_lines :
    let face : String → Properties := fun name => [(Bytes.ascii "face", Bytes.ascii name)]
    let ks : List Command :=
      [.edit 0 (.insert 1 [0x61, 0x62, 0x0A, 0x63, 0x64, 0x65, 0x66]), .edit 0 (.goTo 1),
        .makeOverlay 0 0 5 6 (face "match"), .makeOverlay 0 0 4 8 (face "highlight")]
    let w := ks.foldl step (start true 1 0)
    ∃ o o' events found found' s₁ s₂, w.overlaid? 0 0 = some o ∧
      o.recenter 4 = .done o' () events ∧ spans o = .ok found ∧ spans o' = .ok found' ∧
      render 8 (Screen.ofSize 3 8) o {} [] = .ok (s₁, {}) ∧
      render 8 (Screen.ofSize 3 8) o' {} [] = .ok (s₂, {}) ∧ s₂.line 0 = s₁.line 0 ∧
      attrAt found 5 = 3 ∧ attrAt found' 5 = 1 := by
  intro face ks w
  have hks : Along step Allowed (start true 1 0) ks := by decide +kernel
  obtain ⟨o, ho, hcell, hletters⟩ : ∃ o, w.overlaid? 0 0 = some o ∧ pointCell 8 o.buffer = _ ∧ _ :=
    exists_overlaid_of_text _ 5 6 4 8 (face "match") (face "highlight") (by decide +kernel)
  have hspans : (w.overlaid? 0 0).map (fun o => (spans o).toOption) =
      some (some [⟨5, 6, 1⟩, ⟨4, 8, 3⟩]) := by decide +kernel
  rw [ho, Option.map_some, Option.some.injEq] at hspans
  obtain ⟨o', events, found, found', s₁, s₂, ⟨hrecenter, hfound, hfound'⟩,
    ⟨hrender, hrender'⟩, -, hshows, -, hrows, -⟩ :=
    render_recentered true 1 0 ks hks 0 0 o ho (by decide +kernel) 4 8 (Screen.ofSize 3 8) {} []
  have hwindow : scroll {} ((Screen.ofSize 3 8).rows - 1) (Screen.ofSize 3 8).cols
      (pointCell 8 o.buffer) = {} := by
    rw [hcell]
    decide +kernel
  rw [hwindow] at hrender hrender' hrows
  rw [hfound] at hspans
  cases hspans
  refine ⟨o, o', events, _, found', s₁, s₂, ho, hrecenter, hfound, hfound', hrender, hrender',
    hrows 0 (by decide) ?_, by decide, ?_⟩
  · have hline : lettersAt o.buffer 0 = some [⟨1, 0x61⟩, ⟨2, 0x62⟩] := by
      unfold lettersAt
      rw [hletters]
      decide +kernel
    intro line hmem
    obtain rfl := Option.some.inj (hline.symm.trans hmem)
    decide
  · obtain ⟨s, hs, -, hattr, hyield⟩ := hshows 5 (by decide)
    have hlast := hyield ⟨5, 6, 1⟩ (by decide) (by decide)
    simp only [List.mem_cons, List.not_mem_nil, or_false] at hs
    rcases hs with rfl | rfl
    · exact hattr
    · exact absurd hlast (by decide)

/-- Before the buffer is recentered, the overlay that was linked last shows where both are;
afterwards the first one does, since it starts later. -/
theorem recentered_overlap_differs :
    let face : String → Properties := fun name => [(Bytes.ascii "face", Bytes.ascii name)]
    let ks : List Command :=
      [.edit 0 (.insert 1 [0x61, 0x62, 0x63, 0x64, 0x65, 0x66]), .edit 0 (.goTo 1),
        .makeOverlay 0 0 3 6 (face "highlight"), .makeOverlay 0 0 1 6 (face "match")]
    let w := ks.foldl step (start true 1 0)
    Along step Allowed (start true 1 0) ks ∧ w.IsHome 0 0 ∧
      ∃ o o' events s₁ s₂, w.overlaid? 0 0 = some o ∧ o.recenter 1 = .done o' () events ∧
        render 8 (Screen.ofSize 2 8) o {} [] = .ok (s₁, {}) ∧
        render 8 (Screen.ofSize 2 8) o' {} [] = .ok (s₂, {}) ∧
        s₁.attrAt 0 2 = 1 ∧ s₂.attrAt 0 2 = 3 := by
  intro face ks w
  have hks : Along step Allowed (start true 1 0) ks := by decide +kernel
  have hhome : w.IsHome 0 0 := by decide +kernel
  obtain ⟨o, ho, hcell, hletters⟩ : ∃ o, w.overlaid? 0 0 = some o ∧ pointCell 8 o.buffer = _ ∧ _ :=
    exists_overlaid_of_text _ 3 6 1 6 (face "highlight") (face "match") (by decide +kernel)
  obtain ⟨before, after, hhung⟩ := (indexed_run ks hks).hung 0
  obtain ⟨o', events, found, found', hrecenter, hdealt⟩ :=
    (hhung.indexed ho hhome).exists_redealt 1
  have hspans : (w.overlaid? 0 0).map (fun o => (spans o).toOption) =
      some (some [⟨3, 6, 3⟩, ⟨1, 6, 1⟩]) := by decide +kernel
  rw [ho, Option.map_some, hdealt.spans_eq, Option.some.injEq] at hspans
  cases hspans
  obtain ⟨s₁, s₂, hrender, hrender', hdrawn, hdrawn'⟩ :=
    hdealt.exists_render 8 (Screen.ofSize 2 8) {} []
  have hwindow : scroll {} ((Screen.ofSize 2 8).rows - 1) (Screen.ofSize 2 8).cols
      (pointCell 8 o.buffer) = {} := by
    rw [hcell]
    decide +kernel
  rw [hwindow] at hrender hrender' hdrawn hdrawn'
  have hplain : ∀ c ∈ shown o.buffer, IsPlain c := by
    unfold shown
    rw [hletters]
    decide +kernel
  have hseen : seen 8 0 8 0 ((lettersAt o.buffer 0).getD []) =
      [(1, [0x61]), (2, [0x62]), (3, [0x63]), (4, [0x64]), (5, [0x65]), (6, [0x66])] := by
    unfold lettersAt
    rw [hletters]
    decide +kernel
  -- the third cell has the attribute of the place before it
  have hcell : ∀ {found s}, Drawn 8 (Screen.ofSize 2 8) o.buffer found {} s →
      (∀ s ∈ found, -1 ≤ s.attr) → s.attrAt 0 2 = attrAt found 3 := by
    intro found s hdrawn hattr
    have hline := hdrawn.line_inked (i := 0) (by decide) (neg_one_le_attrAt hattr) hplain
    have hline : s.line 0 =
        inked 8 (attrAt found) (seen 8 0 8 0 ((lettersAt o.buffer 0).getD [])) := hline
    unfold Screen.attrAt
    rw [hline, hseen]
    rfl
  obtain ⟨s, hs, -, hattr, hyield⟩ := hdealt.exists_shown (x := 3) (by decide)
  have hlast := hyield ⟨3, 6, 3⟩ (by decide) (by decide)
  refine ⟨hks, hhome, o, o', events, s₁, s₂, ho, hrecenter, hrender, hrender',
    (hcell hdrawn hdealt.attrs).trans (by decide),
    (hcell hdrawn' fun s hs => hdealt.attrs s (hdealt.perm.mem_iff.mp hs)).trans ?_⟩
  simp only [List.mem_cons, List.not_mem_nil, or_false] at hs
  rcases hs with rfl | rfl
  · exact hattr
  · exact absurd hlast (by decide)

end Examples

end Workspace

end GapText
