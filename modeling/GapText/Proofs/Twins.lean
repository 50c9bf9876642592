import GapText.Proofs.Faces
import GapText.Proofs.RawBytes
import GapText.Proofs.Reload

/-!
# One text in two kinds of buffer

Two viewers show the same bytes, in which no form of several bytes stands, one of them in a unibyte
buffer and the other in a multibyte one. Bytes from `0x80` on take two bytes in the second, so byte
positions differ; what is counted in characters does not. All that commands decide by are places
counted in characters and the characters themselves, so the two go on side by side (`Twin`), and are
drawn alike.
-/

namespace GapText

/-! ## Overlays counted in characters -/

/-- A marker without its byte position. -/
def Marker.inChars (m : Marker) : Marker := { m with place := ⟨m.place.char, 0⟩ }

/-- An overlay without its byte positions and its place on a chain. -/
def Overlay.inChars (r : Overlay) : Overlay :=
  { start := r.start.inChars, stop := r.stop.inChars, props := r.props }

namespace Arena

variable {a a' c c' : Arena} {ids ids' : List Int} {id : Int}

/-- The records have the same properties and, counted in characters, the same bounds. -/
def Matches (a c : Arena) : Prop :=
  ∀ id, (c.find? id).map Overlay.inChars = (a.find? id).map Overlay.inChars

/-- What is told by bounds in characters and properties is the same. -/
theorem Matches.congr {β : Type} (h : Matches a c) {f : Option Overlay → β}
    (hf : ∀ r, f (r.map Overlay.inChars) = f r) (id : Int) : f (c.find? id) = f (a.find? id) := by
  rw [← hf, h id, hf]

theorem Matches.stopChar_eq (h : Matches a c) : c.stopChar = a.stopChar :=
  funext (h.congr (f := fun r => (r.getD {}).stop.place.char) (by rintro (_ | r) <;> rfl))

theorem Matches.startChar_eq (h : Matches a c) : c.startChar = a.startChar :=
  funext (h.congr (f := fun r => (r.getD {}).start.place.char) (by rintro (_ | r) <;> rfl))

theorem Matches.covers_eq (h : Matches a c) (p id : Int) :
    (c.find? id).any (·.covers p) = (a.find? id).any (·.covers p) :=
  h.congr (f := fun r => r.any (·.covers p)) (by rintro (_ | r) <;> rfl) id

theorem Matches.spanOf_eq (h : Matches a c) : Display.spanOf c = Display.spanOf a :=
  funext (h.congr (f := fun r => r.bind Display.span?) (by rintro (_ | r) <;> rfl))

theorem map_inChars_loose (a : Arena) :
    a.loose.map Overlay.inChars = a.records.toList.map Overlay.inChars := by
  rw [loose, List.map_map]
  rfl

theorem Matches.size_eq (h : Matches a c) : c.size = a.size := by
  have hlen := congrArg List.length ((map_records_eq_iff Overlay.inChars).mpr h)
  simpa [size] using hlen

theorem Rechained.inChars_eq (h : Rechained ids a a') (id : Int) :
    (a'.find? id).map Overlay.inChars = (a.find? id).map Overlay.inChars :=
  congr_loose (f := Option.map Overlay.inChars) (h.loose_eq id) (by rintro (_ | r) <;> rfl)

/-- What hangs where does not matter. -/
theorem Matches.rechained (h : Matches a c) (ha : Rechained ids a a') (hc : Rechained ids' c c') :
    Matches a' c' := by
  intro id
  rw [hc.inChars_eq, h id, ha.inChars_eq]

theorem Matches.detachAll (h : Matches a c) (ids : List Int) :
    Matches (a.detachAll ids) (c.detachAll ids) := by
  intro id
  rw [find?_detachAll, find?_detachAll]
  split
  · exact h.congr (f := fun r => (r.map Overlay.detached).map Overlay.inChars)
      (by rintro (_ | r) <;> rfl) id
  · exact h id

end Arena

/-! ## Pages -/

open Code

/-- The places in two buffers with the same bytes as text are the same, counted in characters. -/
structure Buffer.Twin (s : Bytes) (b c : Buffer) : Prop where
  chars_eq : b.chars = decodeText false s
  chars_eq' : c.chars = s.map ofByte
  point_eq : c.point.char = b.point.char
  lower_eq : c.lower.char = b.lower.char
  upper_eq : c.upper.char = b.upper.char
  flags_eq : c.flags = b.flags
  center_eq : c.overlays.center = b.overlays.center

/-- Overlays come and go without a change to the text. -/
theorem Buffer.Twin.setChains {s : Bytes} {b c : Buffer} {l l' : Chains} {r r' : Bool}
    (h : Buffer.Twin s b c) (hcenter : l'.center = l.center) :
    Buffer.Twin s { b with overlays := l, redrawAll := r }
      { c with overlays := l', redrawAll := r' } :=
  ⟨h.chars_eq, h.chars_eq', h.point_eq, h.lower_eq, h.upper_eq, h.flags_eq, hcenter⟩

namespace Overlaid

open Viewer (Orderly)

/-- Two pages with the same bytes as text, in a buffer of each kind. -/
structure Twin (s : Bytes) (o p : Overlaid) : Prop where
  left : Orderly false o
  right : Orderly true p
  buffers : o.buffer.Twin s p.buffer
  records : o.arena.Matches p.arena
  hung : ∃ before after, Indexed 0 0 o before after ∧ Indexed 0 0 p before after

variable {s : Bytes} {o o' p p' : Overlaid}

theorem Twin.exists_chains (h : Twin s o p) :
    ∃ before after, o.chains = .ok (before, after) ∧ p.chains = .ok (before, after) := by
  obtain ⟨before, after, hindexed, hindexed'⟩ := h.hung
  exact ⟨before, after, hindexed.chains_eq, hindexed'.chains_eq⟩

theorem Twin.clear (h : Twin s o p) : Twin s o.clear.state p.clear.state := by
  obtain ⟨before, after, hindexed, hindexed'⟩ := h.hung
  have hleft := h.left.clear
  have hright := h.right.clear
  have hcleared := hindexed.clear.2.1
  have hcleared' := hindexed'.clear.2.1
  obtain ⟨_, hclear⟩ := clear_eq hindexed.holds
  obtain ⟨_, hclear'⟩ := clear_eq hindexed'.holds
  rw [hclear] at hleft hcleared ⊢
  rw [hclear'] at hright hcleared' ⊢
  exact ⟨hleft, hright, h.buffers.setChains rfl, (h.records.detachAll before).detachAll after,
    [], [], hcleared, hcleared'⟩

theorem Twin.recenter (h : Twin s o p) (q : Int) :
    Twin s (o.recenter q).state (p.recenter q).state := by
  obtain ⟨before, after, hindexed, hindexed'⟩ := h.hung
  have hleft := h.left.recenter q
  have hright := h.right.recenter q
  have hdealt := (hindexed.recenter q).2.1
  have hdealt' := (hindexed'.recenter q).2.1
  obtain ⟨_, hrecenter⟩ :=
    recenter_eq hindexed.holds.before_leads hindexed.holds.after_leads q
  obtain ⟨_, hrecenter'⟩ :=
    recenter_eq hindexed'.holds.before_leads hindexed'.holds.after_leads q
  -- both are sorted by the same keys
  have hended : ended p.arena q (before ++ after) = ended o.arena q (before ++ after) := by
    unfold ended
    rw [h.records.stopChar_eq]
  have hothers : others p.arena q (before ++ after) = others o.arena q (before ++ after) := by
    unfold others
    rw [h.records.stopChar_eq, h.records.startChar_eq]
  rw [hended, hothers] at hdealt'
  rw [hrecenter] at hleft hdealt ⊢
  rw [hrecenter'] at hright hdealt' ⊢
  refine ⟨hleft, hright, h.buffers.setChains rfl, ?_, _, _, hdealt, hdealt'⟩
  exact (h.records.rechained (Arena.rechained_relink _ _) (Arena.rechained_relink _ _)).rechained
    (Arena.rechained_relink _ _) (Arena.rechained_relink _ _)

theorem Twin.unlink (h : Twin s o p) {before after : List Int} {id : Int}
    (hindexed : Indexed 0 0 o before after) (hindexed' : Indexed 0 0 p before after)
    (hid : id ∈ before ++ after) (hleft : Orderly false (o.unlink id).state)
    (hright : Orderly true (p.unlink id).state) :
    Twin s (o.unlink id).state (p.unlink id).state := by
  have hunlinked := (hindexed.unlink hid).2.1
  have hunlinked' := (hindexed'.unlink hid).2.1
  obtain ⟨a, l, hstate, -, hcenter, -, -, -, hsame⟩ := exists_unlink
    hindexed.holds.before_leads hindexed.holds.after_leads hindexed.holds.nodup hid
  obtain ⟨c, l', hstate', -, hcenter', -, -, -, hsame'⟩ := exists_unlink
    hindexed'.holds.before_leads hindexed'.holds.after_leads hindexed'.holds.nodup hid
  rw [hstate] at hleft hunlinked ⊢
  rw [hstate'] at hright hunlinked' ⊢
  exact ⟨hleft, hright,
    h.buffers.setChains (hcenter'.trans (h.buffers.center_eq.trans hcenter.symm)),
    (h.records.rechained hsame hsame').detachAll [id], _, _, hunlinked, hunlinked'⟩

theorem Twin.without (h : Twin s o p) (id : Int) : Twin s (o.without id) (p.without id) := by
  obtain ⟨before, after, hindexed, hindexed'⟩ := h.hung
  have hleft := h.left.without id
  have hright := h.right.without id
  rw [h.left.alone.without_eq hindexed] at hleft ⊢
  rw [h.right.alone.without_eq hindexed'] at hright ⊢
  by_cases hid : id ∈ before ++ after
  · rw [if_pos hid] at hleft hright ⊢
    rw [if_pos hid]
    exact h.unlink hindexed hindexed' hid hleft hright
  · rwa [if_neg hid, if_neg hid]

theorem Twin.foldl_without (h : Twin s o p) (ids : List Int) :
    Twin s (ids.foldl Overlaid.without o) (ids.foldl Overlaid.without p) := by
  induction ids generalizing o p with
  | nil => exact h
  | cons id ids ih => exact ih (h.without id)

/-- Overlays with the same bounds are made on both. -/
theorem Twin.made (h : Twin s o p) {rs rs' : List Overlay} (hmade : Made 0 0 o o' rs)
    (hmade' : Made 0 0 p p' rs') (hrs : rs'.map Overlay.inChars = rs.map Overlay.inChars)
    (hleft : Orderly false o') (hright : Orderly true p') : Twin s o' p' := by
  obtain ⟨before, after, hindexed, hindexed'⟩ := h.hung
  have hrecords : o'.arena.Matches p'.arena := by
    refine (Arena.map_records_eq_iff Overlay.inChars).mp ?_
    rw [← Arena.map_inChars_loose, ← Arena.map_inChars_loose, hmade.records, hmade'.records,
      List.map_append, List.map_append, hrs, Arena.map_inChars_loose, Arena.map_inChars_loose,
      (Arena.map_records_eq_iff Overlay.inChars).mpr h.records]
  have hbuffers : o'.buffer.Twin s p'.buffer := by
    have hcenter : p'.buffer.overlays.center = o'.buffer.overlays.center :=
      hmade'.center.trans (h.buffers.center_eq.trans hmade.center.symm)
    obtain ⟨l, hl⟩ := hmade.buffer
    obtain ⟨l', hl'⟩ := hmade'.buffer
    rw [hl, hl'] at hcenter ⊢
    exact h.buffers.setChains hcenter
  exact ⟨hleft, hright, hbuffers, hrecords, hmade.exists_indexed hmade' hindexed hindexed'
    h.records.size_eq hrecords.size_eq h.buffers.center_eq (congrFun hrecords.stopChar_eq)⟩

/-- The text, its places or the flags change alike on both. -/
theorem Twin.setBuffers (h : Twin s o p) {b c : Buffer} (hbuffers : b.Twin s c)
    (hb : b.overlays = o.buffer.overlays) (hc : c.overlays = p.buffer.overlays)
    (hleft : Orderly false { o with buffer := b }) (hright : Orderly true { p with buffer := c }) :
    Twin s { o with buffer := b } { p with buffer := c } := by
  obtain ⟨before, after, hindexed, hindexed'⟩ := h.hung
  exact ⟨hleft, hright, hbuffers, h.records, before, after, hindexed.setBuffer hb,
    hindexed'.setBuffer hc⟩

/-! ### What is drawn -/

open Display

theorem Twin.accessible_eq (h : Twin s o p) : accessible p.buffer = accessible o.buffer := by
  have htrue : ∀ cs : List Int, cs.map (shownAs true) = cs := fun cs => List.map_id cs
  rw [Display.accessible_eq, Display.accessible_eq, shown_eq h.left.settled.sound,
    shown_eq h.right.settled.sound, show o.buffer.multibyte = false from h.left.settled.1,
    show p.buffer.multibyte = true from h.right.settled.1, htrue, h.buffers.chars_eq,
    h.buffers.chars_eq', h.buffers.lower_eq, h.buffers.upper_eq, List.map_drop, List.map_take,
    map_shownAs_decodeText]

theorem Twin.pointCell_eq (h : Twin s o p) (tab : Int) :
    pointCell tab p.buffer = pointCell tab o.buffer := by
  unfold pointCell
  rw [h.accessible_eq, h.buffers.point_eq, h.buffers.lower_eq, h.buffers.upper_eq]

theorem Twin.overlaysAt_eq (h : Twin s o p) (q : Int) : p.overlaysAt q = o.overlaysAt q := by
  obtain ⟨before, after, hchains, hchains'⟩ := h.exists_chains
  unfold overlaysAt linked
  rw [hchains, hchains']
  simp only [h.records.covers_eq q]

end Overlaid

/-- Two screens of this size, with the same rows above the last one and the same cursor. -/
structure Screen.SameAbove (rows cols : Nat) (s s' : Screen) : Prop where
  size : s.rows = rows ∧ s.cols = cols
  size' : s'.rows = rows ∧ s'.cols = cols
  cursor_eq : s'.cursor = s.cursor
  refreshes_eq : s'.refreshes = s.refreshes
  line_eq : ∀ i : Nat, i < rows - 1 → s'.line i = s.line i

open Display in
theorem Overlaid.Twin.exists_render {s : Bytes} {o p : Overlaid} (h : Twin s o p) (tab : Int)
    {rows cols : Nat} {scr scr' : Screen} (hscr : scr.SameAbove rows cols scr') (v : Viewport)
    (message : Bytes) :
    ∃ s₁ s₂ v', Display.render tab scr o v message = .ok (s₁, v') ∧
      Display.render tab scr' p v message = .ok (s₂, v') ∧ s₁.SameAbove rows cols s₂ := by
  obtain ⟨before, after, hchains, hchains'⟩ := h.exists_chains
  obtain ⟨⟨hrows, hcols⟩, ⟨hrows', hcols'⟩, -, hrefreshes, -⟩ := hscr
  obtain ⟨s₁, hrender, hdrawn⟩ :=
    Display.exists_render tab scr v message hchains (spans_eq hchains)
  obtain ⟨s₂, hrender', hdrawn'⟩ :=
    Display.exists_render tab scr' v message hchains' (spans_eq hchains')
  rw [hrows, hcols] at hrender hdrawn
  rw [hrows', hcols', h.pointCell_eq] at hrender' hdrawn'
  rw [h.records.spanOf_eq] at hdrawn'
  refine ⟨s₁, s₂, _, hrender, hrender',
    ⟨hdrawn.rows_eq.trans hrows, hdrawn.cols_eq.trans hcols⟩,
    ⟨hdrawn'.rows_eq.trans hrows', hdrawn'.cols_eq.trans hcols'⟩, ?_, ?_, fun i hi => ?_⟩
  · rw [hdrawn'.cursor_eq, hdrawn.cursor_eq, h.pointCell_eq]
  · rw [hdrawn'.refreshes_eq, hdrawn.refreshes_eq, hrefreshes]
  · rw [hdrawn'.line_eq i (hrows'.symm ▸ hi), hdrawn.line_eq i (hrows.symm ▸ hi), hcols, hcols']
    unfold lines
    rw [h.accessible_eq]

/-! ## Viewers -/

namespace Viewer

open Overlaid (Made)

/-- Two viewers of the same bytes, one with a buffer of each kind, that show the same. -/
structure Twin (rows cols : Nat) (s : Bytes) (u v : Viewer) : Prop where
  page : Overlaid.Twin s u.page v.page
  screen : u.screen.SameAbove rows cols v.screen
  viewport_eq : v.viewport = u.viewport
  tab : u.localTab = 2 ∨ u.localTab = 4 ∨ u.localTab = 8
  tab_eq : v.localTab = u.localTab
  message_eq : v.message = u.message
  quitting_eq : v.quitting = u.quitting

variable {rows cols : Nat} {s : Bytes} {u v : Viewer} {files : FileTree}

theorem Twin.left (h : Twin rows cols s u v) : Sane false u := ⟨h.page.left, h.tab⟩

theorem Twin.right (h : Twin rows cols s u v) : Sane true v := ⟨h.page.right, h.tab_eq ▸ h.tab⟩

theorem Twin.setPage (h : Twin rows cols s u v) {o p : Overlaid} (hpage : Overlaid.Twin s o p) :
    Twin rows cols s { u with page := o } { v with page := p } :=
  ⟨hpage, h.screen, h.viewport_eq, h.tab, h.tab_eq, h.message_eq, h.quitting_eq⟩

theorem Twin.say (h : Twin rows cols s u v) (message : Bytes) :
    Twin rows cols s (u.say message) (v.say message) :=
  ⟨h.page, h.screen, h.viewport_eq, h.tab, h.tab_eq, rfl, h.quitting_eq⟩

/-! ### Keys -/

theorem Twin.setPoint (h : Twin rows cols s u v) {x y : Position} (hchar : y.char = x.char)
    (hleft : Sane false (u.setPoint x)) (hright : Sane true (v.setPoint y)) :
    Twin rows cols s (u.setPoint x) (v.setPoint y) := by
  obtain ⟨hchars, hchars', -, hlower, hupper, hflags, hcenter⟩ := h.page.buffers
  exact h.setPage (h.page.setBuffers ⟨hchars, hchars', hchar, hlower, hupper, hflags, hcenter⟩
    rfl rfl hleft.page hright.page)

theorem char_tracedLeft (v : Viewer) :
    v.tracedLeft.value.char = if v.buffer.point.char ≤ v.buffer.lower.char
      then v.buffer.point.char else v.buffer.point.char - 1 := by
  unfold tracedLeft
  dsimp only
  split <;> rfl

theorem char_tracedRight (v : Viewer) :
    v.tracedRight.value.char = if v.buffer.upper.char ≤ v.buffer.point.char
      then v.buffer.point.char else v.buffer.point.char + 1 := by
  unfold tracedRight
  dsimp only
  split <;> rfl

theorem Twin.moveLeft (h : Twin rows cols s u v) : Twin rows cols s u.moveLeft v.moveLeft := by
  have hleft := h.left.moveLeft
  have hright := h.right.moveLeft
  rw [moveLeft_eq] at hleft hright
  rw [moveLeft_eq, moveLeft_eq]
  refine h.setPoint ?_ hleft hright
  rw [char_tracedLeft, char_tracedLeft]
  unfold Viewer.buffer
  rw [h.page.buffers.point_eq, h.page.buffers.lower_eq]

theorem Twin.moveRight (h : Twin rows cols s u v) : Twin rows cols s u.moveRight v.moveRight := by
  have hleft := h.left.moveRight
  have hright := h.right.moveRight
  rw [moveRight_eq] at hleft hright
  rw [moveRight_eq, moveRight_eq]
  refine h.setPoint ?_ hleft hright
  rw [char_tracedRight, char_tracedRight]
  unfold Viewer.buffer
  rw [h.page.buffers.point_eq, h.page.buffers.upper_eq]

theorem Twin.setTabFlag (h : Twin rows cols s u v) (value : Int8) :
    Twin rows cols s (u.setTabFlag value) (v.setTabFlag value) := by
  have hleft := h.left.setTabFlag value
  have hright := h.right.setTabFlag value
  obtain ⟨hchars, hchars', hpoint, hlower, hupper, hflags, hcenter⟩ := h.page.buffers
  refine h.setPage (h.page.setBuffers ⟨hchars, hchars', hpoint, hlower, hupper, ?_, hcenter⟩
    rfl rfl hleft.page hright.page)
  exact congrArg (fun f : LocalFlags => f.put slots.count tabSlot value) hflags

theorem Twin.perform (h : Twin rows cols s u v) (a : Action) :
    Twin rows cols s (u.perform a).value (v.perform a).value := by
  cases a with
  | left => exact h.moveLeft
  | right => exact h.moveRight
  | deleteHere =>
      have hhere : v.overlaysHere = u.overlaysHere := by
        unfold overlaysHere Viewer.buffer
        rw [h.page.buffers.point_eq, h.page.overlaysAt_eq]
      have hpage := h.page.foldl_without u.overlaysHere
      rw [← value_deleteOverlays, ← value_deleteOverlays] at hpage
      show Twin rows cols s (Viewer.say { u with page := _ } _) (Viewer.say { v with page := _ } _)
      rw [hhere]
      exact (h.setPage hpage).say _
  | deleteAll => exact (h.setPage h.page.clear).say _
  | recenter =>
      have hpoint : v.buffer.point.char = u.buffer.point.char := h.page.buffers.point_eq
      show Twin rows cols s (Viewer.say { u with page := _ } _) (Viewer.say { v with page := _ } _)
      rw [hpoint]
      exact (h.setPage (h.page.recenter _)).say _
  | nextTab =>
      have hwider : Twin rows cols s { u with localTab := tabAfter u.localTab }
          { v with localTab := tabAfter v.localTab } :=
        ⟨h.page, h.screen, h.viewport_eq, tabAfter_mem h.tab, congrArg tabAfter h.tab_eq,
          h.message_eq, h.quitting_eq⟩
      have hsaid := (hwider.setTabFlag 1).say
        (Bytes.ascii "local tab-width " ++ Bytes.decimal (tabAfter u.localTab))
      show Twin rows cols s _ (Viewer.say _ (_ ++ Bytes.decimal (tabAfter v.localTab)))
      rw [h.tab_eq] at hsaid ⊢
      exact hsaid
  | resetTab => exact (h.setTabFlag 0).say _
  | quit =>
      exact ⟨h.page, h.screen, h.viewport_eq, h.tab, h.tab_eq, h.message_eq, rfl⟩

theorem Twin.press (h : Twin rows cols s u v) (key : Int) :
    Twin rows cols s (u.press key).value (v.press key).value := by
  unfold Viewer.press
  dsimp only
  split
  · exact (h.say []).perform _
  · exact h.say []

theorem Twin.tabWidth_eq (h : Twin rows cols s u v) : v.tabWidth = u.tabWidth := by
  unfold tabWidth Viewer.buffer
  rw [h.page.buffers.flags_eq, h.tab_eq]

theorem Twin.render (h : Twin rows cols s u v) : Twin rows cols s u.render v.render := by
  obtain ⟨s₁, s₂, window, hrender, hrender', hscreen⟩ :=
    h.page.exists_render u.tabWidth h.screen u.viewport u.message
  unfold Viewer.render
  rw [h.tabWidth_eq, h.viewport_eq, h.message_eq, hrender, hrender']
  exact ⟨h.page, hscreen, rfl, h.tab, h.tab_eq, rfl, h.quitting_eq⟩

theorem Twin.interact (h : Twin rows cols s u v) (keys : List Int) :
    (v.interact keys).value.2 = (u.interact keys).value.2 ∧
      Twin rows cols s (u.interact keys).value.1 (v.interact keys).value.1 := by
  induction keys generalizing u v with
  | nil =>
      unfold Viewer.interact
      rw [h.quitting_eq]
      split
      · exact ⟨rfl, h⟩
      · exact ⟨rfl, h.render.press quitKey⟩
  | cons key keys ih =>
      obtain ⟨hcount, hrest⟩ := ih (h.render.press key)
      unfold Viewer.interact
      rw [h.quitting_eq]
      split
      · exact ⟨rfl, h⟩
      · exact ⟨congrArg (· + 1) hcount, hrest⟩

/-! ### Marks -/

theorem Twin.markMatches (h : Twin rows cols s u v) (hs : Stray s) (word : Bytes) :
    (v.markMatches word).value.2 = (u.markMatches word).value.2 ∧
      Twin rows cols s (u.markMatches word).value.1 (v.markMatches word).value.1 := by
  by_cases hword : word = []
  · subst hword
    exact ⟨rfl, h⟩
  have hleft := h.left.markMatches word
  have hright := h.right.markMatches word
  obtain ⟨-, found, page, hgreedy, hvalue, hmade⟩ := h.left.exists_marked hword
  obtain ⟨-, found', page', hgreedy', hvalue', hmade'⟩ := h.right.exists_marked hword
  have hinner : u.buffer.internalForm word = word := by
    unfold Buffer.internalForm
    rw [show u.buffer.multibyte = false from h.page.left.settled.1]
    rfl
  have hinner' : v.buffer.internalForm word = ofExternal word := by
    unfold Buffer.internalForm
    rw [show v.buffer.multibyte = true from h.page.right.settled.1]
    rfl
  rw [hinner, show u.buffer.chars = _ from h.page.buffers.chars_eq] at hgreedy hmade
  rw [hinner', show v.buffer.chars = _ from h.page.buffers.chars_eq'] at hgreedy' hmade'
  obtain ⟨hsame, hlen⟩ := hs.greedy_congr hgreedy
  obtain rfl := hsame.unique hgreedy'
  rw [hvalue] at hleft ⊢
  rw [hvalue'] at hright ⊢
  refine ⟨rfl, h.setPage (h.page.made hmade hmade' ?_ hleft.page hright.page)⟩
  -- bounds in characters do not depend on the kind of buffer
  rw [List.map_map, List.map_map]
  refine List.map_congr_left fun k hk => ?_
  show (marking true _ k (k + _)).inChars = (marking false _ k (k + _)).inChars
  rw [hlen (List.ne_nil_of_mem hk)]
  rfl

/-! ### Runs -/

/-- Everything but loads and edits. -/
def keepsText : Command → Bool
  | .load _ | .loadFile _ | .edit _ => false
  | .mark _ | .press _ | .interact _ | .moveLeft | .moveRight | .render => true

theorem Twin.step (h : Twin rows cols s u v) (hs : Stray s) {k : Command}
    (hk : keepsText k = true) :
    (v.run files k).value.2 = (u.run files k).value.2 ∧
      Twin rows cols s (u.step files k) (v.step files k) := by
  cases k with
  | load _ => cases hk
  | loadFile _ => cases hk
  | edit _ => cases hk
  | mark word =>
      obtain ⟨hcount, hmarked⟩ := h.markMatches hs word
      exact ⟨congrArg Answer.count hcount, hmarked⟩
  | interact keys =>
      obtain ⟨hcount, hrun⟩ := h.interact keys
      exact ⟨congrArg Answer.count hcount, hrun⟩
  | press key => exact ⟨rfl, h.press key⟩
  | moveLeft => exact ⟨rfl, h.moveLeft⟩
  | moveRight => exact ⟨rfl, h.moveRight⟩
  | render => exact ⟨rfl, h.render⟩

theorem Twin.foldl_step (h : Twin rows cols s u v) (hs : Stray s) (ks : List Command)
    (hks : ∀ k ∈ ks, keepsText k = true) :
    Twin rows cols s (ks.foldl (Viewer.step files) u) (ks.foldl (Viewer.step files) v) := by
  induction ks generalizing u v with
  | nil => exact h
  | cons k ks ih =>
      obtain ⟨hk, hks⟩ := List.forall_mem_cons.mp hks
      exact ih (h.step hs hk).2 hks

theorem Fresh.twin {o p : Overlaid} (h : Fresh false (decodeText false s) o)
    (h' : Fresh true (s.map ofByte) p) (hleft : Orderly false o) (hright : Orderly true p)
    (hflags : p.buffer.flags = o.buffer.flags) : Overlaid.Twin s o p := by
  obtain ⟨hpoint, hlower, -⟩ := h.places
  obtain ⟨hpoint', hlower', -⟩ := h'.places
  have hupper : p.buffer.upper.char = o.buffer.upper.char := by
    rw [h.represents.upper_eq, h'.represents.upper_eq, List.length_map, decodeText,
      if_neg Bool.false_ne_true, List.length_map]
  refine ⟨hleft, hright, ⟨h.represents.sound.chars_eq, h'.represents.sound.chars_eq, ?_, ?_,
    hupper, hflags, ?_⟩, ?_, [], [], h.indexed hleft.alone, h'.indexed hright.alone⟩
  · rw [hpoint, hpoint']
  · rw [hlower, hlower']
  · rw [h.chains_eq, h'.chains_eq]
  · rw [h.arena_eq, h'.arena_eq]
    exact fun _ => rfl

/-- The same bytes are loaded into two fresh viewers. -/
theorem twin_loadBytes (rows cols : Nat) (hs : Stray s) :
    Twin rows cols s ((start rows cols false).loadBytes s).value
      ((start rows cols true).loadBytes s).value := by
  have hleft := (sane_start rows cols false).loadBytes s
  have hright := (sane_start rows cols true).loadBytes s
  obtain ⟨page, hvalue, hfresh, htrappings⟩ := (sane_start rows cols false).exists_fresh s
  obtain ⟨page', hvalue', hfresh', htrappings'⟩ := (sane_start rows cols true).exists_fresh s
  have hchars : decodeText true ((start rows cols true).buffer.internalForm s) = s.map ofByte :=
    hs.decodeText_eq
  rw [hchars] at hfresh'
  rw [hvalue] at hleft ⊢
  rw [hvalue'] at hright ⊢
  exact ⟨Fresh.twin hfresh hfresh' hleft.page hright.page
      ((congrArg (·.2.1) htrappings').trans (congrArg (·.2.1) htrappings).symm),
    ⟨⟨rfl, rfl⟩, ⟨rfl, rfl⟩, rfl, rfl, fun _ _ => rfl⟩, rfl, Or.inr (Or.inl rfl), rfl, rfl, rfl⟩

/-- **A text without forms of several bytes looks the same in both kinds of buffer.** A unibyte and
a multibyte viewer on screens of one size, into which the same such bytes were loaded, are marked,
moved, drawn and given keys, any words and keys in any order. Then the point, the end of the text
and the limits of the accessible part are the same at any time, counted in characters; so are the
messages, the answers to all that is asked next, the overlays on both chains in their order, the
bounds of every overlay that was ever made, and the center. The window and the cursor are in the
same place, and all rows above the last one hold the same bytes with the same attributes. -/
theorem twins_run (rows cols : Nat) (files : FileTree) (s : Bytes) (hs : Stray s)
    (ks : List Command) (hks : ∀ k ∈ ks, keepsText k = true) :
    let u := ks.foldl (step files) ((start rows cols false).loadBytes s).value
    let v := ks.foldl (step files) ((start rows cols true).loadBytes s).value
    (v.buffer.point.char = u.buffer.point.char ∧ v.buffer.endChar = u.buffer.endChar ∧
      v.buffer.lower.char = u.buffer.lower.char ∧ v.buffer.upper.char = u.buffer.upper.char) ∧
    (v.message = u.message ∧ v.quitting = u.quitting ∧ v.tabWidth = u.tabWidth ∧
      ∀ k, keepsText k = true → (v.run files k).value.2 = (u.run files k).value.2) ∧
    ((∃ before after, u.page.chains = .ok (before, after) ∧
        v.page.chains = .ok (before, after)) ∧
      v.page.arena.size = u.page.arena.size ∧
      (∀ id, (v.page.arena.find? id).map Overlay.inChars =
        (u.page.arena.find? id).map Overlay.inChars) ∧
      v.buffer.overlays.center = u.buffer.overlays.center) ∧
    (v.viewport = u.viewport ∧ v.screen.cursor = u.screen.cursor) ∧
    ((u.screen.rows = rows ∧ u.screen.cols = cols) ∧
      (v.screen.rows = rows ∧ v.screen.cols = cols) ∧
      ∀ i : Nat, i < rows - 1 → v.screen.line i = u.screen.line i) := by
  intro u v
  have h : Twin rows cols s u v := (twin_loadBytes rows cols hs).foldl_step hs ks hks
  obtain ⟨hchars, hchars', hpoint, hlower, hupper, -, hcenter⟩ := h.page.buffers
  obtain ⟨hsize, hsize', hcursor, -, hline⟩ := h.screen
  have hend : v.buffer.endChar = u.buffer.endChar := by
    have hleft := h.page.left.settled.sound.endChar_eq
    have hright := h.page.right.settled.sound.endChar_eq
    rw [hchars, decodeText, if_neg Bool.false_ne_true, List.length_map] at hleft
    rw [hchars', List.length_map] at hright
    exact hright.trans hleft.symm
  exact ⟨⟨hpoint, hend, hlower, hupper⟩,
    ⟨h.message_eq, h.quitting_eq, h.tabWidth_eq, fun k hk => (h.step hs hk).1⟩,
    ⟨h.page.exists_chains, h.page.records.size_eq, h.page.records, hcenter⟩,
    ⟨h.viewport_eq, hcursor⟩, hsize, hsize', hline⟩

/-- A head without its trail, a trail without a head and two bytes that no form has, on two lines;
two words of raw bytes and one with a whole form are marked. -/
theorem twins_run_stray :
    let s : Bytes := [0x61, 0xFF, 0xC3, 0x0A, 0xA9, 0xFF, 0x62]
    let ks : List Command :=
      [.mark [0xFF], .mark [0xA9, 0xFF], .mark [0xC3, 0xA9], .press 108, .press 261, .render,
        .press 114, .press 116, .press 120, .interact [108, 108, 108, 104]]
    let u := ks.foldl (step {}) ((start 3 8 false).loadBytes s).value
    let v := ks.foldl (step {}) ((start 3 8 true).loadBytes s).value
    Stray s ∧ (∀ k ∈ ks, keepsText k = true) ∧
      v.buffer.point.char = u.buffer.point.char ∧ v.message = u.message ∧
      (v.run {} (.mark [0xC3])).value.2 = (u.run {} (.mark [0xC3])).value.2 ∧
      v.screen.cursor = u.screen.cursor ∧ v.screen.line 0 = u.screen.line 0 ∧
      v.screen.line 1 = u.screen.line 1 := by
  intro s ks u v
  have hs : Stray s := by decide +kernel
  have hks : ∀ k ∈ ks, keepsText k = true := by decide
  clear_value ks
  obtain ⟨⟨hpoint, -⟩, ⟨hmessage, -, -, hanswer⟩, -, ⟨-, hcursor⟩, -, -, hline⟩ :=
    twins_run 3 8 {} s hs ks hks
  exact ⟨hs, hks, hpoint, hmessage, hanswer _ rfl, hcursor, hline 0 (by decide),
    hline 1 (by decide)⟩

end Viewer

end GapText
