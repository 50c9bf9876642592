import GapText.Proofs.Marks

/-!
# Loading again

A load takes the place of all that was shown before. What makes it do so lies in the states that can
be reached: the chains hold all overlays that are attached (`Alone`), so once they are cleared the
records can go, and a buffer with a text in order can be erased. What a viewer is told by its user
stays: that it has to quit, where the screen starts, its tab width and its message.
-/

namespace GapText

/-! ## Overlays without a text of their own -/

namespace Arena

variable {a a' : Arena} {ids : List Int} {r : Overlay}

/-- No record has a text that is drawn beside it. -/
def Quiet (a : Arena) : Prop :=
  ∀ id r, a.find? id = some r → Overlaid.spreads r.props = false

theorem quiet_empty : ({} : Arena).Quiet := by
  intro id r hr
  have hlt := lt_size_of_find? hr
  exact absurd hlt.2 (Int.not_lt.mpr hlt.1)

theorem Quiet.push (h : a.Quiet) (hr : Overlaid.spreads r.props = false) : (a.push r).Quiet := by
  intro id r' hr'
  rw [find?_push] at hr'
  split at hr'
  · cases hr'
    exact hr
  · exact h id r' hr'

theorem Quiet.rechained (h : a.Quiet) (hsame : Rechained ids a a') : a'.Quiet := by
  intro id r hr
  obtain ⟨r', hr', hloose⟩ := hsame.symm.find? hr
  have hprops : r'.props = r.props := congrArg (·.props) hloose
  rw [← hprops]
  exact h id r' hr'

theorem Quiet.detachAll (h : a.Quiet) (ids : List Int) : (a.detachAll ids).Quiet := by
  intro id r hr
  rw [find?_detachAll] at hr
  split at hr
  · obtain ⟨r', hr', rfl⟩ := Option.map_eq_some_iff.mp hr
    exact h id r' hr'
  · exact h id r hr

end Arena

namespace Overlaid

variable {o : Overlaid} {b : BufferId} {home : ArenaId} {before after : List Int} {id : Int}

/-- Nothing has asked for the whole text to be drawn again, and no overlay will when it goes. -/
structure Calm (o : Overlaid) : Prop where
  quiet : o.arena.Quiet
  redrawAll : o.buffer.redrawAll = false

theorem Calm.make (hc : Calm o) (h : Indexed b home o before after) (p q : Int)
    {props : Properties} (hprops : spreads props = false) :
    Calm (o.make b home p q props).state := by
  obtain ⟨a, l, hstate, -, -, -, -, -, hsame⟩ := h.exists_make p q props
  rw [hstate]
  exact ⟨(hc.quiet.push (r := o.fresh b p q props) hprops).rechained hsame, hc.redrawAll⟩

theorem Calm.unlink (hc : Calm o) (h : Indexed b home o before after)
    (hid : id ∈ before ++ after) : Calm (o.unlink id).state := by
  obtain ⟨a, l, hstate, -, -, -, -, -, hsame⟩ :=
    exists_unlink h.holds.before_leads h.holds.after_leads h.holds.nodup hid
  have hquiet : a.Quiet := hc.quiet.rechained hsame
  rw [hstate]
  refine ⟨hquiet.detachAll [id], ?_⟩
  show (o.buffer.redrawAll || (a.find? id).any fun r => spreads r.props) = false
  rw [hc.redrawAll, Bool.false_or]
  cases hr : a.find? id with
  | none => rfl
  | some r => exact hquiet id r hr

theorem Calm.clear (hc : Calm o) (h : Indexed b home o before after) : Calm o.clear.state := by
  obtain ⟨events, hclear⟩ := clear_eq h.holds
  rw [hclear]
  exact ⟨(hc.quiet.detachAll before).detachAll after, hc.redrawAll⟩

theorem Calm.recenter (hc : Calm o) (h : Indexed b home o before after) (p : Int) :
    Calm (o.recenter p).state := by
  obtain ⟨events, hrecenter⟩ := recenter_eq h.holds.before_leads h.holds.after_leads p
  rw [hrecenter]
  exact ⟨hc.quiet.rechained (rechained_dealt o p _), hc.redrawAll⟩

theorem Calm.setBuffer {buf : Buffer} (hc : Calm o) (hsame : buf.redrawAll = o.buffer.redrawAll) :
    Calm { o with buffer := buf } :=
  ⟨hc.quiet, hsame.trans hc.redrawAll⟩

/-- Once the chains of the only buffer are cleared, no record is attached any more. -/
theorem Alone.reclaim_clear (h : Alone o) : o.clear.state.arena.reclaim.state = {} := by
  obtain ⟨before, after, hindexed⟩ := h.hung
  obtain ⟨-, hcleared, -⟩ := hindexed.clear
  have hnone : ∀ id r, o.clear.state.arena.find? id = some r → r.isAttached = false := by
    intro id r hr
    by_contra hattached
    rw [Bool.not_eq_false] at hattached
    exact List.not_mem_nil ((h.clear.mem_iff hcleared).mpr ⟨r, hr, hattached⟩)
  unfold Arena.reclaim
  split
  · rename_i hany
    obtain ⟨r, hmem, hattached⟩ := Array.any_eq_true'.mp hany
    obtain ⟨i, hi, rfl⟩ := Array.mem_iff_getElem.mp hmem
    have hr : o.clear.state.arena.find? i = some o.clear.state.arena.records[i] := by
      rw [Arena.find?, if_pos (Int.natCast_nonneg i), Int.toNat_natCast,
        Array.getElem?_eq_getElem hi]
    cases (hnone i _ hr).symm.trans hattached
  · rfl

end Overlaid

/-! ## Viewers -/

namespace Viewer

open Buffer (Settled)
open Overlaid (Calm Made)
open Code

variable {m : Bool} {o : Overlaid} {v : Viewer} {files : FileTree}

/-! ### What a load leaves -/

/-- A page on which these characters were just put, whatever was there before. -/
structure Fresh (m : Bool) (new : List Int) (o : Overlaid) : Prop where
  multibyte : o.buffer.multibyte = m
  represents : o.buffer.Represents { chars := new, upper := 1 + new.length }
  gap_eq : o.buffer.gap = o.buffer.last
  arena_eq : o.arena = {}
  chains_eq : o.buffer.overlays = { arena := o.buffer.overlays.arena }

/-- The gap of a text that was just put into an empty buffer is at its end. -/
theorem gap_insertExternal {b : Buffer} {s : Bytes} {x : Logged Buffer} {new : List Int}
    (h : b.Represents {}) (hx : b.insertExternal 1 s = .ok x) (hsound : x.value.Sound new) :
    x.value.gap = x.value.last := by
  refine hsound.gap.eq_of_char hsound.last ?_
  show x.value.gapChar = x.value.endChar
  have hend : b.endChar = 1 := h.sound.endChar_eq
  unfold Buffer.insertExternal Buffer.insert at hx
  split at hx
  · cases hx
  · cases hx
    split
    · have hone : 1 ≤ b.gapChar := h.sound.gap.one_le
      have hlast : b.gapChar ≤ 1 := h.sound.gap.le_last
      show b.gapChar = b.endChar
      omega
    · show 1 + (b.countChars _ : Int) = b.endChar + b.countChars _
      rw [hend]

theorem Sane.exists_fresh (h : Sane m v) (s : Bytes) :
    ∃ page, (v.loadBytes s).value = { v with page } ∧
      Fresh m (decodeText m (v.buffer.internalForm s)) page ∧
      page.buffer.trappings =
        ({ arena := v.buffer.overlays.arena }, v.buffer.flags, v.buffer.redrawAll) := by
  obtain ⟨before, after, hindexed⟩ := h.page.alone.hung
  obtain ⟨events, hclear⟩ := Overlaid.clear_eq hindexed.holds
  obtain ⟨x, hx, hempty, hm, hsound, hrep, hvalue⟩ := h.exists_inserted s
  have htrappings : x.value.trappings =
      ({ arena := v.buffer.overlays.arena }, v.buffer.flags, v.buffer.redrawAll) := by
    rw [Buffer.trappings_run (c := .insertExternal 1 s) hx, Buffer.trappings_erase, hclear]
    rfl
  refine ⟨_, hvalue, ⟨hm, hrep, gap_insertExternal hempty hx hsound,
    h.page.alone.reclaim_clear, ?_⟩, htrappings⟩
  have hchains : x.value.overlays = { arena := v.buffer.overlays.arena } :=
    congrArg Prod.fst htrappings
  show x.value.overlays = { arena := x.value.overlays.arena }
  rw [hchains]

theorem Fresh.indexed {new : List Int} (h : Fresh m new o) (halone : o.Alone) :
    Overlaid.Indexed 0 0 o [] [] := by
  obtain ⟨before, after, hindexed⟩ := halone.hung
  have hbefore := hindexed.holds.before_leads
  have hafter := hindexed.holds.after_leads
  rw [h.chains_eq] at hbefore hafter
  cases hbefore
  cases hafter
  exact hindexed

/-- All places of a page just loaded are known. -/
theorem Fresh.places {new : List Int} (h : Fresh m new o) :
    o.buffer.point = .first ∧ o.buffer.lower = .first ∧ o.buffer.upper = o.buffer.last := by
  have hsound := h.represents.sound
  have hend := hsound.endChar_eq
  refine ⟨hsound.point.eq_of_char (isPlace_first _ _) h.represents.point_eq,
    hsound.lower.eq_of_char (isPlace_first _ _) h.represents.lower_eq,
    hsound.upper.eq_of_char hsound.last ?_⟩
  rw [h.represents.upper_eq]
  show (1 + new.length : Int) = o.buffer.endChar
  rw [hend]
  exact Int.add_comm _ _

theorem Fresh.toList_eq {s : Bytes} (h : Fresh m (decodeText m s) o) (hs : IsText m s) :
    o.buffer.text.toList = s := by
  have hsound := h.represents.sound
  rw [hsound.wellFormed.toInShape.toList_eq, hsound.contents_eq, h.multibyte]
  exact (isText_iff.mp hs).2

/-- How far two pages can differ on which the same characters were just put. -/
theorem Fresh.eq_with {new : List Int} {o' : Overlaid} (h : Fresh m new o) (h' : Fresh m new o')
    (hredraw : o.buffer.redrawAll = o'.buffer.redrawAll) :
    o.buffer.last = o'.buffer.last ∧
    o = { o' with buffer :=
      { o'.buffer with
        text := o.buffer.text
        tick := o.buffer.tick
        charsTick := o.buffer.charsTick
        flags := o.buffer.flags
        overlays := { o'.buffer.overlays with arena := o.buffer.overlays.arena } } } := by
  obtain ⟨hpoint, hlower, hupper⟩ := h.places
  obtain ⟨hpoint', hlower', hupper'⟩ := h'.places
  have hkind : o.buffer.multibyte = o'.buffer.multibyte := h.multibyte.trans h'.multibyte.symm
  have hend : o.buffer.endChar = o'.buffer.endChar :=
    h.represents.endChar_eq.trans h'.represents.endChar_eq.symm
  have hlast : o.buffer.last = o'.buffer.last :=
    h.represents.sound.last.eq_of_char (hkind ▸ h'.represents.sound.last) hend
  have hgap : o.buffer.gapChar = o'.buffer.gapChar :=
    (congrArg Position.char h.gap_eq).trans (hend.trans (congrArg Position.char h'.gap_eq).symm)
  refine ⟨hlast, ?_⟩
  rw [hlast, ← hupper'] at hupper
  rw [← hpoint'] at hpoint
  rw [← hlower'] at hlower
  have hchains := h.chains_eq
  have harena := h.arena_eq.trans h'.arena_eq.symm
  rw [h'.chains_eq]
  obtain ⟨arena, buffer⟩ := o
  obtain ⟨multibyte, text, point, lower, upper, endChar, gapChar, tick, charsTick, overlays, flags,
    redrawAll⟩ := buffer
  dsimp only at *
  subst hkind hpoint hlower hupper hend hgap hredraw harena
  rw [hchains]

/-! ### The history of a viewer -/

theorem spreads_match : Overlaid.spreads [(Bytes.ascii "face", Bytes.ascii "match")] = false := by
  decide

theorem Orderly.calm_markBytes (h : Orderly m o) (hc : Calm o) (lo hi : Int) :
    Calm (Viewer.markBytes o lo hi).value := by
  obtain ⟨before, after, hindexed⟩ := h.alone.hung
  exact hc.make hindexed _ _ spreads_match

theorem Orderly.calm_deleteOverlays (h : Orderly m o) (hc : Calm o) (ids : List Int) :
    Calm (Viewer.deleteOverlays o ids).value := by
  rw [value_deleteOverlays]
  induction ids generalizing o with
  | nil => exact hc
  | cons id ids ih =>
      refine ih (h.without id) ?_
      obtain ⟨before, after, hindexed⟩ := h.alone.hung
      rw [h.alone.without_eq hindexed]
      split
      · rename_i hid
        exact hc.unlink hindexed hid
      · exact hc

theorem Sane.calm_markMatches (h : Sane m v) (hc : Calm v.page) (word : Bytes) :
    Calm (v.markMatches word).value.1.page := by
  unfold Viewer.markMatches
  split
  · exact hc
  · rw [Logged.value_bind, value_foldlM]
    show Calm (List.foldl _ v.page _)
    generalize Bytes.matchesFrom _ 0 0 _ = found
    have hpage := h.page
    generalize v.page = o at hpage hc ⊢
    induction found generalizing o with
    | nil => exact hc
    | cons i found ih => exact ih _ (hpage.markBytes _ _) (hpage.calm_markBytes hc _ _)

theorem Sane.calm_perform (h : Sane m v) (hc : Calm v.page) (a : Action) :
    Calm (v.perform a).value.page := by
  obtain ⟨before, after, hindexed⟩ := h.page.alone.hung
  cases a with
  | left =>
      show Calm v.moveLeft.page
      rw [moveLeft_eq]
      exact hc.setBuffer rfl
  | right =>
      show Calm v.moveRight.page
      rw [moveRight_eq]
      exact hc.setBuffer rfl
  | deleteHere => exact h.page.calm_deleteOverlays hc _
  | deleteAll => exact hc.clear hindexed
  | recenter => exact hc.recenter hindexed _
  | nextTab => exact hc.setBuffer rfl
  | resetTab => exact hc.setBuffer rfl
  | quit => exact hc

theorem page_render (v : Viewer) : v.render.page = v.page := by
  unfold Viewer.render
  split <;> rfl

theorem Sane.calm_press (h : Sane m v) (hc : Calm v.page) (key : Int) :
    Calm (v.press key).value.page := by
  unfold Viewer.press
  dsimp only
  split
  · exact (h.say []).calm_perform hc _
  · exact hc

theorem Sane.calm_interact (h : Sane m v) (hc : Calm v.page) (keys : List Int) :
    Calm (v.interact keys).value.1.page := by
  have hrender : ∀ {v : Viewer}, Calm v.page → Calm v.render.page := fun {v} hc =>
    (page_render v).symm ▸ hc
  induction keys generalizing v with
  | nil =>
      unfold Viewer.interact
      split
      · exact hc
      · exact h.render.calm_press (hrender hc) quitKey
  | cons key keys ih =>
      unfold Viewer.interact
      split
      · exact hc
      · exact ih (h.render.press key) (h.render.calm_press (hrender hc) key)

theorem Sane.calm_loadBytes (h : Sane m v) (hc : Calm v.page) (s : Bytes) :
    Calm (v.loadBytes s).value.page := by
  obtain ⟨page, hvalue, hfresh, htrappings⟩ := h.exists_fresh s
  rw [hvalue]
  refine ⟨?_, (congrArg (·.2.2) htrappings).trans hc.redrawAll⟩
  show page.arena.Quiet
  rw [hfresh.arena_eq]
  exact Arena.quiet_empty

theorem Sane.calm_step {k : Command} (h : Sane m v) (hc : Calm v.page) (hk : v.Allowed k) :
    Calm (v.step files k).page := by
  have hload : ∀ s, Calm (v.loadBytes s).value.page := fun s => h.calm_loadBytes hc s
  cases k with
  | load s => exact hload s
  | loadFile path =>
      show Calm (Viewer.run v files (.loadFile path)).value.1.page
      unfold Viewer.run Viewer.load
      rw [Logged.value_bind, Logged.value_bind]
      cases (files.read path).value with
      | error err => exact hc
      | ok s => exact hload s
  | mark word => exact h.calm_markMatches hc word
  | press key => exact h.calm_press hc key
  | interact keys => exact h.calm_interact hc keys
  | moveLeft =>
      show Calm v.moveLeft.page
      rw [moveLeft_eq]
      exact hc.setBuffer rfl
  | moveRight =>
      show Calm v.moveRight.page
      rw [moveRight_eq]
      exact hc.setBuffer rfl
  | render =>
      show Calm v.render.page
      rwa [page_render]
  | edit c =>
      show Calm (Viewer.run v files (.edit c)).value.1.page
      unfold Viewer.run
      dsimp only
      split
      · rename_i x hx
        exact hc.setBuffer (congrArg (·.2.2) (Buffer.trappings_run hx))
      · exact hc

/-- What can have happened to a viewer: commands, overlays dealt out around any place, and overlays
deleted by number. -/
inductive Change where
  | command (k : Command)
  | recenter (p : Int)
  | delete (ids : List Int)
deriving DecidableEq, Repr

def change (files : FileTree) (v : Viewer) : Change → Viewer
  | .command k => v.step files k
  | .recenter p => { v with page := (v.page.recenter p).state }
  | .delete ids => { v with page := (deleteOverlays v.page ids).value }

/-- Callers promise something about edits of the text only. -/
def Permits (v : Viewer) : Change → Prop
  | .command k => v.Allowed k
  | .recenter _ | .delete _ => True

instance (v : Viewer) : (k : Change) → Decidable (v.Permits k)
  | .command k => inferInstanceAs (Decidable (v.Allowed k))
  | .recenter _ | .delete _ => inferInstanceAs (Decidable True)

theorem Sane.change {k : Change} (h : Sane m v) (hc : Calm v.page) (hk : v.Permits k) :
    Sane m (v.change files k) ∧ Calm (v.change files k).page := by
  obtain ⟨before, after, hindexed⟩ := h.page.alone.hung
  cases k with
  | command k => exact ⟨h.step hk, h.calm_step hc hk⟩
  | recenter p => exact ⟨h.setPage (h.page.recenter p), hc.recenter hindexed p⟩
  | delete ids => exact ⟨h.setPage (h.page.deleteOverlays ids), h.page.calm_deleteOverlays hc ids⟩

theorem sane_history {rows cols : Nat} (ks : List Change)
    (h : Along (change files) Permits (start rows cols m) ks) :
    Sane m (ks.foldl (change files) (start rows cols m)) ∧
      Calm (ks.foldl (change files) (start rows cols m)).page :=
  Along.invariant (I := fun v => Sane m v ∧ Calm v.page)
    (fun _ _ hv hk => hv.1.change hv.2 hk) ks
    ⟨sane_start rows cols m, Arena.quiet_empty, rfl⟩ h

/-! ### Marks on two pages with the same text -/

/-- Two viewers with the same text, overlays with the same bounds under the same numbers, and the
same overlays on their chains. -/
structure Alike (m : Bool) (u v : Viewer) : Prop where
  left : Sane m u
  right : Sane m v
  chars_eq : v.buffer.chars = u.buffer.chars
  center_eq : v.buffer.overlays.center = u.buffer.overlays.center
  loose_eq : v.page.arena.loose = u.page.arena.loose
  hung : ∃ before after, Overlaid.Indexed 0 0 u.page before after ∧
    Overlaid.Indexed 0 0 v.page before after

/-- Marking a word does the same to both. -/
theorem Alike.markMatches {u : Viewer} (h : Alike m u v) (word : Bytes) :
    (v.markMatches word).value.2 = (u.markMatches word).value.2 ∧
      Alike m (u.markMatches word).value.1 (v.markMatches word).value.1 := by
  obtain ⟨before, after, hindexed, hindexed'⟩ := h.hung
  by_cases hword : word = []
  · subst hword
    exact ⟨rfl, h⟩
  obtain ⟨-, found, page, hgreedy, hvalue, hmade⟩ := h.left.exists_marked hword
  obtain ⟨-, found', page', hgreedy', hvalue', hmade'⟩ := h.right.exists_marked hword
  -- both search the same characters for the same ones
  have hinner : v.buffer.internalForm word = u.buffer.internalForm word :=
    Buffer.internalForm_congr (h.right.page.settled.1.trans h.left.page.settled.1.symm) word
  rw [hinner, h.chars_eq] at hgreedy' hmade'
  obtain rfl := hgreedy.unique hgreedy'
  have hsize : v.page.arena.size = u.page.arena.size := by
    rw [← Arena.length_loose, h.loose_eq, Arena.length_loose]
  have hloose : page'.arena.loose = page.arena.loose := by
    rw [hmade'.records, hmade.records, h.loose_eq]
  have hsane := h.left.markMatches word
  have hsane' := h.right.markMatches word
  rw [hvalue] at hsane ⊢
  rw [hvalue'] at hsane' ⊢
  refine ⟨rfl, hsane, hsane', ?_, ?_, hloose, ?_⟩
  · exact hmade'.chars_eq.trans (h.chars_eq.trans hmade.chars_eq.symm)
  · exact hmade'.center.trans (h.center_eq.trans hmade.center.symm)
  · exact hmade.exists_indexed hmade' hindexed hindexed' hsize
      (by rw [hmade'.size_eq, hmade.size_eq, hsize]) h.center_eq
      (Arena.stopChar_congr_loose_list hloose)

theorem Fresh.alike {u : Viewer} {new : List Int} (h : Fresh m new u.page)
    (h' : Fresh m new v.page) (hu : Sane m u) (hv : Sane m v) : Alike m u v where
  left := hu
  right := hv
  chars_eq := h'.represents.sound.chars_eq.trans h.represents.sound.chars_eq.symm
  center_eq := by
    show v.page.buffer.overlays.center = u.page.buffer.overlays.center
    rw [h.chains_eq, h'.chains_eq]
  loose_eq := by rw [h.arena_eq, h'.arena_eq]
  hung := ⟨[], [], h.indexed hu.page.alone, h'.indexed hv.page.alone⟩

/-- The viewer after a word was marked. -/
def marked (v : Viewer) (word : Bytes) : Viewer := (v.markMatches word).value.1

theorem Alike.foldl_marked {u : Viewer} (h : Alike m u v) (words : List Bytes) :
    Alike m (words.foldl marked u) (words.foldl marked v) := by
  induction words generalizing u v with
  | nil => exact h
  | cons word words ih => exact ih (h.markMatches word).2

/-- **A load makes a viewer as good as new.** Whatever was loaded, marked, moved, narrowed, edited,
dealt out and deleted before, the same bytes loaded into a fresh viewer give the same text, all of
it accessible, with the point at its start and the gap at its end, and in both there are no
overlays, no records of any, and the center is at the start. Everything else about the two pages is
the same too, but for the size of the gap, the counts of edits, the local flags and the arena that
the buffer is bound to; and the rest of the viewer is as it was before the load. So words that are
marked then get the same numbers of overlays, under the same numbers, with the same bounds, on the
same chains. -/
theorem reload_run (rows cols rows' cols' : Nat) (m : Bool) (files : FileTree) (ks : List Change)
    (h : Along (change files) Permits (start rows cols m) ks) (s : Bytes) :
    let v := ks.foldl (change files) (start rows cols m)
    let old := (v.loadBytes s).value
    let new := ((start rows' cols' m).loadBytes s).value
    let b := old.buffer
    (b.text.toList = b.internalForm s ∧ new.buffer.text.toList = b.internalForm s) ∧
    (b.last = new.buffer.last ∧ b.gap = new.buffer.gap ∧ b.gap = b.last ∧ b.point = .first ∧
      b.lower = .first ∧ b.upper = b.last) ∧
    (old.page.chains = .ok ([], []) ∧ b.overlays.center = 1 ∧ old.page.arena = {}) ∧
    old = { v with page :=
      { new.page with buffer :=
        { new.buffer with
          text := b.text
          tick := b.tick
          charsTick := b.charsTick
          flags := v.buffer.flags
          overlays := { new.buffer.overlays with arena := v.buffer.overlays.arena } } } } ∧
    ∀ words : List Bytes,
      let u := words.foldl marked old
      let w := words.foldl marked new
      u.page.arena.loose = w.page.arena.loose ∧
      (∃ before after, u.page.chains = .ok (before, after) ∧
        w.page.chains = .ok (before, after)) ∧
      ∀ word, (u.markMatches word).value.2 = (w.markMatches word).value.2 := by
  intro v old new b
  obtain ⟨hv, hcalm⟩ : Sane m v ∧ Calm v.page := sane_history ks h
  have hstart := sane_start rows' cols' m
  obtain ⟨page, hvalue, hfresh, htrappings⟩ := hv.exists_fresh s
  obtain ⟨page', hvalue', hfresh', htrappings'⟩ := hstart.exists_fresh s
  have hinner : (start rows' cols' m).buffer.internalForm s = v.buffer.internalForm s :=
    Buffer.internalForm_congr hv.page.settled.1.symm s
  rw [hinner] at hfresh'
  have htext : IsText m (v.buffer.internalForm s) :=
    hv.page.settled.1 ▸ Buffer.isText_internalForm v.buffer s
  have hredraw : page.buffer.redrawAll = page'.buffer.redrawAll :=
    (congrArg (·.2.2) htrappings).trans
      (hcalm.redrawAll.trans (congrArg (·.2.2) htrappings').symm)
  have hold : old = { v with page } := hvalue
  have hnew : new = { start rows' cols' m with page := page' } := hvalue'
  have hsane : Sane m old := hv.loadBytes s
  have hsane' : Sane m new := hstart.loadBytes s
  rw [show page = old.page by rw [hold]] at hfresh htrappings hredraw hold
  rw [show page' = new.page by rw [hnew]] at hfresh' hredraw
  have hb : b.internalForm s = v.buffer.internalForm s :=
    Buffer.internalForm_congr (hfresh.multibyte.trans hv.page.settled.1.symm) s
  obtain ⟨hlast, heq⟩ := hfresh.eq_with hfresh' hredraw
  obtain ⟨hpoint, hlower, hupper⟩ := hfresh.places
  have hchains : old.page.chains = .ok ([], []) :=
    (hfresh.indexed hsane.page.alone).chains_eq
  have hcenter : b.overlays.center = 1 := congrArg Chains.center hfresh.chains_eq
  have hgap : b.gap = new.buffer.gap := hfresh.gap_eq.trans (hlast.trans hfresh'.gap_eq.symm)
  refine ⟨⟨?_, ?_⟩, ⟨hlast, hgap, hfresh.gap_eq, hpoint, hlower, hupper⟩,
    ⟨hchains, hcenter, hfresh.arena_eq⟩, ?_, fun words => ?_⟩
  · rw [hb]
    exact hfresh.toList_eq htext
  · rw [hb]
    exact hfresh'.toList_eq htext
  · have hflags : old.page.buffer.flags = v.buffer.flags := congrArg (·.2.1) htrappings
    have hbound : old.page.buffer.overlays.arena = v.buffer.overlays.arena :=
      congrArg (·.1.arena) htrappings
    rw [hflags, hbound] at heq
    exact hold.trans (congrArg (fun page => { v with page }) heq)
  · have halike := (hfresh'.alike hfresh hsane' hsane).foldl_marked words
    obtain ⟨before, after, hindexed, hindexed'⟩ := halike.hung
    exact ⟨halike.loose_eq, ⟨before, after, hindexed'.chains_eq, hindexed.chains_eq⟩,
      fun word => (halike.markMatches word).1⟩

/-- Three matches marked and dealt out, one of them deleted; the part between the others made
accessible and taken away, so that the last overlay lies past the end; then a text with raw bytes
and words with one. -/
theorem reload_run_past_end :
    let ks : List Change :=
      [.command (.load [0x61, 0x62, 0xC3, 0xA9, 0x61, 0x62, 0xFF, 0x61, 0x62]),
        .command (.mark [0x61, 0x62]), .recenter 5, .delete [1, 7], .command (.press 116),
        .command (.edit (.narrow 3 7)), .command (.edit (.delete 3 7)), .command (.press 261)]
    let s : Bytes := [0x78, 0xFF, 0xC3, 0xA9, 0xFF]
    let words : List Bytes := [[0xFF], [0x78, 0xFF]]
    let v := ks.foldl (change {}) (start 3 10 true)
    let old := (v.loadBytes s).value
    let new := ((start 3 10 true).loadBytes s).value
    Along (change {}) Permits (start 3 10 true) ks ∧
      old.buffer.text.toList = new.buffer.text.toList ∧ old.buffer.last = ⟨5, 8⟩ ∧
      old.buffer.lower = .first ∧ old.buffer.upper = ⟨5, 8⟩ ∧
      old.page.chains = .ok ([], []) ∧ old.page.arena = {} ∧
      (words.foldl marked old).page.arena.loose = (words.foldl marked new).page.arena.loose := by
  intro ks s words v old new
  have hks : Along (change {}) Permits (start 3 10 true) ks := by decide +kernel
  obtain ⟨⟨hold, hnew⟩, ⟨hlast, -, -, -, hlower, hupper⟩, ⟨hchains, -, harena⟩, -, hmarks⟩ :=
    reload_run 3 10 3 10 true {} ks hks s
  have hend : new.buffer.last = ⟨5, 8⟩ := by decide +kernel
  clear_value words
  exact ⟨hks, hold.trans hnew.symm, hlast.trans hend, hlower, hupper.trans (hlast.trans hend),
    hchains, harena, (hmarks words).1⟩

/-- A viewer that was told to quit still has to quit after a load, as a fresh one has not. -/
theorem quitting_loadBytes :
    let v := [Change.command (.press 113)].foldl (change {}) (start 3 10 true)
    ¬ (v.loadBytes [0x61]).value.quitting =
      ((start 3 10 true).loadBytes [0x61]).value.quitting := by
  decide +kernel

end Viewer

end GapText
