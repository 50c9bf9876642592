import GapText.Proofs.Deletion
import GapText.Proofs.Marks

/-!
# The overlays at the point

Which overlays are deleted at the point is decided before the first of them goes. Each deletion
takes its overlay off the chain it is on, which may be either one, and changes where others hang,
but not where they lie; so what was decided of the others stays right, and in the end just the
overlays that were around the point are nowhere (`Thinned`).
-/

namespace GapText

/-- The overlay is in a buffer, and the character behind the place lies in it. -/
def Overlay.IsAround (r : Overlay) (p : Int) : Prop :=
  r.isAttached = true ∧ r.start.place.char ≤ p ∧ p < r.stop.place.char

theorem Overlay.covers_iff {r : Overlay} {p : Int} :
    r.covers p = true ↔ r.start.place.char ≤ p ∧ p < r.stop.place.char := decide_eq_true_iff

theorem Arena.size_congr {a a' : Arena}
    (h : ∀ id, (a'.find? id).isSome = (a.find? id).isSome) : a'.size = a.size := by
  have hcontains : ∀ id, a'.contains id = true ↔ a.contains id = true := fun id => by
    rw [contains_iff, contains_iff, ← Option.isSome_iff_exists, ← Option.isSome_iff_exists, h id]
  have hlt : ∀ n : Nat, n < a'.size ↔ n < a.size := fun n => by
    have hn := hcontains n
    simp only [contains, decide_eq_true_eq] at hn
    omega
  have hself := hlt a.size
  have hself' := hlt a'.size
  omega

namespace Overlaid

variable {o o₁ o' : Overlaid} {b : BufferId} {home : ArenaId} {before after ids : List Int}
  {id p : Int}

/-! ## Some of the overlays -/

/-- These overlays are nowhere, with their properties. The others hang on the chains they were on,
in the same order, and are the same otherwise; and so is the buffer. -/
structure Thinned (b : BufferId) (home : ArenaId) (o : Overlaid) (before after ids : List Int)
    (o' : Overlaid) : Prop where
  indexed : Indexed b home o' (before.filter (· ∉ ids)) (after.filter (· ∉ ids))
  records : ∀ i, (o'.arena.find? i).map Overlay.loose =
    (o.arena.find? i).map fun r => if i ∈ ids then r.detached else r.loose
  buffer_eq : ∃ l, o'.buffer = { o.buffer with
      overlays := l, redrawAll := o.buffer.redrawAll || ids.any (spreadsAt o.arena) } ∧
    l.center = o.buffer.overlays.center ∧ l.arena = o.buffer.overlays.arena

theorem thinned_nil (h : Indexed b home o before after) : Thinned b home o before after [] o where
  indexed := by simpa using h
  records := fun i => by simp
  buffer_eq := ⟨o.buffer.overlays, by simp, rfl, rfl⟩

theorem Thinned.size_eq (h : Thinned b home o before after ids o') :
    o'.arena.size = o.arena.size := by
  refine Arena.size_congr fun i => ?_
  have hrecord := congrArg Option.isSome (h.records i)
  rwa [Option.isSome_map, Option.isSome_map] at hrecord

/-- One overlay is taken off its chain. -/
theorem Indexed.exists_thinned (h : Indexed b home o before after) (hid : id ∈ before ++ after) :
    ∃ o₁, o.unlink id = .done o₁ () [.overlayDeleted id] ∧
      Thinned b home o before after [id] o₁ := by
  obtain ⟨r, hr, -⟩ := (h.holds.ofBuffer id).mp hid
  obtain ⟨a, l, hunlink, hcenter, harena, -, -, hsame⟩ := h.exists_unlinked hid hr
  obtain ⟨-, hindexed, -⟩ := h.unlink hid
  obtain ⟨hnodupB, hnodupA, -⟩ := List.nodup_append.mp h.holds.nodup
  have herase : ∀ {is : List Int}, is.Nodup → is.erase id = is.filter (· ∉ [id]) := fun hnodup => by
    rw [hnodup.erase_eq_filter]
    exact List.filter_congr fun i _ => by simp [bne, beq_eq_decide]
  rw [hunlink, herase hnodupB, herase hnodupA] at hindexed
  refine ⟨_, hunlink, hindexed, fun i => ?_, l, ?_, hcenter, harena⟩
  · show ((a.detachAll [id]).find? i).map Overlay.loose = _
    rw [Arena.find?_detachAll]
    split
    · rw [hsame.map_detached_eq, Option.map_map]
      rfl
    · exact hsame.loose_eq i
  · simp [spreadsAt, hr]

/-- A deleted overlay keeps its properties. -/
theorem Thinned.spreadsAt_eq (h : Thinned b home o before after ids o') :
    spreadsAt o'.arena = spreadsAt o.arena := by
  funext i
  have hrecord := h.records i
  unfold spreadsAt
  cases hr : o.arena.find? i with
  | none =>
      rw [hr, Option.map_none, Option.map_eq_none_iff] at hrecord
      rw [hrecord]
  | some r =>
      rw [hr] at hrecord
      obtain ⟨r', hr', hloose⟩ := Option.map_eq_some_iff.mp hrecord
      have hprops : r'.props = r.props := by
        refine (congrArg (·.props) hloose).trans ?_
        split <;> rfl
      rw [hr', Option.any_some, Option.any_some, hprops]

theorem Thinned.cons (h : Thinned b home o before after [id] o₁)
    (h' : Thinned b home o₁ (before.filter (· ∉ [id])) (after.filter (· ∉ [id])) ids o') :
    Thinned b home o before after (id :: ids) o' := by
  have hfilter : ∀ is : List Int,
      (is.filter (· ∉ [id])).filter (· ∉ ids) = is.filter (· ∉ id :: ids) := fun is => by
    rw [List.filter_filter]
    refine List.filter_congr fun i _ => ?_
    simp [Bool.and_comm]
  obtain ⟨l, hl, hcenter, harena⟩ := h.buffer_eq
  obtain ⟨l', hl', hcenter', harena'⟩ := h'.buffer_eq
  refine ⟨?_, fun i => ?_, l', ?_, ?_, ?_⟩
  · rw [← hfilter, ← hfilter]
    exact h'.indexed
  · -- what is nowhere already is not changed again
    have hrecord := h.records i
    rw [h'.records i]
    cases hr : o.arena.find? i with
    | none =>
        rw [hr, Option.map_none, Option.map_eq_none_iff] at hrecord
        rw [hrecord]
        rfl
    | some r =>
        rw [hr] at hrecord
        obtain ⟨r₁, hr₁, hloose⟩ := Option.map_eq_some_iff.mp hrecord
        have hdetached : r₁.detached = r₁.loose.detached := rfl
        rw [hr₁, Option.map_some, Option.map_some, hdetached, hloose]
        by_cases hi : i = id
        · simp [hi, Overlay.detached]
        · simp [hi, Overlay.detached, Overlay.loose]
  · rw [hl', h.spreadsAt_eq, hl]
    simp [Bool.or_assoc]
  · rw [hcenter', hl, hcenter]
  · rw [harena', hl, harena]

/-- What is around a place afterwards was around it before, and is none of those that are gone. -/
theorem Thinned.not_isAround (h : Thinned b home o before after ids o') {r : Overlay}
    (hall : ∀ i r, o.arena.find? i = some r → r.IsAround p → i ∈ ids)
    (hr : o'.arena.find? id = some r) : ¬ r.IsAround p := by
  intro haround
  have hrecord := h.records id
  rw [hr, Option.map_some] at hrecord
  obtain ⟨r₀, hr₀, hloose⟩ := Option.map_eq_some_iff.mp hrecord.symm
  split at hloose
  · rename_i hid
    have hnowhere : r.isAttached = false := by
      show r.loose.isAttached = false
      rw [← hloose]
      rfl
    rw [haround.1] at hnowhere
    cases hnowhere
  · rename_i hid
    refine hid (hall id r₀ hr₀ ?_)
    have hsame : r.loose.IsAround p := haround
    rw [← hloose] at hsame
    exact hsame

end Overlaid

namespace Viewer

open Overlaid Bytes

variable {o : Overlaid} {before after ids : List Int} {v : Viewer}

/-! ## One after the other -/

/-- Each of some overlays is found on its chain when its turn comes. -/
theorem exists_deleteOverlays (h : o.Alone) (hindexed : Indexed 0 0 o before after)
    (hnodup : ids.Nodup) (hsub : ids ⊆ before ++ after) :
    ∃ o', deleteOverlays o ids = ⟨o', ids.map .overlayDeleted⟩ ∧ o'.Alone ∧
      Thinned 0 0 o before after ids o' := by
  induction ids generalizing o before after with
  | nil => exact ⟨o, rfl, h, thinned_nil hindexed⟩
  | cons id ids ih =>
      obtain ⟨hnot, hnodup⟩ := List.nodup_cons.mp hnodup
      obtain ⟨hid, hsub⟩ := List.cons_subset.mp hsub
      obtain ⟨o₁, hunlink, hthinned⟩ := hindexed.exists_thinned hid
      obtain ⟨-, -, htouches⟩ := hindexed.unlink hid
      rw [hunlink] at htouches
      have hrest : ids ⊆ before.filter (· ∉ [id]) ++ after.filter (· ∉ [id]) := by
        intro i hi
        have hne : i ≠ id := fun heq => hnot (heq ▸ hi)
        rw [← List.filter_append, List.mem_filter]
        exact ⟨hsub hi, by simpa using hne⟩
      obtain ⟨o', hdelete, halone, hthinned'⟩ :=
        ih (h.of_touches hthinned.indexed htouches) hthinned.indexed hnodup hrest
      refine ⟨o', ?_, halone, hthinned.cons hthinned'⟩
      have hattached : (o.arena.find? id).any Overlay.isAttached = true :=
        (Option.any_eq_true _ _).mpr ((h.mem_iff hindexed).mp hid)
      have hstep : deleteOverlays o (id :: ids) =
          (if (o.arena.find? id).any Overlay.isAttached then (o.unlink id).settle else pure o) >>=
            fun o => deleteOverlays o ids := List.foldlM_cons
      rw [hstep, if_pos hattached, hunlink]
      show (⟨(deleteOverlays o₁ ids).value,
        [.overlayDeleted id] ++ (deleteOverlays o₁ ids).events⟩ : Logged Overlaid) = _
      rw [hdelete]
      rfl

/-! ## At the point -/

/-- What the key says. -/
def report (n : Nat) : Bytes := ascii "deleted " ++ digits n ++ ascii " overlays"

theorem press_deleteHere (v : Viewer) :
    v.press 120 = ⟨{ v with
      page := (deleteOverlays v.page v.overlaysHere).value
      message := report v.overlaysHere.length },
      (deleteOverlays v.page v.overlaysHere).events⟩ := by
  have hpress : v.press 120 = (fun page => { v with page, message := report v.overlaysHere.length })
    <$> deleteOverlays v.page v.overlaysHere := rfl
  rw [hpress]
  exact congrArg (Logged.mk _) (Logged.events_map _ _)

theorem overlaysHere_eq (hindexed : Indexed 0 0 v.page before after) :
    v.overlaysHere = (before ++ after).filter fun id =>
      (v.page.arena.find? id).any (·.covers v.buffer.point.char) := by
  unfold overlaysHere overlaysAt linked
  rw [hindexed.chains_eq]
  rfl

theorem mem_overlaysHere (h : v.page.Alone) {id : Int} :
    id ∈ v.overlaysHere ↔
      ∃ r, v.page.arena.find? id = some r ∧ r.IsAround v.buffer.point.char := by
  obtain ⟨before, after, hindexed⟩ := h.hung
  rw [overlaysHere_eq hindexed, List.mem_filter, h.mem_iff hindexed, Option.any_eq_true]
  constructor
  · rintro ⟨⟨r, hr, hattached⟩, r', hr', hcovers⟩
    cases hr.symm.trans hr'
    exact ⟨r, hr, hattached, Overlay.covers_iff.mp hcovers⟩
  · rintro ⟨r, hr, hattached, hcovers⟩
    exact ⟨⟨r, hr, hattached⟩, r, hr, Overlay.covers_iff.mpr hcovers⟩

/-- Where no overlay is around the point the key only says so. -/
theorem press_deleteHere_of_none (h : v.page.Alone)
    (hnone : ∀ id r, v.page.arena.find? id = some r → ¬ r.IsAround v.buffer.point.char) :
    v.press 120 = ⟨{ v with message := report 0 }, []⟩ := by
  have hhere : v.overlaysHere = [] := by
    refine List.eq_nil_iff_forall_not_mem.mpr fun id hid => ?_
    obtain ⟨r, hr, haround⟩ := (mem_overlaysHere h).mp hid
    exact hnone id r hr haround
  rw [press_deleteHere, hhere]
  rfl

/-- **Deleting the overlays at the point.** In every viewer that can be reached, the key takes
exactly the overlays around the point off their chains, which may be both, and says how many they
were. They are nowhere then and keep their properties; all others stay where they are, on the same
chains in the same order. Besides the chains, and the wish to draw all again, nothing else of the
viewer changes. Pressed once more, the key finds nothing to delete. -/
theorem press_deletes_around_point (rows cols : Nat) (m : Bool) (files : FileTree)
    (ks : List Command) (h : Along (step files) Allowed (start rows cols m) ks) :
    let v := ks.foldl (step files) (start rows cols m)
    let v' := (v.press 120).value
    let p := v.buffer.point.char
    ∃ before after here, v.page.chains = .ok (before, after) ∧
      (here.Nodup ∧ here ⊆ before ++ after ∧
        ∀ id, id ∈ here ↔ ∃ r, v.page.arena.find? id = some r ∧ r.IsAround p) ∧
      v'.page.chains = .ok (before.filter (· ∉ here), after.filter (· ∉ here)) ∧
      (∀ id, (v'.page.arena.find? id).map Overlay.loose =
        (v.page.arena.find? id).map fun r => if id ∈ here then r.detached else r.loose) ∧
      v'.page.arena.size = v.page.arena.size ∧
      (∀ id r, v'.page.arena.find? id = some r → ¬ r.IsAround p) ∧
      (∃ l redrawAll, v' = { v with
          page := ⟨v'.page.arena, { v.buffer with overlays := l, redrawAll }⟩
          message := ascii "deleted " ++ digits here.length ++ ascii " overlays" } ∧
        l.center = v.buffer.overlays.center ∧ l.arena = v.buffer.overlays.arena) ∧
      (v.press 120).events = here.map .overlayDeleted ∧
      v'.press 120 = ⟨{ v' with message := ascii "deleted 0 overlays" }, []⟩ := by
  intro v v' p
  have halone : v.page.Alone := (sane_run ks h).page.alone
  obtain ⟨before, after, hindexed⟩ := halone.hung
  have hmem : ∀ id, id ∈ v.overlaysHere ↔ ∃ r, v.page.arena.find? id = some r ∧ r.IsAround p :=
    fun id => mem_overlaysHere halone
  have hsub : v.overlaysHere.Sublist (before ++ after) :=
    overlaysHere_eq hindexed ▸ List.filter_sublist
  have hnodup : v.overlaysHere.Nodup := hindexed.holds.nodup.sublist hsub
  obtain ⟨o', hdelete, halone', hthinned⟩ :=
    exists_deleteOverlays halone hindexed hnodup hsub.subset
  have hpress := press_deleteHere v
  rw [hdelete] at hpress
  have hv' : v' = { v with page := o', message := report v.overlaysHere.length } :=
    congrArg Logged.value hpress
  obtain ⟨l, hl, hcenter, harena⟩ := hthinned.buffer_eq
  have hnone : ∀ id r, o'.arena.find? id = some r → ¬ r.IsAround p := fun id r =>
    hthinned.not_isAround fun i r hr haround => (hmem i).mpr ⟨r, hr, haround⟩
  have hagain : v'.press 120 = ⟨{ v' with message := report 0 }, []⟩ := by
    refine press_deleteHere_of_none (hv' ▸ halone') ?_
    have hpoint : o'.buffer.point = v.page.buffer.point := by rw [hl]
    rw [hv']
    show ∀ id r, o'.arena.find? id = some r → ¬ r.IsAround o'.buffer.point.char
    rw [hpoint]
    exact hnone
  refine ⟨before, after, v.overlaysHere, hindexed.chains_eq, ⟨hnodup, hsub.subset, hmem⟩, ?_, ?_,
    ?_, ?_, ⟨l, o'.buffer.redrawAll, ?_, hcenter, harena⟩, congrArg Logged.events hpress, hagain⟩
  · rw [hv']
    exact hthinned.indexed.chains_eq
  · rw [hv']
    exact hthinned.records
  · rw [hv']
    exact hthinned.size_eq
  · rw [hv']
    exact hnone
  · rw [hv']
    have hbuffer : o'.buffer =
        { v.buffer with overlays := l, redrawAll := o'.buffer.redrawAll } := by
      rw [hl]
      rfl
    show _ = { v with page := ⟨o'.arena, _⟩, message := report v.overlaysHere.length }
    rw [← hbuffer]

section Examples

/-- Marking the matches of a word in this text. -/
def markedIn (text : Bytes) (v : Viewer) (s : Bytes) : Viewer :=
  let inner := v.buffer.internalForm s
  let mark (o : Overlaid) (i : Nat) := (markBytes o (i + 1) (i + 1 + inner.length)).value
  { v with page := (matchesFrom inner 0 0 text).foldl mark v.page }

theorem foldl_mark {files : FileTree} {m : Bool} {text : Bytes} {words : List Bytes}
    (h : Sane m v) (htext : v.buffer.text.contents = text) (hwords : ∀ s ∈ words, s ≠ []) :
    (words.map Command.mark).foldl (step files) v = words.foldl (markedIn text) v := by
  induction words generalizing v with
  | nil => rfl
  | cons s words ih =>
      obtain ⟨hs, hwords⟩ := List.forall_mem_cons.mp hwords
      have hlist : v.buffer.text.toList = text :=
        h.page.settled.sound.wellFormed.toInShape.toList_eq.trans htext
      have hstep : v.step files (.mark s) = v.markedIn text s := by
        show (v.markMatches s).value.1 = _
        unfold markMatches
        rw [if_neg (mt List.isEmpty_iff.mp hs), Logged.value_bind, value_foldlM, hlist]
        rfl
      -- marks leave the text alone
      obtain ⟨-, found, page, -, hvalue, hmade⟩ := h.exists_marked hs
      obtain ⟨l, hl⟩ := hmade.buffer
      have hafter : (v.step files (.mark s)).buffer.text.contents = text := by
        show (v.markMatches s).value.1.page.buffer.text.contents = text
        rw [hvalue, hl]
        exact htext
      rw [List.map_cons, List.foldl_cons, List.foldl_cons, ← hstep]
      exact ih (h.step trivial) hafter hwords

/-- The overlay around the point goes from its chain, and the one on the other chain stays. -/
theorem press_deletes_around_point_first :
    let words : List Bytes := [[0x61, 0x62], [0x62, 0x62]]
    let moves : List Command :=
      [.moveRight, .moveRight, .moveRight, .press 114, .moveLeft, .moveLeft, .moveLeft]
    let ks : List Command := .load [0x61, 0x62, 0x62] :: (words.map .mark ++ moves)
    let v := ks.foldl (step {}) (start 3 10 false)
    let v' := (v.press 120).value
    Along (step {}) Allowed (start 3 10 false) ks ∧ v.page.chains = .ok ([0], [1]) ∧
      v'.page.chains = .ok ([], [1]) ∧ v'.message = ascii "deleted 1 overlays" ∧
      v'.press 120 = ⟨{ v' with message := ascii "deleted 0 overlays" }, []⟩ := by
  intro words moves ks
  have hks : Along (step {}) Allowed (start 3 10 false) ks := along_allowed (by decide) _
  obtain ⟨before, after, here, hchains, -, hchains', -, -, -, ⟨l, redrawAll, hv', -⟩, hevents,
    hagain⟩ := press_deletes_around_point 3 10 false {} ks hks
  have htext : ((start 3 10 false).step {} (.load [0x61, 0x62, 0x62])).buffer.text.contents =
      [0x61, 0x62, 0x62] := by
    obtain ⟨_, hvalue, -, hm, hrep⟩ := (sane_start 3 10 false).exists_loadBytes [0x61, 0x62, 0x62]
    have hcontents := hrep.sound.contents_eq
    rw [hm] at hcontents
    show ((start 3 10 false).loadBytes _).value.buffer.text.contents = _
    rw [hvalue]
    exact hcontents.trans (by decide +kernel)
  have hmarked : ks.foldl (step {}) (start 3 10 false) =
      moves.foldl (step {}) (words.foldl (markedIn [0x61, 0x62, 0x62])
        ((start 3 10 false).step {} (.load [0x61, 0x62, 0x62]))) := by
    have hloaded : Sane false ((start 3 10 false).step {} (.load [0x61, 0x62, 0x62])) :=
      (sane_start 3 10 false).loadBytes _
    have hwords : ∀ s ∈ words, s ≠ [] := by decide
    rw [← foldl_mark hloaded htext hwords, ← List.foldl_append]
    exact List.foldl_cons
  have hlists : (ks.foldl (step {}) (start 3 10 false)).page.chains = .ok ([0], [1]) := by
    rw [hmarked]
    decide +kernel
  have hdeleted : ((ks.foldl (step {}) (start 3 10 false)).press 120).events =
      [0].map .overlayDeleted := by
    rw [hmarked]
    decide +kernel
  have hhere : here = [0] :=
    List.map_injective_iff.mpr (fun _ _ => Event.overlayDeleted.inj) (hevents.symm.trans hdeleted)
  obtain ⟨rfl, rfl⟩ : before = [0] ∧ after = [1] := by
    simpa using hchains.symm.trans hlists
  rw [hhere] at hchains' hv'
  have hmessage : ascii "deleted " ++ digits 1 ++ ascii " overlays" =
      ascii "deleted 1 overlays" := by decide +kernel
  exact ⟨hks, hlists, hchains', (congrArg Viewer.message hv').trans hmessage, hagain⟩

end Examples

end Viewer

end GapText
