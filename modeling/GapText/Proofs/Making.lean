import GapText.Proofs.Editor
import GapText.Proofs.OneBuffer

/-!
# Making overlays

A new overlay gets the number behind all others of its arena, lies between two places of the text,
whatever was asked for, and hangs at the end of one chain. No other record changes but that of the
overlay which was last on this chain, and of this one only what is behind it.
-/

namespace GapText

/-! ## One buffer -/

namespace Overlaid

open Code (bytePos)

variable {o : Overlaid} {b : BufferId} {home : ArenaId} {before after cs : List Int}

/-- The marker that any number gives: at the nearest place of the text. -/
theorem markAt_of_sound (hs : o.buffer.Sound cs) (b : BufferId) (c : Int) :
    let k := min (max c 1) (cs.length + 1)
    o.markAt b c = ⟨some b, ⟨k, bytePos o.buffer.multibyte cs k⟩⟩ := by
  intro k
  have hend := hs.endChar_eq
  have hclamp : clampChar o.buffer c = k := by
    unfold clampChar
    rw [hend]
  have hfirst : ¬ k < 1 := by omega
  have hlast : ¬ o.buffer.endChar < k := by omega
  unfold markAt
  rw [hclamp, Buffer.position, hs.toByte_eq (by omega) (by omega)]
  show Marker.mk (some b) (Position.clip _ o.buffer.last) = _
  unfold Position.clip
  dsimp only
  rw [if_neg hfirst]
  exact congrArg _ (if_neg hlast)

theorem fresh_of_sound (hs : o.buffer.Sound cs) (b : BufferId) (p q : Int) (props : Properties) :
    let clamp : Int → Int := fun c => min (max c 1) (cs.length + 1)
    let place : Int → Position := fun k => ⟨k, bytePos o.buffer.multibyte cs k⟩
    o.fresh b p q props =
      { start := ⟨some b, place (min (clamp p) (clamp q))⟩,
        stop := ⟨some b, place (max (clamp p) (clamp q))⟩, props } := by
  intro clamp place
  have hlo : min (max (min p q) 1) ((cs.length : Int) + 1) = min (clamp p) (clamp q) := by
    show _ = min (min (max p 1) _) (min (max q 1) _)
    omega
  have hhi : min (max (max p q) 1) ((cs.length : Int) + 1) = max (clamp p) (clamp q) := by
    show _ = max (min (max p 1) _) (min (max q 1) _)
    omega
  unfold fresh
  rw [markAt_of_sound hs, markAt_of_sound hs, hlo, hhi]

/-- The records after an overlay was hung on its side of the center. -/
theorem find?_made {a : Arena} {l : Chains} {r : Overlay} (h : Indexed b home o before after)
    (hr : r.next = none) {center : Int}
    (hbefore : a.Leads l.before (placed center r o.arena.size before after).1)
    (hafter : a.Leads l.after (placed center r o.arena.size before after).2)
    (hsame : Arena.Rechained (before ++ after ++ [(o.arena.size : Int)]) (o.arena.push r) a) :
    a.find? o.arena.size = some r ∧ ∀ i, i ≠ (o.arena.size : Int) → a.find? i =
      if (if r.stop.place.char < center then before else after).getLast? = some i then
        (o.arena.find? i).map fun r => { r with next := some (o.arena.size : Int) }
      else o.arena.find? i := by
  have hnew : (o.arena.push r).find? o.arena.size = some r := by
    rw [Arena.find?_push, if_pos rfl]
  have hold : ∀ i, i ≠ (o.arena.size : Int) → (o.arena.push r).find? i = o.arena.find? i :=
    fun i hne => by rw [Arena.find?_push, if_neg hne]
  have hself : { r with next := none } = r := by rw [← hr]
  have hmem : ∀ i ∈ before ++ after ++ [(o.arena.size : Int)],
      i ∈ before ∨ i ∈ after ∨ i = o.arena.size := by
    intro i hi
    rwa [List.mem_append, List.mem_append, List.mem_singleton, or_assoc] at hi
  have hleadsB := h.holds.before_leads.push r
  have hleadsA := h.holds.after_leads.push r
  unfold placed at hbefore hafter
  split at hbefore
  · rename_i hlt
    rw [if_pos hlt] at hafter ⊢
    constructor
    · rw [hsame.find?_of_leads hbefore, hnew, Option.map_some]
      exact congrArg some hself
    · intro i hne
      rw [← hold i hne]
      exact hsame.find?_of_hung hmem hleadsB hbefore hleadsA hafter hne
  · rename_i hge
    rw [if_neg hge] at hafter ⊢
    constructor
    · rw [hsame.find?_of_leads hafter, hnew, Option.map_some]
      exact congrArg some hself
    · intro i hne
      rw [← hold i hne]
      exact hsame.find?_of_hung (fun j hj => or_left_comm.mp (hmem j hj)) hleadsA hafter hleadsB
        hbefore hne

end Overlaid

/-! ## A workspace -/

namespace Workspace

open Code (bytePos)

variable {w : Workspace} {a : ArenaId} {b : BufferId} {o o' : Overlaid} {cs : List Int}

theorem overlaid?_makeOverlay (ho : w.overlaid? a b = some o) (p q : Int) (props : Properties) :
    (w.step (.makeOverlay a b p q props)).overlaid? a b = some (o.make b a p q props).state := by
  have hstep : w.step (.makeOverlay a b p q props) =
      w.setOverlaid a b (o.make b a p q props).state := by
    simp only [step, run, onOverlaid, ho, Option.map_some]
    rfl
  rw [hstep]
  exact overlaid?_setOverlaid ho _

theorem overlaid?_edit (ho : w.overlaid? a b = some o) (k : Buffer.Command) :
    (w.step (.edit b k)).overlaid? a b = some { o with buffer := o.buffer.step k } := by
  obtain ⟨ha, hb⟩ := overlaid?_eq_some.mp ho
  unfold step
  simp only [run, hb, Option.map_some]
  unfold Buffer.step Buffer.after
  cases hk : o.buffer.run k with
  | error err => exact ho
  | ok x => exact overlaid?_eq_some.mpr ⟨ha, (buffer?_setBuffer hb x.value b).trans (if_pos rfl)⟩

theorem exists_run_make {p q id : Int} {props : Properties} (ho : w.overlaid? a b = some o)
    (hresult : (o.make b a p q props).result = .ok id) :
    ∃ events, w.run (.makeOverlay a b p q props) =
      some (.done (w.setOverlaid a b (o.make b a p q props).state) (.number id) events) := by
  simp only [run, onOverlaid_eq ho, Option.map_some]
  revert hresult
  generalize o.make b a p q props = x
  obtain ⟨state, result, events⟩ := x
  rintro rfl
  exact ⟨events, rfl⟩

theorem run_make_of_foreign (ho : w.overlaid? a b = some o) (hhome : ¬ w.IsHome a b) (p q : Int)
    (props : Properties) :
    w.run (.makeOverlay a b p q props) = some (.stop w .foreignArena) := by
  obtain ⟨c, hc, hne⟩ := exists_foreign ho hhome
  simp only [run, onOverlaid_eq ho, Overlaid.make_of_foreign hc hne, Option.map_some]
  show some (Outcome.stop (w.setOverlaid a b o) .foreignArena) = _
  rw [setOverlaid_of_overlaid? ho]

/-- **Making an overlay** between any two numbers puts it between the places of the text nearest to
them, under the next number of the arena and at the end of the chain on its side of the center. All
that was there stays, but that the overlay which was last on this chain names the new one; the
buffer is at home in the arena then. A buffer that is at home elsewhere refuses, and nothing
changes. -/
theorem make_appends (h : w.Indexed) (ho : w.overlaid? a b = some o) (hs : o.buffer.Sound cs)
    (p q : Int) (props : Properties) :
    (w.IsHome a b → ∃ before after o' l events,
      let w' := w.setOverlaid a b o'
      let clamp : Int → Int := fun c => min (max c 1) (cs.length + 1)
      let lo := min (clamp p) (clamp q)
      let hi := max (clamp p) (clamp q)
      let place : Int → Position := fun k => ⟨k, bytePos o.buffer.multibyte cs k⟩
      let id : Int := o.arena.size
      let center := o.buffer.overlays.center
      o.chains = .ok (before, after) ∧
      w.run (.makeOverlay a b p q props) = some (.done w' (.number id) events) ∧
      (w'.overlaid? a b = some o' ∧ o'.arena.find? id =
        some { start := ⟨some b, place lo⟩, stop := ⟨some b, place hi⟩, props }) ∧
      o'.chains =
        .ok (if hi < center then (before ++ [id], after) else (before, after ++ [id])) ∧
      (∀ i, i ≠ id → o'.arena.find? i =
        if (if hi < center then before else after).getLast? = some i then
          (o.arena.find? i).map fun r => { r with next := some id }
        else o.arena.find? i) ∧
      (o'.buffer = { o.buffer with overlays := l } ∧ l.center = center ∧ l.arena = some a) ∧
      w'.Indexed ∧ OnlyAt a b w w') ∧
    (¬ w.IsHome a b → w.run (.makeOverlay a b p q props) = some (.stop w .foreignArena)) := by
  refine ⟨fun hhome => ?_, fun hhome => run_make_of_foreign ho hhome p q props⟩
  obtain ⟨before, after, hhung⟩ := h.hung b
  have hindexed := hhung.indexed ho hhome
  obtain ⟨-, hmade, htouches⟩ := hindexed.make p q props
  obtain ⟨arena', l, hstate, hresult, hcenter, harena, hbefore, hafter, hsame⟩ :=
    hindexed.exists_make p q props
  obtain ⟨events, hrun⟩ := exists_run_make ho hresult
  rw [hstate] at hmade htouches hrun
  obtain ⟨hself, hothers⟩ := Overlaid.find?_made hindexed rfl hbefore hafter hsame
  have hlists := hmade.chains_eq
  have hfresh := Overlaid.fresh_of_sound hs b p q props
  dsimp only at hfresh
  rw [hfresh] at hself hothers hlists
  exact ⟨before, after, _, l, events, hindexed.chains_eq, hrun, ⟨overlaid?_setOverlaid ho _, hself⟩,
    hlists, hothers, ⟨rfl, hcenter, harena⟩, h.setOverlaid ho hhome hmade htouches,
    onlyAt_setOverlaid h ho htouches⟩

/-- Behind one overlay on the chain after the center another one is made, between numbers that are
the wrong way round and on both sides of a text with a character of two bytes; and the other arena
refuses the buffer. -/
theorem make_appends_around_text :
    let s : Bytes := [0x61, 0xC3, 0xA9, 0x62]
    let ks : List Command := [.edit 0 (.insert 1 s), .makeOverlay 0 0 2 2 []]
    let w := ks.foldl step (start true 2 0)
    w.Indexed ∧ w.IsHome 0 0 ∧ ∃ o o' events, w.overlaid? 0 0 = some o ∧
      o.buffer.Sound [0x61, 0xE9, 0x62] ∧ o.chains = .ok ([], [0]) ∧
      w.run (.makeOverlay 0 0 9 (-5) []) =
        some (.done (w.setOverlaid 0 0 o') (.number 1) events) ∧
      o'.arena.find? 1 = some { start := ⟨some 0, 1, 1⟩, stop := ⟨some 0, 4, 5⟩ } ∧
      o'.chains = .ok ([], [0, 1]) ∧ (o'.arena.find? 0).map (·.next) = some (some 1) ∧
      ¬ w.IsHome 1 0 ∧ w.run (.makeOverlay 1 0 9 (-5) []) = some (.stop w .foreignArena) := by
  intro s ks w
  have hw : w.Indexed := indexed_run ks (by decide +kernel)
  have hhome : w.IsHome 0 0 := by decide +kernel
  have hforeign : ¬ w.IsHome 1 0 := by decide +kernel
  let t : Buffer := ({ multibyte := true } : Buffer).step (.insert 1 s)
  have ht : t.Sound [0x61, 0xE9, 0x62] ∧ t.multibyte = true := by
    have hedits : Along Buffer.step Buffer.Admissible { multibyte := true } [.insert 1 s] := by
      decide +kernel
    have hchars : (Editor.after true {} (.insert 1 s)).chars = [0x61, 0xE9, 0x62] := by
      decide +kernel
    obtain ⟨hrep, hmultibyte⟩ := Buffer.represents_run [.insert 1 s] hedits
    exact ⟨hchars ▸ hrep.sound, hmultibyte⟩
  have hstart : (start true 2 0).overlaid? 0 0 = some ⟨{}, { multibyte := true }⟩ := rfl
  obtain ⟨o, ho, l, hl⟩ : ∃ o, w.overlaid? 0 0 = some o ∧
      ∃ l, o.buffer = { t with overlays := l } :=
    ⟨_, overlaid?_makeOverlay (overlaid?_edit hstart (.insert 1 s)) 2 2 [],
      Overlaid.buffer_make ⟨{}, t⟩ 0 0 2 2 []⟩
  have hsound : o.buffer.Sound [0x61, 0xE9, 0x62] := hl ▸ ht.1.withOverlays l
  have hmultibyte : o.buffer.multibyte = true := hl ▸ ht.2
  have hlists : (w.overlaid? 0 0).map Overlaid.chains = some (.ok ([], [0])) := by decide +kernel
  have hfound : (w.overlaid? 0 0).map (fun o =>
      (o.arena.size, o.buffer.overlays.center, (o.arena.find? 0).isSome)) =
      some (1, 1, true) := by decide +kernel
  rw [ho, Option.map_some, Option.some.injEq] at hlists hfound
  rw [Prod.mk.injEq, Prod.mk.injEq] at hfound
  obtain ⟨hsize, hcenter, hold⟩ := hfound
  obtain ⟨r, hr⟩ := Option.isSome_iff_exists.mp hold
  obtain ⟨before, after, o', l', events, hchains, hrun, ⟨-, hnew⟩, hchains', hothers, -⟩ :=
    (make_appends hw ho hsound 9 (-5) []).1 hhome
  cases hlists.symm.trans hchains
  rw [hsize] at hrun
  rw [hsize, hmultibyte] at hnew
  rw [hsize, hcenter] at hchains' hothers
  have hforeign : ¬ w.IsHome 1 0 := by decide +kernel
  have hlive : (w.overlaid? 1 0).isSome := by decide +kernel
  obtain ⟨o₁, ho₁⟩ := Option.isSome_iff_exists.mp hlive
  have hsame : o₁.buffer = o.buffer :=
    Option.some.inj ((overlaid?_eq_some.mp ho₁).2.symm.trans (overlaid?_eq_some.mp ho).2)
  refine ⟨hw, hhome, o, o', events, ho, hsound, hlists, hrun, hnew, hchains', ?_, hforeign,
    (make_appends hw ho₁ (hsame ▸ hsound) 9 (-5) []).2 hforeign⟩
  rw [hothers 0 (by decide), hr]
  rfl

end Workspace

end GapText
