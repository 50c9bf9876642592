import GapText.Proofs.OneBuffer

/-!
# Deleting overlays

An overlay that is deleted leaves its chain and points nowhere; in the whole arena one other record
may change, the one that named it as the next. Deletions of different overlays do not get in each
other's way: when all overlays of a buffer are deleted one by one, in whatever order, the records
are those that deleting all at once leaves (`Overlaid.emptied`), and so is everything else but the
center and the wish to draw all again.
-/

namespace GapText

/-! ## One buffer -/

namespace Overlaid

variable {o : Overlaid} {b : BufferId} {home : ArenaId} {before after ids : List Int} {id : Int}
  {r : Overlay}

theorem unlink_of_result (h : (o.unlink id).result = .ok ()) :
    o.unlink id = .done (o.unlink id).state () [.overlayDeleted id] := by
  unfold unlink at h ⊢
  dsimp only at h ⊢
  split
  · rename_i f hf
    rw [hf] at h
    cases h
  · rfl

/-- An overlay that hangs on a chain is taken off and detached; only chains and the wish to draw all
again change with the buffer. -/
theorem Indexed.exists_unlinked (h : Indexed b home o before after) (hid : id ∈ before ++ after)
    (hr : o.arena.find? id = some r) :
    ∃ a l, o.unlink id = .done { arena := a.detachAll [id], buffer :=
        { o.buffer with overlays := l, redrawAll := o.buffer.redrawAll || spreads r.props } } ()
          [.overlayDeleted id] ∧
      l.center = o.buffer.overlays.center ∧ l.arena = o.buffer.overlays.arena ∧
      a.Leads l.before (before.erase id) ∧ a.Leads l.after (after.erase id) ∧
      Arena.Rechained (before ++ after) o.arena a := by
  obtain ⟨a, l, hstate, hresult, hcenter, harena, hbefore, hafter, hsame⟩ :=
    exists_unlink h.holds.before_leads h.holds.after_leads h.holds.nodup hid
  obtain ⟨r', hr', hloose⟩ := hsame.find? hr
  have hprops : r'.props = r.props := congrArg (·.props) hloose
  have hunlink := unlink_of_result hresult
  rw [hstate, hr', Option.any_some, hprops] at hunlink
  exact ⟨a, l, hunlink, hcenter, harena, hbefore, hafter, hsame⟩

/-- The record of each overlay of the buffer after one of them was deleted. -/
theorem find?_unlinked {a : Arena} {l : Chains} (h : Indexed b home o before after)
    (hr : o.arena.find? id = some r) (hbefore : a.Leads l.before (before.erase id))
    (hafter : a.Leads l.after (after.erase id))
    (hsame : Arena.Rechained (before ++ after) o.arena a) {i : Int} (hi : i ∈ before ++ after)
    (hne : i ≠ id) :
    (a.detachAll [id]).find? i = (o.arena.find? i).map (·.bypassing id r.next) := by
  rw [Arena.find?_detachAll, if_neg (mt List.mem_singleton.mp hne)]
  rcases List.mem_append.mp hi with hi | hi
  · exact hsame.find?_of_erased h.holds.before_leads hbefore hr hi hne
  · exact hsame.find?_of_erased h.holds.after_leads hafter hr hi hne

/-! ### All overlays, one by one -/

/-- Whether an overlay has properties whose text is drawn beside it. -/
def spreadsAt (a : Arena) (id : Int) : Bool := (a.find? id).any fun r => spreads r.props

theorem spreadsAt_detachAll (a : Arena) (ids : List Int) (id : Int) :
    spreadsAt (a.detachAll ids) id = spreadsAt a id := by
  unfold spreadsAt
  rw [Arena.find?_detachAll]
  split
  · cases a.find? id <;> rfl
  · rfl

theorem spreadsAt_rechained {a a' : Arena} (h : Arena.Rechained ids a a') (id : Int) :
    spreadsAt a' id = spreadsAt a id :=
  Arena.congr_loose (f := Option.any fun r : Overlay => spreads r.props) (h.loose_eq id)
    (by rintro (_ | r) <;> rfl)

/-- The buffer with these overlays detached, one by one, and nothing on its chains. -/
def emptied (o : Overlaid) (ids : List Int) : Overlaid where
  arena := o.arena.detachAll ids
  buffer := { o.buffer with
    overlays := { o.buffer.overlays with before := none, after := none }
    redrawAll := o.buffer.redrawAll || ids.any (spreadsAt o.arena) }

theorem chains_eq_of_empty : ∀ {l : Chains}, l.before = none → l.after = none →
    { l with before := none, after := none } = l := by
  rintro ⟨_, _, _, _⟩ rfl rfl
  rfl

theorem emptied_nil (hbefore : o.buffer.overlays.before = none)
    (hafter : o.buffer.overlays.after = none) : o.emptied [] = o := by
  unfold emptied
  rw [chains_eq_of_empty hbefore hafter, List.any_nil, Bool.or_false]
  rfl

theorem spreads_iff {ps : Properties} :
    spreads ps = true ↔ ∃ name ∈ ["before-string", "after-string"], ∃ value,
      ps.get? (Bytes.ascii name) = some value := by
  simp [spreads, Option.isSome_iff_exists]

theorem cleared_arena (o : Overlaid) (before after : List Int) :
    (o.cleared before after).arena = o.arena.detachAll (before ++ after) :=
  List.foldl_append.symm

/-- Where there are no overlays only the center is put back. -/
theorem clear_of_empty (hbefore : o.buffer.overlays.before = none)
    (hafter : o.buffer.overlays.after = none) :
    o.clear = .done (o.withChains { o.buffer.overlays with center := 1 }) () := by
  have hchains := chains_eq_of_empty (l := { o.buffer.overlays with center := 1 }) hbefore hafter
  rw [← hchains]
  unfold clear
  dsimp only
  rw [hbefore, hafter]
  rfl

/-- The order of the overlays does not matter. -/
theorem emptied_congr {ids' : List Int} (h : ids.Perm ids') : o.emptied ids = o.emptied ids' := by
  have harena : o.arena.detachAll ids = o.arena.detachAll ids' := by
    refine Arena.ext_find? fun id => ?_
    simp only [Arena.find?_detachAll, h.mem_iff]
  unfold emptied
  rw [harena, h.any_eq]

theorem Indexed.perm_erase (h : Indexed b home o before after)
    (hids : (id :: ids).Perm (before ++ after)) : ids.Perm (before.erase id ++ after.erase id) := by
  obtain ⟨-, hrest⟩ := List.cons_perm_iff_perm_erase.mp hids
  rw [List.erase_append] at hrest
  by_cases hid : id ∈ before
  · rw [if_pos hid] at hrest
    rwa [List.erase_of_not_mem (h.holds.disjoint id hid)]
  · rw [if_neg hid] at hrest
    rwa [List.erase_of_not_mem hid]

/-- Deleting one overlay and then all others is deleting all. -/
theorem Indexed.exists_emptied (h : Indexed b home o before after)
    (hids : (id :: ids).Perm (before ++ after)) :
    ∃ o', o.unlink id = .done o' () [.overlayDeleted id] ∧
      Indexed b home o' (before.erase id) (after.erase id) ∧
      o'.emptied ids = o.emptied (id :: ids) := by
  have hid : id ∈ before ++ after := hids.subset List.mem_cons_self
  obtain ⟨r, hr, -⟩ := (h.holds.ofBuffer id).mp hid
  obtain ⟨a, l, hunlink, hcenter, harena, -, -, hsame⟩ := h.exists_unlinked hid hr
  obtain ⟨-, hindexed, -⟩ := h.unlink hid
  rw [hunlink] at hindexed
  refine ⟨_, hunlink, hindexed, ?_⟩
  have hrecords : (a.detachAll [id]).detachAll ids = o.arena.detachAll (id :: ids) :=
    hsame.detachAll_eq hids.symm.subset
  have hspread : spreadsAt (a.detachAll [id]) = spreadsAt o.arena := by
    funext i
    rw [spreadsAt_detachAll, spreadsAt_rechained hsame]
  have hself : spreadsAt o.arena id = spreads r.props := by
    unfold spreadsAt
    rw [hr]
    rfl
  unfold emptied
  dsimp only
  rw [hrecords, hspread, List.any_cons, hself, hcenter, harena, Bool.or_assoc]

end Overlaid

namespace Workspace

variable {w : Workspace} {a : ArenaId} {b : BufferId} {arena : Arena} {o o' : Overlaid}
  {before after ids : List Int} {id : Int} {r : Overlay}

/-! ## What the commands do -/

theorem step_of_run {k : Command} {x : Outcome Workspace Answer} (h : w.run k = some x) :
    w.step k = x.state := by
  unfold step
  rw [h]

theorem run_delete_of_unknown (ha : w.arena? a = some arena) (hid : arena.contains id = false) :
    w.run (.deleteOverlay a id) = some (.stop w (.unknownOverlay id)) := by
  have hnone : arena.find? id = none := by
    refine Option.eq_none_iff_forall_ne_some.mpr fun r hr => ?_
    rw [Arena.contains_iff.mpr ⟨r, hr⟩] at hid
    cases hid
  have hget : arena.get id = .error (.unknownOverlay id) := by
    unfold Arena.get
    rw [hnone]
  simp only [run, deleteOverlay, ha, Option.bind_eq_bind, Option.bind_some, hget]
  rfl

theorem run_delete_of_detached (ha : w.arena? a = some arena) (hr : arena.find? id = some r)
    (hb : r.start.buffer = none) : w.run (.deleteOverlay a id) = some (.done w .done) := by
  simp only [run, deleteOverlay, ha, Option.bind_eq_bind, Option.bind_some,
    Arena.get_of_find? hr, hb]
  rfl

theorem run_delete_of_attached {events : List Event} (ho : w.overlaid? a b = some o)
    (hr : o.arena.find? id = some r) (hb : r.start.buffer = some b)
    (hunlink : o.unlink id = .done o' () events) :
    w.run (.deleteOverlay a id) = some (.done (w.setOverlaid a b o') .done events) := by
  simp only [run, deleteOverlay, (overlaid?_eq_some.mp ho).1, Option.bind_eq_bind, Option.bind_some,
    Arena.get_of_find? hr, hb, onOverlaid_eq ho, hunlink, Option.map_some]
  rfl

theorem exists_run_deleteAll (ho : w.overlaid? a b = some o)
    (h : Overlaid.Indexed b a o before after) :
    ∃ events, w.run (.deleteAll a b) =
      some (.done (w.setOverlaid a b (o.cleared before after)) .done events) := by
  obtain ⟨events, hclear⟩ := Overlaid.clear_eq h.holds
  refine ⟨events, ?_⟩
  simp only [run, onOverlaid_eq ho, hclear, Option.map_some]
  rfl

theorem exists_run_killBuffer (ho : w.overlaid? a b = some o)
    (hbound : o.buffer.overlays.arena = some a) (h : Overlaid.Indexed b a o before after) :
    ∃ events, w.run (.killBuffer b) =
      some (.done ((w.setOverlaid a b (o.cleared before after)).dropBuffer b) .done events) := by
  obtain ⟨events, hclear⟩ := Overlaid.clear_eq h.holds
  refine ⟨events, ?_⟩
  simp only [run, killBuffer, (overlaid?_eq_some.mp ho).2, Option.bind_eq_bind, Option.bind_some,
    hbound, onOverlaid_eq ho, hclear, Option.map_some]
  rfl

/-- Deleting all overlays where there are none puts the center back. -/
theorem run_deleteAll_of_empty (ho : w.overlaid? a b = some o)
    (hbefore : o.buffer.overlays.before = none) (hafter : o.buffer.overlays.after = none) :
    w.run (.deleteAll a b) = some (.done (w.setOverlaid a b
      (o.withChains { o.buffer.overlays with center := 1 })) .done) := by
  simp only [run, onOverlaid_eq ho, Overlaid.clear_of_empty hbefore hafter, Option.map_some]
  rfl

/-! ## One overlay -/

/-- No record names an overlay of another buffer, so no record of another buffer changes when one
goes. -/
theorem Indexed.find?_unlinked {arena' : Arena} {l : Chains} (h : w.Indexed)
    (ho : w.overlaid? a b = some o) (hbound : (w.chainsOf b).arena = some a)
    (hhung : w.Hung b before after) (hr : o.arena.find? id = some r)
    (hb : r.start.buffer = some b) (hbefore : arena'.Leads l.before (before.erase id))
    (hafter : arena'.Leads l.after (after.erase id))
    (hsame : Arena.Rechained (before ++ after) o.arena arena') {i : Int} (hne : i ≠ id) :
    (arena'.detachAll [id]).find? i = (o.arena.find? i).map (·.bypassing id r.next) := by
  have hindexed := hhung.indexed ho (Or.inl hbound)
  by_cases hi : i ∈ before ++ after
  · exact Overlaid.find?_unlinked hindexed hr hbefore hafter hsame hi hne
  · rw [Arena.find?_detachAll, if_neg (mt List.mem_singleton.mp hne), hsame.outside i hi]
    cases hri : o.arena.find? i with
    | none => rfl
    | some ri =>
        have hnext : ri.next ≠ some id := by
          intro hnext
          obtain ⟨b', before', after', hhung', hi', r', hr', hb'⟩ :=
            h.exists_hung_of_next (overlaid?_eq_some.mp ho).1 hri hnext
          cases hr.symm.trans hr'
          cases hb.symm.trans hb'
          obtain ⟨rfl, rfl⟩ := hhung.unique hhung'
          exact hi hi'
        rw [Option.map_some, Overlay.bypassing, if_neg hnext]

/-- It makes no difference why an overlay points nowhere: it was deleted before, alone or with all
others, or its buffer is gone. -/
theorem run_delete_again {events : List Event} (ho : w.overlaid? a b = some o)
    (hbound : o.buffer.overlays.arena = some a)
    (h : Overlaid.Indexed b a o before after) (hid : id ∈ before ++ after)
    (hdeleted : w.run (.deleteOverlay a id) = some (.done (w.setOverlaid a b o') .done events))
    (hgone : ∃ r, o'.arena.find? id = some r ∧ r.start.buffer = none) :
    ∀ k ∈ [Command.deleteOverlay a id, .deleteAll a b, .killBuffer b],
      (w.step k).run (.deleteOverlay a id) = some (.done (w.step k) .done) := by
  obtain ⟨r, hr, hnone⟩ := hgone
  have hcleared : ∃ r, (o.cleared before after).arena.find? id = some r ∧
      r.start.buffer = none := by
    obtain ⟨r, hr, -⟩ := (h.holds.ofBuffer id).mp hid
    rw [Overlaid.cleared_arena, Arena.find?_detachAll, if_pos hid, hr]
    exact ⟨_, rfl, rfl⟩
  obtain ⟨r', hr', hnone'⟩ := hcleared
  have harena : ∀ o', (w.setOverlaid a b o').arena? a = some o'.arena := fun o' => by
    rw [arena?_setOverlaid ho, if_pos rfl]
  intro k hk
  simp only [List.mem_cons, List.not_mem_nil, or_false] at hk
  rcases hk with rfl | rfl | rfl
  · rw [step_of_run hdeleted]
    exact run_delete_of_detached (harena o') hr hnone
  · obtain ⟨events, hrun⟩ := exists_run_deleteAll ho h
    rw [step_of_run hrun]
    exact run_delete_of_detached (harena _) hr' hnone'
  · obtain ⟨events, hrun⟩ := exists_run_killBuffer ho hbound h
    rw [step_of_run hrun]
    exact run_delete_of_detached (harena _) hr' hnone'

/-- **Deleting takes one overlay away.** It is taken off its chain and points nowhere, with its
properties; what named it as the next names what was behind it. All else in its arena, its buffer
and the other buffers stays, the center too; only when text was drawn beside it all of the buffer is
to be drawn again. An overlay that points nowhere, for whichever reason, is left as it is, and a
number without a record is refused. -/
theorem delete_takes_one (h : w.Indexed) (ha : w.arena? a = some arena) (id : Int) :
    (arena.contains id = false →
      w.run (.deleteOverlay a id) = some (.stop w (.unknownOverlay id))) ∧
    (arena.contains id = true → ∃ r, arena.find? id = some r ∧
      (r.start.buffer = none → w.run (.deleteOverlay a id) = some (.done w .done)) ∧
      ∀ b, r.start.buffer = some b → ∃ o o' before after,
        let w' := w.setOverlaid a b o'
        (w.overlaid? a b = some o ∧ o.chains = .ok (before, after) ∧ id ∈ before ++ after) ∧
        w.run (.deleteOverlay a id) = some (.done w' .done [.overlayDeleted id]) ∧
        (w'.overlaid? a b = some o' ∧ o'.chains = .ok (before.erase id, after.erase id) ∧
          id ∉ before.erase id ++ after.erase id) ∧
        (o'.arena.find? id = some { r with start := .nowhere, stop := .nowhere, next := none } ∧
          ∀ i, i ≠ id → o'.arena.find? i = (arena.find? i).map (·.bypassing id r.next)) ∧
        (w'.Indexed ∧ OnlyAt a b w w') ∧
        (∃ l, o'.buffer = { o.buffer with overlays := l, redrawAll := o'.buffer.redrawAll } ∧
          l.center = o.buffer.overlays.center ∧ l.arena = o.buffer.overlays.arena) ∧
        (o'.buffer.redrawAll = true ↔ o.buffer.redrawAll = true ∨
          ∃ name ∈ ["before-string", "after-string"], ∃ value,
            r.props.get? (Bytes.ascii name) = some value) ∧
        ∀ k ∈ [Command.deleteOverlay a id, .deleteAll a b, .killBuffer b],
          (w.step k).run (.deleteOverlay a id) = some (.done (w.step k) .done)) := by
  refine ⟨run_delete_of_unknown ha, fun hcontains => ?_⟩
  obtain ⟨r, hr⟩ := Arena.contains_iff.mp hcontains
  refine ⟨r, hr, run_delete_of_detached ha hr, fun b hb => ?_⟩
  obtain ⟨o, before, after, ho, rfl, hbound, hhung, hid⟩ := h.exists_overlaid ha hr hb
  have hindexed := hhung.indexed ho (Or.inl hbound)
  obtain ⟨arena', l, hunlink, hcenter, harena, hbefore, hafter, hsame⟩ :=
    hindexed.exists_unlinked hid hr
  obtain ⟨-, hunlinked, htouches⟩ := hindexed.unlink hid
  rw [hunlink] at hunlinked htouches
  have hrun := run_delete_of_attached ho hr hb hunlink
  have hbound' := hbound
  rw [chainsOf_eq (overlaid?_eq_some.mp ho).2] at hbound'
  have hself : (arena'.detachAll [id]).find? id =
      some { r with start := .nowhere, stop := .nowhere, next := none } := by
    rw [Arena.find?_detachAll, if_pos (List.mem_singleton.mpr rfl), hsame.map_detached_eq, hr]
    rfl
  refine ⟨o, _, before, after, ⟨ho, hindexed.chains_eq, hid⟩, hrun,
    ⟨overlaid?_setOverlaid ho _, hunlinked.chains_eq, ?_⟩, ⟨hself, fun i hne => ?_⟩,
    ⟨h.setOverlaid ho (Or.inl hbound) hunlinked htouches, onlyAt_setOverlaid h ho htouches⟩,
    ⟨l, rfl, hcenter, harena⟩, ?_,
    run_delete_again ho hbound' hindexed hid hrun ⟨_, hself, rfl⟩⟩
  · rw [List.mem_append, not_or]
    obtain ⟨hnodupB, hnodupA, -⟩ := List.nodup_append.mp hindexed.holds.nodup
    exact ⟨hnodupB.not_mem_erase, hnodupA.not_mem_erase⟩
  · exact h.find?_unlinked ho hbound hhung hr hb hbefore hafter hsame hne
  · rw [← Overlaid.spreads_iff]
    exact Bool.or_eq_true_iff

/-- Two buffers with overlays in one arena, and a third one that is gone: the overlay in the middle
of a chain goes, which has text drawn beside it; the one of the buffer that is gone is nowhere, and
there is no overlay of the last number. -/
theorem delete_takes_one_between_two :
    let props : Properties := [(Bytes.ascii "before-string", [0x0A])]
    let ks : List Command :=
      [.edit 0 (.insert 1 [0x61, 0x62, 0x63, 0x64]), .newBuffer false,
        .edit 1 (.insert 1 [0x78, 0x79]), .makeOverlay 0 0 1 2 [], .makeOverlay 0 0 2 3 props,
        .makeOverlay 0 1 1 3 [], .makeOverlay 0 0 3 4 [], .newBuffer true,
        .makeOverlay 0 2 1 1 [], .killBuffer 2]
    let w := ks.foldl step (start true 1 0)
    w.Indexed ∧ ∃ arena o', w.arena? 0 = some arena ∧ arena.contains 1 = true ∧
      arena.contains 5 = false ∧ w.run (.deleteOverlay 0 5) = some (.stop w (.unknownOverlay 5)) ∧
      w.run (.deleteOverlay 0 4) = some (.done w .done) ∧
      w.run (.deleteOverlay 0 1) =
        some (.done (w.setOverlaid 0 0 o') .done [.overlayDeleted 1]) ∧
      o'.chains = .ok ([], [0, 3]) ∧ (o'.arena.find? 0).map (·.next) = some (some 3) ∧
      o'.buffer.redrawAll = true ∧ (w.setOverlaid 0 0 o').lists 1 = .ok ([], [2]) := by
  intro props ks w
  have hw : w.Indexed := indexed_run ks (by decide +kernel)
  have hlive : (w.arena? 0).isSome := by decide +kernel
  obtain ⟨arena, ha⟩ := Option.isSome_iff_exists.mp hlive
  have hcontains : (w.arena? 0).map (fun a => (a.contains 1, a.contains 4, a.contains 5)) =
      some (true, true, false) := by decide +kernel
  have hrecords : (w.arena? 0).map (fun a => (a.find? 0, a.find? 1, a.find? 4)) =
      some (some { start := ⟨some 0, 1, 1⟩, stop := ⟨some 0, 2, 2⟩, next := some 1 },
        some { start := ⟨some 0, 2, 2⟩, stop := ⟨some 0, 3, 3⟩, props, next := some 3 },
        some {}) := by decide +kernel
  have hchains : (w.overlaid? 0 0).map Overlaid.chains = some (.ok ([], [0, 1, 3])) := by
    decide +kernel
  rw [ha, Option.map_some, Option.some.injEq, Prod.mk.injEq, Prod.mk.injEq] at hcontains hrecords
  obtain ⟨hcontains, hcontains', hno⟩ := hcontains
  obtain ⟨h₀, h₁, h₄⟩ := hrecords
  obtain ⟨-, hdelete⟩ := delete_takes_one hw ha 1
  obtain ⟨r, hr, -, hdelete⟩ := hdelete hcontains
  cases h₁.symm.trans hr
  obtain ⟨o, o', before, after, ⟨ho, hlists, -⟩, hrun, ⟨-, hleft, -⟩, ⟨-, hothers⟩, ⟨-, honly⟩, -,
    hredraw, -⟩ := hdelete 0 rfl
  rw [ho, Option.map_some, hlists] at hchains
  cases hchains
  obtain ⟨-, hnowhere⟩ := delete_takes_one hw ha 4
  obtain ⟨r, hr, hnowhere, -⟩ := hnowhere hcontains'
  cases h₄.symm.trans hr
  refine ⟨hw, arena, o', ha, hcontains, hno, (delete_takes_one hw ha 5).1 hno, hnowhere rfl, hrun,
    hleft, ?_, hredraw.mpr (Or.inr ⟨"before-string", by simp, [0x0A], by decide⟩), ?_⟩
  · rw [hothers 0 (by decide), h₀]
    rfl
  · rw [honly.lists 1 (by decide)]
    decide +kernel

/-! ## All overlays -/

/-- A command that no fault stops. -/
def Succeeds (w : Workspace) (k : Command) : Prop :=
  ∃ answer events, w.run k = some (.done (w.step k) answer events)

theorem succeeds_of_run {k : Command} {w' : Workspace} {answer : Answer} {events : List Event}
    (h : w.run k = some (.done w' answer events)) : Succeeds w k := by
  refine ⟨answer, events, ?_⟩
  rw [step_of_run h]
  exact h

/-- One deletion after another: each takes one overlay from what is left. -/
theorem foldl_delete (ho : w.overlaid? a b = some o) (h : Overlaid.Indexed b a o before after)
    (hids : ids.Perm (before ++ after)) :
    let ks := ids.map (Command.deleteOverlay a)
    Along step Succeeds w ks ∧ ks.foldl step w = w.setOverlaid a b (o.emptied ids) := by
  induction ids generalizing w o before after with
  | nil =>
      obtain ⟨rfl, rfl⟩ := List.append_eq_nil_iff.mp hids.nil_eq.symm
      refine ⟨trivial, ?_⟩
      rw [Overlaid.emptied_nil h.holds.before_leads.eq_none h.holds.after_leads.eq_none,
        setOverlaid_of_overlaid? ho]
      rfl
  | cons id ids ih =>
      obtain ⟨r, hr, hb⟩ := (h.holds.ofBuffer id).mp (hids.subset List.mem_cons_self)
      obtain ⟨o', hunlink, hindexed, hemptied⟩ := h.exists_emptied hids
      have hrun := run_delete_of_attached ho hr hb hunlink
      obtain ⟨hrest, hfold⟩ := ih (overlaid?_setOverlaid ho o') hindexed (h.perm_erase hids)
      have hstep : w.step (.deleteOverlay a id) = w.setOverlaid a b o' := step_of_run hrun
      refine ⟨⟨succeeds_of_run hrun, ?_⟩, ?_⟩
      · rwa [hstep]
      · show (ids.map (Command.deleteOverlay a)).foldl step (w.step (.deleteOverlay a id)) = _
        rw [hstep, hfold, setOverlaid_setOverlaid, hemptied]

/-- **Deleting all overlays of a buffer is deleting each of them, in any order.** No deletion fails,
and both ways leave the same records, all of them nowhere and with their properties, nothing on the
chains, and the same of everything else; but only deleting all at once puts the center back, and
only deleting one by one may ask for all to be drawn again. Deleting any of them once more, or all,
finds nothing to do, but for the center. -/
theorem deleteAll_eq_deletes (h : w.Indexed) (ho : w.overlaid? a b = some o)
    (hhome : w.IsHome a b) (hchains : o.chains = .ok (before, after))
    (hids : ids.Perm (before ++ after)) :
    let ks := ids.map (Command.deleteOverlay a)
    let w₁ := ks.foldl step w
    let w₂ := w.step (.deleteAll a b)
    (Along step Succeeds w ks ∧ Succeeds w (.deleteAll a b)) ∧
    ∃ o₁ o₂, (w₁ = w.setOverlaid a b o₁ ∧ w₂ = w.setOverlaid a b o₂) ∧
      (o₁.arena = o₂.arena ∧ ∀ i, o₁.arena.find? i =
        if i ∈ before ++ after then (o.arena.find? i).map fun r =>
          { r with start := .nowhere, stop := .nowhere, next := none }
        else o.arena.find? i) ∧
      (o₁.buffer = { o.buffer with
        overlays := { o.buffer.overlays with before := none, after := none }
        redrawAll := o₁.buffer.redrawAll } ∧
      o₂.buffer = { o.buffer with
        overlays := { o.buffer.overlays with before := none, after := none, center := 1 } }) ∧
      (OnlyAt a b w w₁ ∧ OnlyAt a b w w₂) ∧
      (∀ id ∈ ids, w₁.run (.deleteOverlay a id) = some (.done w₁ .done) ∧
        w₂.run (.deleteOverlay a id) = some (.done w₂ .done)) ∧
      w₂.run (.deleteAll a b) = some (.done w₂ .done) ∧
      w₁.run (.deleteAll a b) = some (.done (w.setOverlaid a b
        (o₁.withChains { o₁.buffer.overlays with center := 1 })) .done) := by
  intro ks w₁ w₂
  have hhung := h.hung_of_chains ho hhome hchains
  have hindexed := hhung.indexed ho hhome
  obtain ⟨hsucceeds, hfold⟩ := foldl_delete ho hindexed hids
  obtain ⟨events, hrun⟩ := exists_run_deleteAll ho hindexed
  have hfold : w₁ = w.setOverlaid a b (o.emptied (before ++ after)) := by
    rw [← Overlaid.emptied_congr hids]
    exact hfold
  have hstep : w₂ = w.setOverlaid a b (o.cleared before after) := step_of_run hrun
  have harena := Overlaid.cleared_arena o before after
  have htouches : Arena.Touches b o.arena (o.arena.detachAll (before ++ after)) :=
    hindexed.holds.ofBuffer.touches_detachAll (List.Subset.refl _)
  -- an overlay of the buffer is nowhere in every state with these records
  have hagain : ∀ o', o'.arena = o.arena.detachAll (before ++ after) → ∀ id ∈ ids,
      (w.setOverlaid a b o').run (.deleteOverlay a id) =
        some (.done (w.setOverlaid a b o') .done) := by
    intro o' ho' id hid
    have hmem : id ∈ before ++ after := hids.subset hid
    obtain ⟨r, hr, -⟩ := (hindexed.holds.ofBuffer id).mp hmem
    have hgone : o'.arena.find? id = some r.detached := by
      rw [ho', Arena.find?_detachAll, if_pos hmem, hr]
      rfl
    refine run_delete_of_detached ?_ hgone rfl
    rw [arena?_setOverlaid ho, if_pos rfl]
  refine ⟨⟨hsucceeds, succeeds_of_run hrun⟩, o.emptied (before ++ after), o.cleared before after,
    ⟨hfold, hstep⟩, ⟨harena.symm, fun i => o.arena.find?_detachAll (before ++ after) i⟩,
    ⟨rfl, rfl⟩, ⟨?_, ?_⟩, ?_, ?_, ?_⟩
  · exact hfold ▸ onlyAt_setOverlaid h ho htouches
  · exact hstep ▸ onlyAt_setOverlaid h ho (harena ▸ htouches)
  · intro id hid
    rw [hfold, hstep]
    exact ⟨hagain _ rfl id hid, hagain _ harena id hid⟩
  · rw [hstep, run_deleteAll_of_empty (overlaid?_setOverlaid ho _) rfl rfl,
      setOverlaid_setOverlaid]
    rfl
  · rw [hfold, run_deleteAll_of_empty (overlaid?_setOverlaid ho _) rfl rfl,
      setOverlaid_setOverlaid]

/-- Overlays on both chains, those of another buffer among them in the arena, deleted from the last
one on. -/
theorem deleteAll_eq_deletes_backwards :
    let ks : List Command :=
      [.edit 0 (.insert 1 [0x61, 0x62, 0x63, 0x64]), .newBuffer false,
        .edit 1 (.insert 1 [0x78, 0x79]), .makeOverlay 0 0 1 2 [], .makeOverlay 0 1 1 3 [],
        .recenter 0 0 3, .makeOverlay 0 0 3 5 [], .makeOverlay 0 0 2 2 [([0x66], [0x67])]]
    let w := ks.foldl step (start true 1 0)
    let w₁ := ([2, 3, 0].map (Command.deleteOverlay 0)).foldl step w
    let w₂ := w.step (.deleteAll 0 0)
    w.Indexed ∧ w.IsHome 0 0 ∧ ∃ o o₁ o₂, w.overlaid? 0 0 = some o ∧
      o.chains = .ok ([0, 3], [2]) ∧ [2, 3, 0].Perm ([0, 3] ++ [2] : List Int) ∧
      (w₁ = w.setOverlaid 0 0 o₁ ∧ w₂ = w.setOverlaid 0 0 o₂ ∧ o₁.arena = o₂.arena) ∧
      o₁.arena.find? 3 = some { props := [([0x66], [0x67])] } ∧
      o₁.buffer.overlays.center = 3 ∧ o₂.buffer.overlays.center = 1 ∧
      w₂.run (.deleteOverlay 0 3) = some (.done w₂ .done) ∧
      w₂.run (.deleteAll 0 0) = some (.done w₂ .done) := by
  intro ks w w₁ w₂
  have hw : w.Indexed := indexed_run ks (by decide +kernel)
  have hhome : w.IsHome 0 0 := by decide +kernel
  have hlive : (w.overlaid? 0 0).isSome := by decide +kernel
  obtain ⟨o, ho⟩ := Option.isSome_iff_exists.mp hlive
  have hfound : (w.overlaid? 0 0).map
      (fun o => (o.chains, o.buffer.overlays.center, o.arena.find? 3)) =
      some (.ok ([0, 3], [2]), 3, some { start := ⟨some 0, 2, 2⟩, stop := ⟨some 0, 2, 2⟩,
                                         props := [([0x66], [0x67])] }) := by
    decide +kernel
  rw [ho, Option.map_some, Option.some.injEq, Prod.mk.injEq, Prod.mk.injEq] at hfound
  obtain ⟨hchains, hcenter, hrecord⟩ := hfound
  have hids : [2, 3, 0].Perm ([0, 3] ++ [2] : List Int) := by decide
  obtain ⟨-, o₁, o₂, ⟨hw₁, hw₂⟩, ⟨hsame, hrecords⟩, ⟨hbuffer₁, hbuffer₂⟩, -, hagain,
    hagainAll, -⟩ := deleteAll_eq_deletes hw ho hhome hchains hids
  refine ⟨hw, hhome, o, o₁, o₂, ho, hchains, hids, ⟨hw₁, hw₂, hsame⟩, ?_, ?_, ?_,
    (hagain 3 (by decide)).2, hagainAll⟩
  · rw [hrecords 3, if_pos (by decide), hrecord]
    rfl
  · rw [hbuffer₁]
    exact hcenter
  · rw [hbuffer₂]

end Workspace

end GapText
