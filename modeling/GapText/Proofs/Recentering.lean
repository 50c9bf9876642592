import GapText.Proofs.OneBuffer

/-!
# Recentering

Recentering deals the overlays of a buffer out to its two chains by where they end, and sorts each
chain by a key of its own. The sort keeps overlays with equal keys as they were (`StablySorted`).
Overlays that are dealt out so already stay where they are (`Indexed.recenter_eq_self`), therefore a
second recentering at the same place finds nothing to do.
-/

namespace GapText

/-! ## One buffer -/

namespace Overlaid

variable {o : Overlaid} {b : BufferId} {home : ArenaId} {a : Arena} {before after ids : List Int}
  {p : Int}

/-- Sorted by a key, and overlays with equal keys in the order in which `ids` has them. -/
structure StablySorted (R : Int → Int → Prop) (key : Int → Int) (ids sorted : List Int) :
    Prop where
  ordered : sorted.Pairwise fun i j => R (key i) (key j)
  stable : ∀ i ∈ sorted, ∀ j ∈ sorted, key i = key j → [i, j].Sublist ids →
    [i, j].Sublist sorted

theorem stablySorted_mergeSort {R : Int → Int → Prop} [DecidableRel R]
    (trans : ∀ x y z, R x y → R y z → R x z) (total : ∀ x y, R x y ∨ R y x) (key : Int → Int)
    (keep : Int → Bool) (ids : List Int) :
    StablySorted R key ids
      ((ids.filter keep).mergeSort fun i j => decide (R (key i) (key j))) := by
  have htrans : ∀ i j k, decide (R (key i) (key j)) = true → decide (R (key j) (key k)) = true →
      decide (R (key i) (key k)) = true := fun i j k hij hjk =>
    decide_eq_true (trans _ _ _ (of_decide_eq_true hij) (of_decide_eq_true hjk))
  have htotal : ∀ i j, (decide (R (key i) (key j)) || decide (R (key j) (key i))) = true := by
    intro i j
    rw [Bool.or_eq_true, decide_eq_true_eq, decide_eq_true_eq]
    exact total _ _
  constructor
  · exact (List.pairwise_mergeSort htrans htotal _).imp of_decide_eq_true
  · intro i hi j hj hkey hsub
    have hkeep : ∀ k ∈ (ids.filter keep).mergeSort fun i j => decide (R (key i) (key j)),
        keep k = true := fun k hk =>
      (List.mem_filter.mp ((List.mergeSort_perm _ _).mem_iff.mp hk)).2
    have hkept := hsub.filter keep
    rw [List.filter_cons_of_pos (hkeep i hi), List.filter_cons_of_pos (hkeep j hj),
      List.filter_nil] at hkept
    refine List.pair_sublist_mergeSort htrans htotal (decide_eq_true ?_) hkept
    rw [hkey]
    exact or_self_iff.mp (total (key j) (key j))

theorem stablySorted_ended (a : Arena) (p : Int) (ids : List Int) :
    StablySorted (· ≥ ·) a.stopChar ids (ended a p ids) :=
  stablySorted_mergeSort (R := (· ≥ ·)) (fun _ _ _ hxy hyz => Int.le_trans hyz hxy)
    (fun x y => Int.le_total y x) a.stopChar _ ids

theorem stablySorted_others (a : Arena) (p : Int) (ids : List Int) :
    StablySorted (· ≤ ·) a.startChar ids (others a p ids) :=
  stablySorted_mergeSort (R := (· ≤ ·)) (fun _ _ _ => Int.le_trans) Int.le_total a.startChar _ ids

theorem ended_append_others_perm (a : Arena) (p : Int) (ids : List Int) :
    (ended a p ids ++ others a p ids).Perm ids :=
  ((List.mergeSort_perm _ _).append (List.mergeSort_perm _ _)).trans
    (List.filter_append_perm _ _)

/-! ### What is dealt out already -/

/-- Both halves of a list are found again by what tells them apart. -/
theorem filter_halves (keep : Int → Bool) (hbefore : ∀ id ∈ before, keep id = true)
    (hafter : ∀ id ∈ after, keep id = false) :
    (before ++ after).filter keep = before ∧
      (before ++ after).filter (fun id => !keep id) = after := by
  have hafter' : ∀ id ∈ after, (!keep id) = true := fun id hid => by
    rw [hafter id hid]
    rfl
  have hnone : after.filter keep = [] := List.filter_eq_nil_iff.mpr fun id hid => by
    rw [hafter id hid]
    exact Bool.false_ne_true
  have hnone' : before.filter (fun id => !keep id) = [] :=
    List.filter_eq_nil_iff.mpr fun id hid => by
      rw [hbefore id hid]
      exact Bool.false_ne_true
  constructor
  · rw [List.filter_append, hnone, List.append_nil, List.filter_eq_self.mpr hbefore]
  · rw [List.filter_append, hnone', List.nil_append, List.filter_eq_self.mpr hafter']

/-- Two sorted chains with the center between them are dealt out as they are. -/
theorem ended_and_others_of_dealt (hlt : ∀ id ∈ before, a.stopChar id < p)
    (hge : ∀ id ∈ after, p ≤ a.stopChar id)
    (hbefore : before.Pairwise fun i j => a.stopChar j ≤ a.stopChar i)
    (hafter : after.Pairwise fun i j => a.startChar i ≤ a.startChar j) :
    ended a p (before ++ after) = before ∧ others a p (before ++ after) = after := by
  obtain ⟨hfront, hback⟩ := filter_halves (fun id => decide (a.stopChar id < p))
    (fun id hid => decide_eq_true (hlt id hid))
    (fun id hid => decide_eq_false (Int.not_lt.mpr (hge id hid)))
  unfold ended others
  rw [hfront, hback]
  exact ⟨List.mergeSort_of_pairwise (hbefore.imp decide_eq_true),
    List.mergeSort_of_pairwise (hafter.imp decide_eq_true)⟩

/-- **Recentering at the center** changes nothing when both chains are sorted. -/
theorem Indexed.recenter_eq_self (h : Indexed b home o before after)
    (hbefore : before.Pairwise fun i j => o.arena.stopChar j ≤ o.arena.stopChar i)
    (hafter : after.Pairwise fun i j => o.arena.startChar i ≤ o.arena.startChar j) :
    ∃ events, o.recenter o.buffer.overlays.center = .done o () events := by
  obtain ⟨hleadsB, hleadsA, -, hlt, hge⟩ := h.holds
  obtain ⟨events, hrecenter⟩ := recenter_eq hleadsB hleadsA o.buffer.overlays.center
  obtain ⟨hended, hothers⟩ := ended_and_others_of_dealt hlt hge hbefore hafter
  have hself : o.dealt o.buffer.overlays.center (before ++ after) = o := by
    unfold Overlaid.dealt
    rw [hended, hothers, hleadsB.relink_eq, hleadsA.relink_eq, ← hleadsB.eq_head?,
      ← hleadsA.eq_head?]
  rw [hself] at hrecenter
  exact ⟨events, hrecenter⟩

end Overlaid

/-! ## A workspace -/

namespace Workspace

open Overlaid (StablySorted)

variable {w : Workspace} {a : ArenaId} {b : BufferId} {o o' : Overlaid} {before after : List Int}

theorem run_recenter_of_done {p : Int} {events : List Event} (ho : w.overlaid? a b = some o)
    (hrecenter : o.recenter p = .done o' () events) :
    w.run (.recenter a b p) = some (.done (w.setOverlaid a b o') .done events) := by
  simp only [run, onOverlaid_eq ho, hrecenter, Option.map_some]
  rfl

/-- **Recentering deals out the same overlays again.** Those that end before the new center come to
the chain before it, by falling end, all others to the chain behind it, by rising start, and where
these keys are equal the order along the old chains stays. Nothing else of their records changes,
and of the buffer only the heads of the chains and the center. Recentering at the same place once
more finds everything as it should be. -/
theorem recenter_deals_out (h : w.Indexed) (ho : w.overlaid? a b = some o) (hhome : w.IsHome a b)
    (p : Int) :
    ∃ before after before' after' o' events,
      let w' := w.setOverlaid a b o'
      o.chains = .ok (before, after) ∧ w.run (.recenter a b p) = some (.done w' .done events) ∧
      (w'.overlaid? a b = some o' ∧ o'.chains = .ok (before', after')) ∧
      ((before' ++ after').Perm (before ++ after) ∧
        (∀ id, id ∈ before' ↔ id ∈ before ++ after ∧ o.arena.stopChar id < p) ∧
        ∀ id, id ∈ after' ↔ id ∈ before ++ after ∧ p ≤ o.arena.stopChar id) ∧
      (StablySorted (· ≥ ·) o.arena.stopChar (before ++ after) before' ∧
        StablySorted (· ≤ ·) o.arena.startChar (before ++ after) after') ∧
      Arena.Rechained (before ++ after) o.arena o'.arena ∧
      o'.buffer = { o.buffer with overlays := { o.buffer.overlays with
        before := before'.head?, after := after'.head?, center := p } } ∧
      (w'.Indexed ∧ OnlyAt a b w w') ∧
      ∃ events, w'.run (.recenter a b p) = some (.done w' .done events) := by
  obtain ⟨before, after, hhung⟩ := h.hung b
  have hindexed := hhung.indexed ho hhome
  obtain ⟨events, hrecenter⟩ :=
    Overlaid.recenter_eq hindexed.holds.before_leads hindexed.holds.after_leads p
  obtain ⟨hdealt, htouches⟩ := hindexed.dealt p
  have hsame := Overlaid.rechained_dealt o p (before ++ after)
  have hended := Overlaid.stablySorted_ended o.arena p (before ++ after)
  have hothers := Overlaid.stablySorted_others o.arena p (before ++ after)
  have hself := overlaid?_setOverlaid ho (o.dealt p (before ++ after))
  refine ⟨before, after, _, _, o.dealt p (before ++ after), events, hindexed.chains_eq,
    run_recenter_of_done ho hrecenter, ⟨hself, hdealt.chains_eq⟩,
    ⟨Overlaid.ended_append_others_perm o.arena p _, fun _ => Overlaid.mem_ended,
      fun _ => Overlaid.mem_others⟩, ⟨hended, hothers⟩, hsame, rfl,
    ⟨h.setOverlaid ho hhome hdealt htouches, onlyAt_setOverlaid h ho htouches⟩, ?_⟩
  obtain ⟨events', hagain⟩ := hdealt.recenter_eq_self
    (hended.ordered.imp fun hij => by rwa [hsame.stopChar_eq, hsame.stopChar_eq])
    (hothers.ordered.imp fun hij => by rwa [hsame.startChar_eq, hsame.startChar_eq])
  have hrun := run_recenter_of_done hself hagain
  rw [setOverlaid_setOverlaid] at hrun
  exact ⟨events', hrun⟩

/-- Two overlays that end at the same place before the new center, and two that start at the same
place and end behind it; between them one of another buffer. -/
theorem recenter_keeps_order_of_ties :
    let ks : List Command :=
      [.edit 0 (.insert 1 [0x61, 0x62, 0x63, 0x64]), .newBuffer false,
        .edit 1 (.insert 1 [0x78, 0x79]), .makeOverlay 0 0 1 2 [], .makeOverlay 0 0 2 4 [],
        .makeOverlay 0 1 1 2 [], .makeOverlay 0 0 2 2 [], .makeOverlay 0 0 2 3 []]
    let w := ks.foldl step (start true 1 0)
    w.Indexed ∧ w.IsHome 0 0 ∧ ∃ o o' events, w.overlaid? 0 0 = some o ∧
      o.chains = .ok ([], [0, 1, 3, 4]) ∧
      w.run (.recenter 0 0 3) = some (.done (w.setOverlaid 0 0 o') .done events) ∧
      o'.chains = .ok ([0, 3], [1, 4]) ∧ o'.buffer.overlays.center = 3 ∧
      (w.setOverlaid 0 0 o').lists 1 = .ok ([], [2]) := by
  intro ks w
  have hw : w.Indexed := indexed_run ks (by decide +kernel)
  have hhome : w.IsHome 0 0 := by decide +kernel
  have hlive : (w.overlaid? 0 0).isSome := by decide +kernel
  obtain ⟨o, ho⟩ := Option.isSome_iff_exists.mp hlive
  have hfound : (w.overlaid? 0 0).map (fun o => (o.chains,
      [0, 1, 3, 4].map fun id => (o.arena.startChar id, o.arena.stopChar id))) =
      some (.ok ([], [0, 1, 3, 4]), [(1, 2), (2, 4), (2, 2), (2, 3)]) := by decide +kernel
  rw [ho, Option.map_some, Option.some.injEq, Prod.mk.injEq] at hfound
  obtain ⟨hlists, hbounds⟩ := hfound
  simp only [List.map_cons, List.map_nil, List.cons.injEq, Prod.mk.injEq, and_true] at hbounds
  obtain ⟨⟨-, h₀⟩, ⟨h₁, h₁'⟩, ⟨-, h₃⟩, h₄, h₄'⟩ := hbounds
  obtain ⟨before, after, before', after', o', events, hchains, hrun, ⟨-, hchains'⟩,
    ⟨hperm, hbefore, hafter⟩, ⟨hended, hothers⟩, -, hbuffer, ⟨-, honly⟩, -⟩ :=
    recenter_deals_out hw ho hhome 3
  cases hlists.symm.trans hchains
  have hfront : [0, 3].Sublist before' :=
    hended.stable 0 ((hbefore 0).mpr ⟨by decide, by omega⟩) 3
      ((hbefore 3).mpr ⟨by decide, by omega⟩) (by omega) (by decide)
  have hback : [1, 4].Sublist after' :=
    hothers.stable 1 ((hafter 1).mpr ⟨by decide, by omega⟩) 4
      ((hafter 4).mpr ⟨by decide, by omega⟩) (by omega) (by decide)
  -- both chains have four overlays together, and these are four
  have hlen := hperm.length_eq
  have hlen' := hfront.length_le
  have hlen'' := hback.length_le
  simp only [List.length_append, List.length_cons, List.length_nil] at hlen hlen' hlen''
  obtain rfl : [0, 3] = before' := hfront.eq_of_length_le (by
    simp only [List.length_cons, List.length_nil]
    omega)
  obtain rfl : [1, 4] = after' := hback.eq_of_length_le (by
    simp only [List.length_cons, List.length_nil]
    omega)
  refine ⟨hw, hhome, o, o', events, ho, hlists, hrun, hchains', ?_, ?_⟩
  · rw [hbuffer]
  · rw [honly.lists 1 (by decide)]
    decide +kernel

end Workspace

end GapText
