import GapText.Proofs.External
import GapText.Proofs.Making
import GapText.Proofs.Search
import GapText.Proofs.Viewer

/-!
# Marking the matches of a word

The program looks for a word in the bytes of a text and turns each match into an overlay between two
characters. What it finds are the matches among the characters (`Code.greedy_of_encode`). Marking
only makes overlays: records are put behind those that are there, and hung on the chains behind what
hangs there (`Made`), so that the text and with it the places of the matches still to come stay the
same.
-/

namespace GapText

/-! ## Overlays made one after another -/

namespace Arena

variable {a a' : Arena} {ids : List Int}

/-- The records of an arena, their places on chains aside. -/
def loose (a : Arena) : List Overlay := a.records.toList.map Overlay.loose

theorem length_loose (a : Arena) : a.loose.length = a.size := by
  rw [loose, List.length_map, Array.length_toList, size]

theorem getElem?_records {α : Type} (a : Arena) (f : Overlay → α) (i : Nat) :
    (a.records.toList.map f)[i]? = (a.find? i).map f := by
  rw [List.getElem?_map, Array.getElem?_toList, find?, if_pos (Int.natCast_nonneg i),
    Int.toNat_natCast]

/-- All records are alike when each of them is. -/
theorem map_records_eq_iff {α : Type} (f : Overlay → α) :
    a'.records.toList.map f = a.records.toList.map f ↔
      ∀ id, (a'.find? id).map f = (a.find? id).map f := by
  constructor
  · intro h id
    by_cases hneg : 0 ≤ id
    · obtain ⟨i, rfl⟩ := Int.eq_ofNat_of_zero_le hneg
      rw [← getElem?_records, ← getElem?_records, h]
    · rw [find?, find?, if_neg hneg, if_neg hneg]
  · exact fun h => List.ext_getElem? fun i => by rw [getElem?_records, getElem?_records, h]

theorem getElem?_loose (a : Arena) (i : Nat) : a.loose[i]? = (a.find? i).map Overlay.loose :=
  a.getElem?_records Overlay.loose i

theorem loose_push (a : Arena) (r : Overlay) : (a.push r).loose = a.loose ++ [r.loose] := by
  rw [loose, push, Array.toList_push, List.map_append, List.map_singleton, loose]

theorem stopChar_congr_loose_list (h : a'.loose = a.loose) (id : Int) :
    a'.stopChar id = a.stopChar id :=
  stopChar_congr_loose ((map_records_eq_iff Overlay.loose).mp h id)

theorem Rechained.loose_list_eq (h : Rechained ids a a') : a'.loose = a.loose :=
  (map_records_eq_iff Overlay.loose).mpr h.loose_eq

end Arena

/-- Two lists that share out the numbers from `lo` up to `hi`, each in order. -/
structure Shares (lo hi : Nat) (xs ys : List Int) : Prop where
  le : lo ≤ hi
  left : xs.Pairwise (· < ·)
  right : ys.Pairwise (· < ·)
  mem_iff : ∀ id, id ∈ xs ++ ys ↔ (lo : Int) ≤ id ∧ id < hi

theorem shares_nil (lo : Nat) : Shares lo lo [] [] where
  le := Nat.le_refl lo
  left := .nil
  right := .nil
  mem_iff := fun id => iff_of_false List.not_mem_nil (by omega)

theorem pairwise_lt_append {mid : Int} {xs xs' : List Int} (h : xs.Pairwise (· < ·))
    (h' : xs'.Pairwise (· < ·)) (hlt : ∀ i ∈ xs, i < mid) (hge : ∀ i ∈ xs', mid ≤ i) :
    (xs ++ xs').Pairwise (· < ·) :=
  List.pairwise_append.mpr
    ⟨h, h', fun i hi j hj => Int.lt_of_lt_of_le (hlt i hi) (hge j hj)⟩

theorem Shares.append {lo mid hi : Nat} {xs ys xs' ys' : List Int} (h : Shares lo mid xs ys)
    (h' : Shares mid hi xs' ys') : Shares lo hi (xs ++ xs') (ys ++ ys') where
  le := Nat.le_trans h.le h'.le
  left := pairwise_lt_append h.left h'.left
    (fun i hi => ((h.mem_iff i).mp (List.mem_append_left ys hi)).2)
    (fun i hi => ((h'.mem_iff i).mp (List.mem_append_left ys' hi)).1)
  right := pairwise_lt_append h.right h'.right
    (fun i hi => ((h.mem_iff i).mp (List.mem_append_right xs hi)).2)
    (fun i hi => ((h'.mem_iff i).mp (List.mem_append_right xs' hi)).1)
  mem_iff := by
    intro id
    have hle := h.le
    have hle' := h'.le
    have hmem : id ∈ xs ++ xs' ++ (ys ++ ys') ↔ id ∈ xs ++ ys ∨ id ∈ xs' ++ ys' := by
      simp only [List.mem_append]
      tauto
    rw [hmem, h.mem_iff, h'.mem_iff]
    omega

theorem Shares.mem_left_iff {lo hi : Nat} {xs ys : List Int} {P : Int → Prop}
    (h : Shares lo hi xs ys) (hxs : ∀ id ∈ xs, P id) (hys : ∀ id ∈ ys, ¬ P id) (id : Int) :
    id ∈ xs ↔ ((lo : Int) ≤ id ∧ id < hi) ∧ P id := by
  rw [← h.mem_iff, List.mem_append]
  constructor
  · exact fun hid => ⟨Or.inl hid, hxs id hid⟩
  · rintro ⟨hid | hid, hP⟩
    · exact hid
    · exact absurd hP (hys id hid)

theorem Shares.swap {lo hi : Nat} {xs ys : List Int} (h : Shares lo hi xs ys) :
    Shares lo hi ys xs where
  le := h.le
  left := h.right
  right := h.left
  mem_iff := fun id => by rw [← h.mem_iff, List.mem_append, List.mem_append, or_comm]

/-- A list in strict order is known by its members. -/
theorem eq_of_pairwise_lt {xs ys : List Int} (hxs : xs.Pairwise (· < ·))
    (hys : ys.Pairwise (· < ·)) (hmem : ∀ id, id ∈ xs ↔ id ∈ ys) : xs = ys := by
  have hperm : xs.Perm ys :=
    (List.perm_ext_iff_of_nodup (hxs.imp Int.ne_of_lt) (hys.imp Int.ne_of_lt)).mpr hmem
  exact hperm.eq_of_pairwise (fun i j _ _ hij hji => absurd hij (Int.lt_asymm hji)) hxs hys

/-- There is only one way to share out the numbers when each of them has its side. -/
theorem Shares.unique {lo hi : Nat} {xs ys xs' ys' : List Int} {P : Int → Prop}
    (h : Shares lo hi xs ys) (h' : Shares lo hi xs' ys') (hxs : ∀ id ∈ xs, P id)
    (hys : ∀ id ∈ ys, ¬ P id) (hxs' : ∀ id ∈ xs', P id) (hys' : ∀ id ∈ ys', ¬ P id) :
    xs' = xs ∧ ys' = ys := by
  have hnot : ∀ {zs : List Int}, (∀ id ∈ zs, P id) → ∀ id ∈ zs, ¬ ¬ P id :=
    fun hzs id hid => not_not_intro (hzs id hid)
  constructor
  · refine eq_of_pairwise_lt h'.left h.left fun id => ?_
    rw [h.mem_left_iff hxs hys, h'.mem_left_iff hxs' hys']
  · refine eq_of_pairwise_lt h'.right h.right fun id => ?_
    rw [h.swap.mem_left_iff hys (hnot hxs), h'.swap.mem_left_iff hys' (hnot hxs')]

namespace Overlaid

variable {b : BufferId} {home : ArenaId} {o o' o'' : Overlaid} {before after : List Int}
  {rs rs' : List Overlay}

/-- These overlays were made, one after another, and nothing else was done. -/
structure Made (b : BufferId) (home : ArenaId) (o o' : Overlaid) (rs : List Overlay) : Prop where
  buffer : ∃ l, o'.buffer = { o.buffer with overlays := l }
  center : o'.buffer.overlays.center = o.buffer.overlays.center
  records : o'.arena.loose = o.arena.loose ++ rs
  hung : ∀ before after, Indexed b home o before after → ∃ newBefore newAfter,
    Indexed b home o' (before ++ newBefore) (after ++ newAfter) ∧
      Shares o.arena.size o'.arena.size newBefore newAfter

theorem Made.refl (b : BufferId) (home : ArenaId) (o : Overlaid) : Made b home o o [] where
  buffer := ⟨_, rfl⟩
  center := rfl
  records := (List.append_nil _).symm
  hung := by
    intro before after h
    refine ⟨[], [], ?_, shares_nil _⟩
    rwa [List.append_nil, List.append_nil]

theorem Made.trans (h : Made b home o o' rs) (h' : Made b home o' o'' rs') :
    Made b home o o'' (rs ++ rs') where
  buffer := by
    obtain ⟨l, hl⟩ := h.buffer
    obtain ⟨l', hl'⟩ := h'.buffer
    exact ⟨l', by rw [hl', hl]⟩
  center := h'.center.trans h.center
  records := by rw [h'.records, h.records, List.append_assoc]
  hung := by
    intro before after hindexed
    obtain ⟨xs, ys, hindexed, hshares⟩ := h.hung before after hindexed
    obtain ⟨xs', ys', hindexed, hshares'⟩ := h'.hung _ _ hindexed
    refine ⟨xs ++ xs', ys ++ ys', ?_, hshares.append hshares'⟩
    rwa [← List.append_assoc, ← List.append_assoc]

theorem placed_eq_append (center : Int) (r : Overlay) (id : Int) (before after : List Int) :
    placed center r id before after =
      (before ++ (placed center r id [] []).1, after ++ (placed center r id [] []).2) := by
  unfold placed
  split
  · rw [List.nil_append, List.append_nil]
  · rw [List.nil_append, List.append_nil]

theorem shares_placed (center : Int) (r : Overlay) (n : Nat) :
    Shares n (n + 1) (placed center r n [] []).1 (placed center r n [] []).2 where
  le := Nat.le_succ n
  left := by
    unfold placed
    split
    · exact List.pairwise_singleton _ _
    · exact .nil
  right := by
    unfold placed
    split
    · exact .nil
    · exact List.pairwise_singleton _ _
  mem_iff := by
    intro id
    rw [mem_placed, List.nil_append, List.nil_append, List.mem_singleton]
    omega

/-- Making one overlay. -/
theorem Indexed.made (h : Indexed b home o before after) (p q : Int) (props : Properties) :
    Made b home o (o.make b home p q props).state [o.fresh b p q props] := by
  obtain ⟨a, l, hstate, -, hcenter, -, -, -, hsame⟩ := h.exists_make p q props
  have hrecords : (o.make b home p q props).state.arena.loose =
      o.arena.loose ++ [o.fresh b p q props] := by
    rw [hstate, hsame.loose_list_eq, Arena.loose_push]
    rfl
  refine ⟨⟨l, by rw [hstate]⟩, by rw [hstate]; exact hcenter, hrecords,
    fun before after hindexed => ?_⟩
  have hsize : (o.make b home p q props).state.arena.size = o.arena.size + 1 := by
    rw [← Arena.length_loose, hrecords, List.length_append, Arena.length_loose]
    rfl
  obtain ⟨-, hmade, -⟩ := hindexed.make p q props
  rw [placed_eq_append] at hmade
  exact ⟨_, _, hmade, hsize ▸ shares_placed _ _ _⟩

theorem Made.chars_eq (h : Made b home o o' rs) : o'.buffer.chars = o.buffer.chars := by
  obtain ⟨l, hl⟩ := h.buffer
  rw [hl]
  rfl

theorem Made.size_eq (h : Made b home o o' rs) : o'.arena.size = o.arena.size + rs.length := by
  rw [← Arena.length_loose, h.records, List.length_append, Arena.length_loose]

/-- When overlays that end at the same places are made on two pages with the same chains, the chains
stay the same. -/
theorem Made.exists_indexed {p p' : Overlaid} (h : Made b home o o' rs)
    (h' : Made b home p p' rs') (hindexed : Indexed b home o before after)
    (hindexed' : Indexed b home p before after) (hsize : p.arena.size = o.arena.size)
    (hsize' : p'.arena.size = o'.arena.size)
    (hcenter : p.buffer.overlays.center = o.buffer.overlays.center)
    (hstop : ∀ id, p'.arena.stopChar id = o'.arena.stopChar id) :
    ∃ before' after', Indexed b home o' before' after' ∧ Indexed b home p' before' after' := by
  obtain ⟨xs, ys, hnew, hshares⟩ := h.hung before after hindexed
  obtain ⟨xs', ys', hnew', hshares'⟩ := h'.hung before after hindexed'
  rw [hsize, hsize'] at hshares'
  have hside : ∀ {xs ys : List Int}, Indexed b home p' (before ++ xs) (after ++ ys) →
      (∀ id ∈ xs, o'.arena.stopChar id < o'.buffer.overlays.center) ∧
        ∀ id ∈ ys, ¬ o'.arena.stopChar id < o'.buffer.overlays.center := by
    intro xs ys hnew
    rw [h.center, ← hcenter, ← h'.center]
    refine ⟨fun id hid => ?_, fun id hid => ?_⟩
    · rw [← hstop id]
      exact hnew.holds.before_lt id (List.mem_append_right before hid)
    · rw [← hstop id]
      exact Int.not_lt.mpr (hnew.holds.after_ge id (List.mem_append_right after hid))
  obtain ⟨rfl, rfl⟩ := hshares.unique hshares'
    (P := fun id => o'.arena.stopChar id < o'.buffer.overlays.center)
    (fun id hid => hnew.holds.before_lt id (List.mem_append_right before hid))
    (fun id hid => Int.not_lt.mpr (hnew.holds.after_ge id (List.mem_append_right after hid)))
    (hside hnew').1 (hside hnew').2
  exact ⟨_, _, hnew, hnew'⟩

/-- What was there before keeps its number. -/
theorem Made.find?_old (h : Made b home o o' rs) {id : Int} (hid : id < o.arena.size) :
    (o'.arena.find? id).map Overlay.loose = (o.arena.find? id).map Overlay.loose := by
  by_cases hneg : 0 ≤ id
  · obtain ⟨i, rfl⟩ := Int.eq_ofNat_of_zero_le hneg
    rw [← Arena.getElem?_loose, ← Arena.getElem?_loose, h.records, List.getElem?_append_left]
    rw [Arena.length_loose]
    omega
  · rw [Arena.find?, Arena.find?, if_neg hneg, if_neg hneg]

/-- The new ones get the numbers behind it, in order. -/
theorem Made.find?_new (h : Made b home o o' rs) (i : Nat) :
    (o'.arena.find? (o.arena.size + i : Nat)).map Overlay.loose = rs[i]? := by
  rw [← Arena.getElem?_loose, h.records, ← Arena.length_loose, List.getElem?_append_right
    (Nat.le_add_right _ _), Nat.add_sub_cancel_left]

/-! ## Overlays between characters -/

open Code

/-- The marker that a place of the text gives. -/
theorem markAt_eq {cs : List Int} (h : o.buffer.Sound cs) (b : BufferId) {k : Nat}
    (hk : k ≤ cs.length) :
    o.markAt b (k + 1) = ⟨some b, ⟨k + 1, offset o.buffer.multibyte cs k + 1⟩⟩ := by
  have hclamp : min (max (k + 1 : Int) 1) (cs.length + 1) = k + 1 := by omega
  rw [markAt_of_sound h, hclamp, bytePos_add_one]

end Overlaid

/-- What stands at a match are the bytes of the word. -/
theorem Buffer.Sound.substring_of_isPrefix {b : Buffer} {cs word : List Int} {k : Nat}
    (h : b.Sound cs) (hword : word ≠ []) (hmatch : word <+: cs.drop k) :
    b.substring (k + 1) (k + word.length + 1) = Code.encode b.multibyte word := by
  have hend := Greedy.add_length_le hword hmatch
  obtain ⟨post, hpost⟩ := hmatch
  have hcs : cs = cs.take k ++ word ++ post := by
    rw [List.append_assoc, hpost, List.take_append_drop]
  have hlen : (cs.take k).length = k := List.length_take_of_le (by omega)
  have hbetween := (hcs ▸ h).substring_eq
  rw [List.length_append, hlen] at hbetween
  exact_mod_cast hbetween

namespace Viewer

open Code
open Buffer (Settled)
open Overlaid (Made)

variable {m : Bool} {o : Overlaid} {v : Viewer} {word : List Int} {lo hi : Nat}

/-- The overlay that marks a text from one character up to another one. -/
def marking (m : Bool) (cs : List Int) (lo hi : Nat) : Overlay where
  start := ⟨some 0, ⟨lo + 1, offset m cs lo + 1⟩⟩
  stop := ⟨some 0, ⟨hi + 1, offset m cs hi + 1⟩⟩
  props := [(Bytes.ascii "face", Bytes.ascii "match")]

/-- The bytes of some characters get the overlay of these characters. -/
theorem Orderly.made_markBytes (h : Orderly m o) (hle : lo ≤ hi)
    (hhi : hi ≤ o.buffer.chars.length) :
    Made 0 0 o (Viewer.markBytes o (offset m o.buffer.chars lo + 1)
      (offset m o.buffer.chars hi + 1)).value [marking m o.buffer.chars lo hi] := by
  obtain ⟨before, after, hindexed⟩ := h.alone.hung
  have hsound := h.settled.sound
  obtain rfl := h.settled.1
  have hchar : ∀ k ≤ o.buffer.chars.length,
      o.buffer.toChar (offset o.buffer.multibyte o.buffer.chars k + 1) = k + 1 := by
    intro k hk
    rw [← bytePos_add_one]
    exact hsound.toChar_bytePos (by omega) (by omega)
  have hfresh : ∀ props, o.fresh 0 (lo + 1) (hi + 1) props =
      { marking o.buffer.multibyte o.buffer.chars lo hi with props } := by
    intro props
    unfold Overlaid.fresh
    rw [Int.min_eq_left (by omega), Int.max_eq_right (by omega),
      Overlaid.markAt_eq hsound 0 (Nat.le_trans hle hhi), Overlaid.markAt_eq hsound 0 hhi]
    rfl
  have hmade := hindexed.made (lo + 1) (hi + 1) [(Bytes.ascii "face", Bytes.ascii "match")]
  rw [hfresh] at hmade
  unfold Viewer.markBytes
  rw [hchar lo (Nat.le_trans hle hhi), hchar hi hhi]
  exact hmade

/-- Marking matches one after another makes an overlay for each of them. -/
theorem Orderly.made_foldl {cs : List Int} {found : List Nat} (hword : word ≠ [])
    (hfound : ∀ k ∈ found, word <+: cs.drop k) (h : Orderly m o) (hcs : o.buffer.chars = cs) :
    Made 0 0 o ((found.map (offset m cs)).foldl (fun o (i : Nat) =>
        (Viewer.markBytes o (i + 1) (i + 1 + (encode m word).length)).value) o)
      (found.map fun k => marking m cs k (k + word.length)) := by
  induction found generalizing o with
  | nil => exact .refl 0 0 o
  | cons k found ih =>
      obtain ⟨hmatch, hrest⟩ := List.forall_mem_cons.mp hfound
      have hend := Greedy.add_length_le hword hmatch
      have hstep := h.made_markBytes (Nat.le_add_right k word.length) (hcs ▸ hend)
      rw [hcs, offset_add hmatch, Int.natCast_add, Int.add_right_comm] at hstep
      -- the new overlay leaves the text alone, so the matches behind are where they were
      exact hstep.trans (ih hrest (h.markBytes _ _) (hstep.chars_eq.trans hcs))

/-- What is marked are the matches among the characters. -/
theorem Sane.exists_marked {s : Bytes} (h : Sane m v) (hs : s ≠ []) :
    let cs := v.buffer.chars
    let word := decodeText m (v.buffer.internalForm s)
    (word ≠ [] ∧ encode m word = v.buffer.internalForm s) ∧
    ∃ found page, Greedy word cs 0 found ∧
      (v.markMatches s).value = ({ v with page }, found.length) ∧
      Made 0 0 v.page page (found.map fun k => marking m cs k (k + word.length)) := by
  intro cs word
  have hsound : v.buffer.Sound cs := h.page.settled.sound
  have hm : v.buffer.multibyte = m := h.page.settled.1
  obtain ⟨hallowed, hencode⟩ : (∀ c ∈ word, Code.Allowed m c) ∧
      encode m word = v.buffer.internalForm s :=
    isText_iff.mp (hm ▸ Buffer.isText_internalForm v.buffer s)
  have hne : v.buffer.internalForm s ≠ [] := by
    unfold Buffer.internalForm
    split
    · exact ofExternal_ne_nil hs
    · exact hs
  have hword : word ≠ [] := by
    intro hnil
    rw [hnil] at hencode
    exact hne hencode.symm
  have htext : v.buffer.text.toList = encode m cs := by
    rw [hsound.wellFormed.toInShape.toList_eq, hsound.contents_eq, hm]
  have hbytes : Greedy (encode m word) (encode m cs) 0
      (Bytes.matchesFrom (v.buffer.internalForm s) 0 0 (encode m cs)) :=
    hencode.symm ▸ Bytes.greedy_matchesFrom hne [] 0 (encode m cs)
  obtain ⟨found, hfound, hgreedy⟩ :=
    greedy_of_encode hallowed (hm ▸ hsound.allowed) hword hbytes (k := 0) rfl (Nat.zero_le _)
  refine ⟨⟨hword, hencode⟩, found, _, hgreedy, ?_, h.page.made_foldl hword hgreedy.here_of_mem rfl⟩
  unfold Viewer.markMatches
  rw [if_neg (mt List.isEmpty_iff.mp hs), Logged.value_bind, value_foldlM, htext, hencode, hfound,
    List.length_map]
  rfl

/-- **A word is marked where it stands among the characters.** After any run, marking a word makes
one overlay for each match that a search of the characters from left to right finds, from the first
character of the match to the end of its last one, in order under the next numbers, and no other
one. The matches do not overlap, and between the ends of each overlay is the word. Nothing else
changes: not the text, the point or the accessible part, not the overlays that were there and not
their order on the chains, at the ends of which the new ones hang. An empty word marks nothing. -/
theorem markMatches_run (rows cols : Nat) (m : Bool) (files : FileTree) (ks : List Command)
    (h : Along (step files) Allowed (start rows cols m) ks) (s : Bytes) :
    let v := ks.foldl (step files) (start rows cols m)
    let cs := v.buffer.chars
    let word := decodeText m (v.buffer.internalForm s)
    (s = [] → v.markMatches s = pure (v, 0)) ∧
    (s ≠ [] →
      (word ≠ [] ∧ encode m word = v.buffer.internalForm s) ∧
      ∃ found page,
        Greedy word cs 0 found ∧
        (v.markMatches s).value = ({ v with page }, found.length) ∧
        (page.arena.size = v.page.arena.size + found.length ∧
          (∀ i : Nat, (page.arena.find? (v.page.arena.size + i : Nat)).map Overlay.loose =
            found[i]?.map fun k => marking m cs k (k + word.length)) ∧
          ∀ id < (v.page.arena.size : Int), (page.arena.find? id).map Overlay.loose =
            (v.page.arena.find? id).map Overlay.loose) ∧
        (found.Pairwise (fun j k => j + word.length ≤ k) ∧
          ∀ k ∈ found, k + word.length ≤ cs.length ∧
            page.buffer.substring (k + 1) (k + word.length + 1) = v.buffer.internalForm s) ∧
        page.buffer = { v.buffer with overlays := page.buffer.overlays } ∧
        ∃ before after newBefore newAfter, v.page.chains = .ok (before, after) ∧
          page.chains = .ok (before ++ newBefore, after ++ newAfter) ∧
          Shares v.page.arena.size page.arena.size newBefore newAfter) := by
  intro v cs word
  have hv : Sane m v := sane_run ks h
  refine ⟨?_, fun hs => ?_⟩
  · rintro rfl
    rfl
  · obtain ⟨hword, found, page, hgreedy, hvalue, hmade⟩ := hv.exists_marked hs
    obtain ⟨before, after, hindexed⟩ := hv.page.alone.hung
    obtain ⟨newBefore, newAfter, hpage, hshares⟩ := hmade.hung before after hindexed
    obtain ⟨l, hl⟩ := hmade.buffer
    have hsettled : Settled m page.buffer := hv.page.settled.of_sameText ⟨l, _, _, hl⟩
    have hsound := hsettled.sound
    rw [hmade.chars_eq] at hsound
    refine ⟨hword, found, page, hgreedy, hvalue, ⟨?_, fun i => ?_, fun id hid => ?_⟩,
      ⟨hgreedy.pairwise, fun k hk => ?_⟩, ?_, before, after, newBefore, newAfter,
      hindexed.chains_eq, hpage.chains_eq, hshares⟩
    · rw [hmade.size_eq, List.length_map]
    · rw [hmade.find?_new, List.getElem?_map]
    · exact hmade.find?_old hid
    · have hmatch := hgreedy.here_of_mem k hk
      refine ⟨Greedy.add_length_le hword.1 hmatch, ?_⟩
      rw [hsound.substring_of_isPrefix hword.1 hmatch, hsettled.1]
      exact hword.2
    · rw [hl]
      rfl

/-- Two raw bytes among five, behind a character whose form ends with the same byte. -/
theorem markMatches_run_raw :
    let cs : List Int := [0xE9, 0x3FFFA9, 0x3FFFA9, 0x3FFFA9, 0x3FFFA9, 0x3FFFA9]
    let text : Bytes := [0xC3, 0xA9, 0xA9, 0xA9, 0xA9, 0xA9, 0xA9]
    let v := [.load text].foldl (step {}) (start 3 10 true)
    let marked := (v.markMatches [0xA9, 0xA9]).value
    Along (step {}) Allowed (start 3 10 true) [.load text] ∧ v.buffer.chars = cs ∧ marked.2 = 2 ∧
      (marked.1.page.arena.find? 0).map Overlay.loose = some (marking true cs 1 3) ∧
      (marked.1.page.arena.find? 1).map Overlay.loose = some (marking true cs 3 5) := by
  intro cs text v marked
  have hks : Along (step {}) Allowed (start 3 10 true) [.load text] :=
    along_allowed (by decide) _
  have hchars : v.buffer.chars = cs := by
    obtain ⟨_, hvalue, -, -, hrep⟩ := (sane_start 3 10 true).exists_loadBytes text
    show ((start 3 10 true).loadBytes text).value.buffer.chars = cs
    rw [hvalue]
    exact hrep.sound.chars_eq.trans (by decide +kernel)
  have hword : decodeText true (v.buffer.internalForm [0xA9, 0xA9]) = [0x3FFFA9, 0x3FFFA9] := by
    unfold Buffer.internalForm
    rw [show v.buffer.multibyte = true from (sane_run _ hks).page.settled.1]
    decide +kernel
  have hsize : v.page.arena.size = 0 := by decide +kernel
  obtain ⟨-, found, page, hgreedy, hvalue, ⟨-, hnew, -⟩, -⟩ :=
    (markMatches_run 3 10 true {} _ hks [0xA9, 0xA9]).2 (by decide)
  change Greedy (decodeText true (v.buffer.internalForm [0xA9, 0xA9])) v.buffer.chars 0 found
    at hgreedy
  change ∀ i : Nat, (page.arena.find? (v.page.arena.size + i : Nat)).map Overlay.loose =
    found[i]?.map fun k => marking true v.buffer.chars k
      (k + (decodeText true (v.buffer.internalForm [0xA9, 0xA9])).length) at hnew
  rw [hword, hchars] at hgreedy
  rw [hword, hchars, hsize] at hnew
  have hfound : found = [1, 3] := hgreedy.unique (.of_succ (by decide) (.here (by decide)
    (.here (by decide) (.of_short (by decide) (by decide)))))
  subst hfound
  have hmarked : marked = ({ v with page }, 2) := hvalue
  rw [hmarked]
  exact ⟨hks, hchars, rfl, hnew 0, hnew 1⟩

end Viewer

end GapText
