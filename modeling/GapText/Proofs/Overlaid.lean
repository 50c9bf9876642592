import GapText.Overlay.Overlaid
import GapText.Proofs.Chain

/-!
# A buffer and its two chains

The overlays of a buffer are those records of its arena whose first marker points into it. They are
hung on the buffer's two chains, each of them once: the ones that end before the center on the first
chain, all others on the second (`Holds`). Every operation on a buffer seen with its arena leads
from one such pair of lists to another (`Indexed`), and touches no overlay of another buffer
(`Touches`).
-/

namespace GapText

/-! ## Records -/

/-- A record is either attached to one buffer, its start not behind its end, or nowhere at all. -/
structure Overlay.Proper (r : Overlay) : Prop where
  attached : ∀ b, r.start.buffer = some b →
    r.stop.buffer = some b ∧ r.start.place.char ≤ r.stop.place.char
  detached : r.start.buffer = none → r.start = .nowhere ∧ r.stop = .nowhere ∧ r.next = none

theorem Overlay.proper_detached (r : Overlay) : r.detached.Proper := by
  refine ⟨?_, fun _ => ⟨rfl, rfl, rfl⟩⟩
  rintro b ⟨⟩

/-- An overlay, its properties aside. -/
def Overlay.bare (r : Overlay) : Overlay := { r with props := [] }

namespace Arena

variable {a a' a'' : Arena} {b : BufferId} {ids ids' before after : List Int} {id : Int}
  {l : Chains} {r : Overlay}

theorem find?_push (a : Arena) (r : Overlay) (id : Int) :
    (a.push r).find? id = if id = a.size then some r else a.find? id := by
  unfold find? push size
  by_cases h : 0 ≤ id
  · have heq : id.toNat = a.records.size ↔ id = a.records.size := by omega
    simp only [if_pos h, Array.getElem?_push, heq]
  · have hne : ¬ id = a.records.size := by omega
    simp only [if_neg h, if_neg hne]

theorem stopChar_of_find? (h : a.find? id = some r) : a.stopChar id = r.stop.place.char := by
  unfold stopChar
  rw [h]
  rfl

theorem stopChar_congr (h : a'.find? id = a.find? id) : a'.stopChar id = a.stopChar id := by
  unfold stopChar
  rw [h]

/-- All records of an arena are proper. -/
def Proper (a : Arena) : Prop := ∀ id r, a.find? id = some r → r.Proper

/-- These are the overlays of a buffer. -/
def OfBuffer (a : Arena) (b : BufferId) (ids : List Int) : Prop :=
  ∀ id, id ∈ ids ↔ ∃ r, a.find? id = some r ∧ r.start.buffer = some b

theorem ofBuffer_empty (b : BufferId) : ({} : Arena).OfBuffer b [] := by
  intro id
  refine iff_of_false List.not_mem_nil ?_
  rintro ⟨r, hr, -⟩
  have hlt := lt_size_of_find? hr
  exact Int.not_lt.mpr hlt.1 hlt.2

/-- The overlay of this number, its properties aside, if it is one of the buffer's. -/
def own? (a : Arena) (b : BufferId) (id : Int) : Option Overlay :=
  ((a.find? id).filter fun r => r.start.buffer = some b).map Overlay.bare

theorem own?_of_find? (h : a.find? id = some r) (hb : r.start.buffer = some b) :
    a.own? b id = some r.bare := by
  unfold own?
  rw [h, Option.filter_some, if_pos (decide_eq_true hb)]
  rfl

theorem own?_eq_none (h : ∀ r, a.find? id = some r → r.start.buffer ≠ some b) :
    a.own? b id = none := by
  unfold own?
  cases hr : a.find? id with
  | none => rfl
  | some r =>
      rw [Option.filter_some, if_neg (mt of_decide_eq_true (h r hr))]
      rfl

/-- The overlays of a buffer are the same in two arenas, their properties aside. -/
def SameFor (b : BufferId) (a a' : Arena) : Prop := ∀ id, a'.own? b id = a.own? b id

theorem SameFor.refl (b : BufferId) (a : Arena) : SameFor b a a := fun _ => rfl

theorem SameFor.symm (h : SameFor b a a') : SameFor b a' a := fun id => (h id).symm

theorem SameFor.trans (h : SameFor b a a') (h' : SameFor b a' a'') : SameFor b a a'' :=
  fun id => (h' id).trans (h id)

theorem own?_congr (h : a'.find? id = a.find? id) : a'.own? b id = a.own? b id := by
  unfold own?
  rw [h]

theorem SameFor.find? (h : SameFor b a a') (hr : a.find? id = some r)
    (hb : r.start.buffer = some b) :
    ∃ r', a'.find? id = some r' ∧ r'.start.buffer = some b ∧ r'.bare = r.bare := by
  have hown := (h id).trans (own?_of_find? hr hb)
  obtain ⟨r', hfilter, hbare⟩ := Option.map_eq_some_iff.mp hown
  obtain ⟨hr', hb'⟩ := Option.filter_eq_some_iff.mp hfilter
  exact ⟨r', hr', of_decide_eq_true hb', hbare⟩

/-- The overlays of one buffer are none of another. -/
theorem OfBuffer.own?_eq_none {b' : BufferId} (h : a.OfBuffer b ids) (hid : id ∈ ids)
    (hb : b' ≠ b) : a.own? b' id = none := by
  refine Arena.own?_eq_none fun r hr hb' => ?_
  obtain ⟨r₁, hr₁, hself⟩ := (h id).mp hid
  cases hr.symm.trans hr₁
  exact hb (Option.some.inj (hb'.symm.trans hself))

theorem OfBuffer.of_sameFor (h : a.OfBuffer b ids) (hsame : SameFor b a a') :
    a'.OfBuffer b ids := by
  intro id
  rw [h id]
  constructor
  · rintro ⟨r, hr, hb⟩
    obtain ⟨r', hr', hb', -⟩ := hsame.find? hr hb
    exact ⟨r', hr', hb'⟩
  · rintro ⟨r, hr, hb⟩
    obtain ⟨r', hr', hb', -⟩ := hsame.symm.find? hr hb
    exact ⟨r', hr', hb'⟩

/-- What is done to one buffer's overlays: those of all other buffers stay as they are, and proper
records stay proper. -/
structure Touches (b : BufferId) (a a' : Arena) : Prop where
  others : ∀ b', b' ≠ b → SameFor b' a a'
  proper : a.Proper → a'.Proper

theorem Touches.trans (h : Touches b a a') (h' : Touches b a' a'') :
    Touches b a a'' where
  others := fun b' hb => (h.others b' hb).trans (h'.others b' hb)
  proper := fun hp => h'.proper (h.proper hp)

/-! ## The three things that happen to records -/

theorem touches_push (hself : r.start.buffer = some b) (hproper : r.Proper) :
    Touches b a (a.push r) where
  others := by
    intro b' hb id
    by_cases hid : id = a.size
    · subst hid
      rw [own?_eq_none, own?_eq_none]
      · intro r' hr'
        have hlt := lt_size_of_find? hr'
        omega
      · intro r' hr' hb'
        rw [find?_push, if_pos rfl] at hr'
        cases hr'
        exact hb (Option.some.inj (hb'.symm.trans hself))
    · exact own?_congr (by rw [find?_push, if_neg hid])
  proper := by
    intro hp id r' hr'
    rw [find?_push] at hr'
    split at hr'
    · cases hr'
      exact hproper
    · exact hp id r' hr'

/-- A new record is on no chain that was there. -/
theorem Leads.push {l : Option Int} (h : a.Leads l ids) (r : Overlay) : (a.push r).Leads l ids := by
  refine h.congr fun id hid => ?_
  obtain ⟨r', hr'⟩ := h.find? hid
  have hlt := lt_size_of_find? hr'
  rw [find?_push, if_neg (by omega)]

theorem find?_push_of_mem (h : a.OfBuffer b ids) (hid : id ∈ ids) (r : Overlay) :
    (a.push r).find? id = a.find? id := by
  obtain ⟨r', hr', -⟩ := (h id).mp hid
  have hlt := lt_size_of_find? hr'
  rw [find?_push, if_neg (by omega)]

/-- The number that the next record gets is not in use. -/
theorem size_not_mem (h : a.OfBuffer b ids) : (a.size : Int) ∉ ids := by
  intro hmem
  obtain ⟨r, hr, -⟩ := (h _).mp hmem
  have hlt := lt_size_of_find? hr
  omega

theorem ofBuffer_push (h : a.OfBuffer b ids) (hself : r.start.buffer = some b) :
    (a.push r).OfBuffer b (ids ++ [(a.size : Int)]) := by
  intro id
  rw [find?_push, List.mem_append, List.mem_singleton, h id]
  constructor
  · rintro (⟨r', hr', hb⟩ | rfl)
    · have hlt := lt_size_of_find? hr'
      exact ⟨r', by rwa [if_neg (by omega)], hb⟩
    · exact ⟨r, if_pos rfl, hself⟩
  · rintro ⟨r', hr', hb⟩
    split at hr'
    · rename_i hid
      exact Or.inr hid
    · exact Or.inl ⟨r', hr', hb⟩

theorem Rechained.ofBuffer (h : Rechained ids' a a') (hids : a.OfBuffer b ids) :
    a'.OfBuffer b ids := by
  intro id
  rw [hids id]
  constructor
  · rintro ⟨r, hr, hb⟩
    obtain ⟨r', hr', hloose⟩ := h.find? hr
    exact ⟨r', hr', (congrArg (·.start.buffer) hloose).trans hb⟩
  · rintro ⟨r', hr', hb⟩
    obtain ⟨r, hr, hloose⟩ := h.symm.find? hr'
    exact ⟨r, hr, (congrArg (·.start.buffer) hloose).trans hb⟩

/-- Hanging a buffer's overlays elsewhere touches no others. -/
theorem Rechained.touches (h : Rechained ids' a a') (hids : a.OfBuffer b ids)
    (hsub : ids' ⊆ ids) : Touches b a a' where
  others := by
    intro b' hb id
    by_cases hid : id ∈ ids'
    · rw [(h.ofBuffer hids).own?_eq_none (hsub hid) hb, hids.own?_eq_none (hsub hid) hb]
    · exact own?_congr (h.outside id hid)
  proper := by
    intro hp id r' hr'
    by_cases hid : id ∈ ids'
    · obtain ⟨r, hr, hloose⟩ := h.symm.find? hr'
      obtain ⟨r₁, hr₁, hself⟩ := (hids id).mp (hsub hid)
      cases hr.symm.trans hr₁
      have hstart : r'.start = r.start := congrArg (·.start) hloose.symm
      have hstop : r'.stop = r.stop := congrArg (·.stop) hloose.symm
      constructor
      · rw [hstart, hstop]
        exact (hp id r hr).attached
      · intro hnone
        rw [hstart, hself] at hnone
        cases hnone
    · rw [h.outside id hid] at hr'
      exact hp id r' hr'

theorem OfBuffer.detachAll (h : a.OfBuffer b ids) (ids' : List Int) :
    (a.detachAll ids').OfBuffer b (ids.filter (· ∉ ids')) := by
  intro id
  rw [find?_detachAll, List.mem_filter, decide_eq_true_eq, h id]
  constructor
  · rintro ⟨⟨r, hr, hb⟩, hnot⟩
    exact ⟨r, by rwa [if_neg hnot], hb⟩
  · rintro ⟨r, hr, hb⟩
    split at hr
    · obtain ⟨r₀, -, rfl⟩ := Option.map_eq_some_iff.mp hr
      cases hb
    · rename_i hnot
      exact ⟨⟨r, hr, hb⟩, hnot⟩

/-- A chain on which none of the detached overlays hangs is the same. -/
theorem Leads.detachAll {link : Option Int} (h : a.Leads link ids)
    (hdisjoint : ∀ id ∈ ids, id ∉ ids') : (a.detachAll ids').Leads link ids :=
  h.congr fun id hid => by rw [find?_detachAll, if_neg (hdisjoint id hid)]

theorem OfBuffer.touches_detachAll (h : a.OfBuffer b ids) (hsub : ids' ⊆ ids) :
    Touches b a (a.detachAll ids') where
  others := by
    intro b' hb id
    by_cases hid : id ∈ ids'
    · rw [h.own?_eq_none (hsub hid) hb]
      refine Arena.own?_eq_none fun r hr hb' => ?_
      rw [find?_detachAll, if_pos hid] at hr
      obtain ⟨r₀, -, rfl⟩ := Option.map_eq_some_iff.mp hr
      cases hb'
    · exact own?_congr (by rw [find?_detachAll, if_neg hid])
  proper := by
    intro hp id r hr
    rw [find?_detachAll] at hr
    split at hr
    · obtain ⟨r₀, -, rfl⟩ := Option.map_eq_some_iff.mp hr
      exact r₀.proper_detached
    · exact hp id r hr

/-! ## Properties and empty arenas -/

theorem sameFor_putProperty (a : Arena) (b : BufferId) (id : Int) (name value : Bytes) :
    SameFor b a (a.putProperty id name value).state := by
  unfold putProperty
  cases a.get id with
  | error f => exact .refl b a
  | ok o =>
      intro id'
      show (a.modify id fun o' => { o' with props := o.props.put name value }).own? b id' = _
      unfold own?
      rw [find?_modify]
      split
      · cases a.find? id' with
        | none => rfl
        | some r =>
            rw [Option.map_some, Option.filter_some, Option.filter_some]
            split <;> rfl
      · rfl

theorem Proper.putProperty (h : a.Proper) (id : Int) (name value : Bytes) :
    (a.putProperty id name value).state.Proper := by
  unfold Arena.putProperty
  cases a.get id with
  | error f => exact h
  | ok o =>
      intro id' r hr
      replace hr : (a.modify id fun o' => { o' with props := o.props.put name value }).find? id' =
        some r := hr
      rw [find?_modify] at hr
      split at hr
      · obtain ⟨r₀, hr₀, rfl⟩ := Option.map_eq_some_iff.mp hr
        exact ⟨(h id' r₀ hr₀).attached, (h id' r₀ hr₀).detached⟩
      · exact h id' r hr

theorem proper_empty : ({} : Arena).Proper := by
  intro id r hr
  have hlt := lt_size_of_find? hr
  exact absurd hlt.2 (Int.not_lt.mpr hlt.1)

theorem reclaim_state (a : Arena) :
    a.reclaim.state = a ∨
      a.reclaim.state = {} ∧ ∀ id r, a.find? id = some r → r.start.buffer = none := by
  unfold reclaim
  split
  · exact Or.inl rfl
  · rename_i hany
    refine Or.inr ⟨rfl, fun id r hr => ?_⟩
    have hmem : r ∈ a.records := by
      unfold find? at hr
      split at hr
      · exact Array.mem_of_getElem? hr
      · cases hr
    by_contra hattached
    refine hany (Array.any_eq_true'.mpr ⟨r, hmem, ?_⟩)
    exact Option.isSome_iff_ne_none.mpr hattached

theorem sameFor_reclaim (a : Arena) (b : BufferId) : SameFor b a a.reclaim.state := by
  rcases a.reclaim_state with hstate | ⟨hstate, hnone⟩
  · rw [hstate]
    exact .refl b a
  · rw [hstate]
    intro id
    rw [own?_eq_none, own?_eq_none]
    · intro r hr hb
      cases (hnone id r hr).symm.trans hb
    · intro r hr hb
      exact absurd ((ofBuffer_empty b id).mpr ⟨r, hr, hb⟩) List.not_mem_nil

theorem Proper.reclaim (h : a.Proper) : a.reclaim.state.Proper := by
  rcases a.reclaim_state with hstate | ⟨hstate, -⟩
  · rwa [hstate]
  · rw [hstate]
    exact proper_empty

/-! ## The two chains -/

/-- The chains of a buffer hold its overlays, on both sides of the center. -/
structure Holds (a : Arena) (b : BufferId) (l : Chains) (before after : List Int) : Prop where
  before_leads : a.Leads l.before before
  after_leads : a.Leads l.after after
  ofBuffer : a.OfBuffer b (before ++ after)
  before_lt : ∀ id ∈ before, a.stopChar id < l.center
  after_ge : ∀ id ∈ after, l.center ≤ a.stopChar id

/-- Nothing hangs on the chains of a buffer without overlays. -/
theorem holds_nil (hbefore : l.before = none) (hafter : l.after = none) (hof : a.OfBuffer b []) :
    a.Holds b l [] [] where
  before_leads := hbefore ▸ .stop
  after_leads := hafter ▸ .stop
  ofBuffer := hof
  before_lt := fun _ hid => absurd hid List.not_mem_nil
  after_ge := fun _ hid => absurd hid List.not_mem_nil

/-- No overlay hangs on both chains, since it cannot end on both sides of the center. -/
theorem Holds.nodup (h : a.Holds b l before after) : (before ++ after).Nodup := by
  refine List.nodup_append.mpr ⟨h.before_leads.nodup, h.after_leads.nodup, ?_⟩
  rintro i hi j hj rfl
  have hlt := h.before_lt i hi
  have hge := h.after_ge i hj
  omega

theorem Holds.disjoint (h : a.Holds b l before after) : ∀ id ∈ before, id ∉ after :=
  fun id hid hid' => (List.nodup_append.mp h.nodup).2.2 id hid id hid' rfl

theorem Holds.of_sameFor (h : a.Holds b l before after) (hsame : SameFor b a a') :
    a'.Holds b l before after := by
  have hbare : ∀ id ∈ before ++ after, ∃ r r', a.find? id = some r ∧ a'.find? id = some r' ∧
      r'.bare = r.bare := by
    intro id hid
    obtain ⟨r, hr, hb⟩ := (h.ofBuffer id).mp hid
    obtain ⟨r', hr', -, hbare⟩ := hsame.find? hr hb
    exact ⟨r, r', hr, hr', hbare⟩
  have hnext : ∀ id ∈ before ++ after, (a'.find? id).map (·.next) = (a.find? id).map (·.next) := by
    intro id hid
    obtain ⟨r, r', hr, hr', hbare⟩ := hbare id hid
    rw [hr, hr']
    exact congrArg (fun r => some r.next) hbare
  have hstop : ∀ id ∈ before ++ after, a'.stopChar id = a.stopChar id := by
    intro id hid
    obtain ⟨r, r', hr, hr', hbare⟩ := hbare id hid
    rw [stopChar_of_find? hr, stopChar_of_find? hr']
    exact congrArg (·.stop.place.char) hbare
  constructor
  · exact h.before_leads.congr fun id hid => hnext id (List.mem_append_left _ hid)
  · exact h.after_leads.congr fun id hid => hnext id (List.mem_append_right _ hid)
  · exact h.ofBuffer.of_sameFor hsame
  · intro id hid
    rw [hstop id (List.mem_append_left _ hid)]
    exact h.before_lt id hid
  · intro id hid
    rw [hstop id (List.mem_append_right _ hid)]
    exact h.after_ge id hid

end Arena

/-! ## Operations -/

namespace Overlaid

variable {o : Overlaid} {b : BufferId} {home : ArenaId} {before after : List Int} {id p q : Int}
  {r : Overlay}

/-- A buffer and its arena, with what hangs on the two chains. A buffer that is not bound to an
arena has no overlays. -/
structure Indexed (b : BufferId) (home : ArenaId) (o : Overlaid) (before after : List Int) :
    Prop where
  holds : o.arena.Holds b o.buffer.overlays before after
  bound : o.buffer.overlays.arena = some home ∨
    o.buffer.overlays.arena = none ∧ before = [] ∧ after = []

/-- Only the chains of the buffer count. -/
theorem Indexed.setBuffer (h : Indexed b home o before after) {buf : Buffer}
    (hchains : buf.overlays = o.buffer.overlays) :
    Indexed b home { o with buffer := buf } before after := by
  obtain ⟨hholds, hbound⟩ := h
  rw [← hchains] at hholds hbound
  exact ⟨hholds, hbound⟩

theorem Indexed.chains_eq (h : Indexed b home o before after) :
    o.chains = .ok (before, after) := by
  unfold chains Arena.chains
  rw [h.holds.before_leads.chain_eq, h.holds.after_leads.chain_eq]
  rfl

/-! ### Making -/

/-- Linking an overlay changes nothing of the buffer but its chains. -/
theorem buffer_link (o : Overlaid) (id : Int) :
    ∃ l, (o.link id).state.buffer = { o.buffer with overlays := l } := by
  unfold link
  split
  · exact ⟨_, rfl⟩
  · dsimp only
    split
    · unfold Outcome.andThen
      split <;> exact ⟨_, rfl⟩
    · unfold Outcome.andThen
      split <;> exact ⟨_, rfl⟩

theorem buffer_make (o : Overlaid) (b : BufferId) (home : ArenaId) (p q : Int)
    (props : Properties) :
    ∃ l, (o.make b home p q props).state.buffer = { o.buffer with overlays := l } := by
  unfold make
  split
  · exact ⟨_, rfl⟩
  · dsimp only
    unfold Outcome.andThen
    split <;> exact buffer_link _ _

/-- The marker that an overlay of this buffer gets at a place. -/
def markAt (o : Overlaid) (b : BufferId) (c : Int) : Marker :=
  .inBuffer b o.buffer.last (o.buffer.position (clampChar o.buffer c))

theorem char_markAt (o : Overlaid) (b : BufferId) (c : Int) :
    (o.markAt b c).place.char =
      if min (max c 1) o.buffer.endChar < 1 then min 1 o.buffer.endChar
      else min (max c 1) o.buffer.endChar := by
  show (Position.clip _ o.buffer.last).char = _
  have hlast : o.buffer.last.char = o.buffer.endChar := rfl
  have hchar : (o.buffer.position (clampChar o.buffer c)).char =
      min (max c 1) o.buffer.endChar := rfl
  have hfirst : Position.first.char = 1 := rfl
  unfold Position.clip
  dsimp only
  split <;> split <;> omega

theorem char_markAt_mono (o : Overlaid) (b : BufferId) {c d : Int} (h : c ≤ d) :
    (o.markAt b c).place.char ≤ (o.markAt b d).place.char := by
  rw [char_markAt, char_markAt]
  split <;> split <;> omega

/-- Both lists after an overlay was hung at the end of the chain on its side of the center. -/
def placed (center : Int) (r : Overlay) (id : Int) (before after : List Int) :
    List Int × List Int :=
  if r.stop.place.char < center then (before ++ [id], after) else (before, after ++ [id])

theorem mem_placed {center i : Int} :
    i ∈ (placed center r id before after).1 ++ (placed center r id before after).2 ↔
      i ∈ before ++ after ++ [id] := by
  unfold placed
  split <;> simp only [List.mem_append] <;> tauto

/-- Everything is on its side of the center then. -/
theorem placed_sides {center : Int} {stop : Int → Int} (hbefore : ∀ i ∈ before, stop i < center)
    (hafter : ∀ i ∈ after, center ≤ stop i) (hid : stop id = r.stop.place.char) :
    (∀ i ∈ (placed center r id before after).1, stop i < center) ∧
      ∀ i ∈ (placed center r id before after).2, center ≤ stop i := by
  unfold placed
  split
  · refine ⟨fun i hi => ?_, hafter⟩
    rcases List.mem_append.mp hi with hi | hi
    · exact hbefore i hi
    · rwa [List.mem_singleton.mp hi, hid]
  · refine ⟨hbefore, fun i hi => ?_⟩
    rcases List.mem_append.mp hi with hi | hi
    · exact hafter i hi
    · rw [List.mem_singleton.mp hi, hid]
      exact Int.not_lt.mp ‹_›

/-- An overlay that hangs nowhere is hung on its side of the center. -/
theorem exists_link (hb : o.arena.Leads o.buffer.overlays.before before)
    (ha : o.arena.Leads o.buffer.overlays.after after) (hnodup : (before ++ after).Nodup)
    (hr : o.arena.find? id = some r) (hid : id ∉ before ++ after) :
    ∃ a l, (o.link id).state = { arena := a, buffer := { o.buffer with overlays := l } } ∧
      (o.link id).result = .ok () ∧
      l.center = o.buffer.overlays.center ∧ l.arena = o.buffer.overlays.arena ∧
      a.Leads l.before (placed l.center r id before after).1 ∧
      a.Leads l.after (placed l.center r id before after).2 ∧
      Arena.Rechained (before ++ after ++ [id]) o.arena a := by
  have hdisjoint := (List.nodup_append.mp hnodup).2.2
  rw [List.mem_append, not_or] at hid
  unfold link placed
  rw [Arena.get_of_find? hr]
  dsimp only
  split
  · obtain ⟨a, head, happend, hleads, hsame⟩ := hb.append hr hid.1
    rw [happend]
    refine ⟨a, { o.buffer.overlays with before := head }, rfl, rfl, rfl, rfl, ?_, ?_, ?_⟩
    · rwa [if_pos ‹_›]
    · rw [if_pos ‹_›]
      refine hsame.leads ha fun i hi hmem => ?_
      rcases List.mem_append.mp hmem with hmem | hmem
      · exact hdisjoint i hmem i hi rfl
      · exact hid.2 (List.mem_singleton.mp hmem ▸ hi)
    · refine hsame.mono fun i hi => ?_
      simp only [List.mem_append] at hi ⊢
      tauto
  · obtain ⟨a, head, happend, hleads, hsame⟩ := ha.append hr hid.2
    rw [happend]
    refine ⟨a, { o.buffer.overlays with after := head }, rfl, rfl, rfl, rfl, ?_, ?_, ?_⟩
    · rw [if_neg ‹_›]
      refine hsame.leads hb fun i hi hmem => ?_
      rcases List.mem_append.mp hmem with hmem | hmem
      · exact hdisjoint i hi i hmem rfl
      · exact hid.1 (List.mem_singleton.mp hmem ▸ hi)
    · rwa [if_neg ‹_›]
    · refine hsame.mono fun i hi => ?_
      simp only [List.mem_append] at hi ⊢
      tauto

/-- The record of an overlay that is made between two places. -/
def fresh (o : Overlaid) (b : BufferId) (p q : Int) (props : Properties) : Overlay :=
  { start := o.markAt b (min p q), stop := o.markAt b (max p q), props }

theorem proper_fresh (o : Overlaid) (b : BufferId) (p q : Int) (props : Properties) :
    (o.fresh b p q props).Proper where
  attached := by
    intro b' hb'
    exact ⟨hb', char_markAt_mono o b (by omega)⟩
  detached := by
    rintro ⟨⟩

/-- The buffer bound to the arena, with a record put at the end of it. -/
def pushed (o : Overlaid) (home : ArenaId) (r : Overlay) : Overlaid where
  arena := o.arena.push r
  buffer := { o.buffer with overlays := { o.buffer.overlays with arena := some home } }

theorem make_of_bound (h : o.buffer.overlays.arena = some home ∨ o.buffer.overlays.arena = none)
    (p q : Int) (props : Properties) :
    o.make b home p q props =
      ((o.pushed home (o.fresh b p q props)).link o.arena.size).andThen fun o' _ =>
        .done o' (o.arena.size : Int) := by
  have hany : (o.buffer.overlays.arena.any (· != home)) = false := by
    rcases h with h | h
    · rw [h]
      exact bne_self_eq_false home
    · rw [h]
      rfl
  unfold make
  rw [hany]
  rfl

/-- A new record goes to the end of the arena and is hung; what hung before stays where it was. -/
theorem Indexed.exists_make (h : Indexed b home o before after) (p q : Int) (props : Properties) :
    let r := o.fresh b p q props
    let lists := placed o.buffer.overlays.center r o.arena.size before after
    ∃ a l, (o.make b home p q props).state =
        { arena := a, buffer := { o.buffer with overlays := l } } ∧
      (o.make b home p q props).result = .ok (o.arena.size : Int) ∧
      l.center = o.buffer.overlays.center ∧ l.arena = some home ∧
      a.Leads l.before lists.1 ∧ a.Leads l.after lists.2 ∧
      Arena.Rechained (before ++ after ++ [(o.arena.size : Int)]) (o.arena.push r) a := by
  intro r lists
  have hof := h.holds.ofBuffer
  have hnew : (o.arena.push r).find? o.arena.size = some r := by
    rw [Arena.find?_push, if_pos rfl]
  obtain ⟨a, l, hstate, hresult, hcenter, harena, hbefore, hafter, hsame⟩ :=
    exists_link (o := o.pushed home r) (h.holds.before_leads.push r) (h.holds.after_leads.push r)
      h.holds.nodup hnew (Arena.size_not_mem hof)
  change l.center = o.buffer.overlays.center at hcenter
  rw [hcenter] at hbefore hafter
  rw [make_of_bound (h.bound.imp_right And.left)]
  unfold Outcome.andThen
  rw [hresult]
  exact ⟨a, l, hstate, rfl, hcenter, harena, hbefore, hafter, hsame⟩

/-- **Making an overlay** puts it at the end of the chain on its side of the center. -/
theorem Indexed.make (h : Indexed b home o before after) (p q : Int) (props : Properties) :
    let lists := placed o.buffer.overlays.center (o.fresh b p q props) o.arena.size before after
    (o.make b home p q props).result = .ok (o.arena.size : Int) ∧
      Indexed b home (o.make b home p q props).state lists.1 lists.2 ∧
      Arena.Touches b o.arena (o.make b home p q props).state.arena := by
  intro lists
  have hof := h.holds.ofBuffer
  have hof' := Arena.ofBuffer_push hof (r := o.fresh b p q props) rfl
  obtain ⟨a, l, hstate, hresult, hcenter, harena, hbefore, hafter, hsame⟩ :=
    h.exists_make p q props
  -- the bounds that count are those of the records before anything was hung
  have hstop : ∀ id ∈ before ++ after, a.stopChar id = o.arena.stopChar id := fun id hid =>
    (hsame.stopChar_eq id).trans (Arena.stopChar_congr (Arena.find?_push_of_mem hof hid _))
  have hsides : (∀ i ∈ lists.1, a.stopChar i < o.buffer.overlays.center) ∧
      ∀ i ∈ lists.2, o.buffer.overlays.center ≤ a.stopChar i := by
    refine placed_sides (fun i hi => ?_) (fun i hi => ?_) ?_
    · rw [hstop i (List.mem_append_left _ hi)]
      exact h.holds.before_lt i hi
    · rw [hstop i (List.mem_append_right _ hi)]
      exact h.holds.after_ge i hi
    · refine (hsame.stopChar_eq _).trans (Arena.stopChar_of_find? ?_)
      rw [Arena.find?_push, if_pos rfl]
  rw [hstate]
  refine ⟨hresult, ⟨⟨hbefore, hafter, ?_, ?_, ?_⟩, Or.inl harena⟩, ?_⟩
  · intro id
    rw [mem_placed]
    exact hsame.ofBuffer hof' id
  · exact hcenter.symm ▸ hsides.1
  · exact hcenter.symm ▸ hsides.2
  · exact (Arena.touches_push rfl (proper_fresh o b p q props)).trans
      (hsame.touches hof' (List.Subset.refl _))

theorem make_of_foreign {a : ArenaId} (h : o.buffer.overlays.arena = some a) (hne : a ≠ home)
    (p q : Int) (props : Properties) : o.make b home p q props = .stop o .foreignArena := by
  have hany : (o.buffer.overlays.arena.any (· != home)) = true := by
    rw [h]
    exact bne_iff_ne.mpr hne
  unfold make
  rw [if_pos hany]

/-! ### Deleting -/

theorem erase_append_cons {pre post : List Int} (h : id ∉ pre) :
    (pre ++ id :: post).erase id = pre ++ post := by
  rw [List.erase_append_right _ h, List.erase_cons_head]

/-- An overlay is taken off the chain on which it hangs, and then detached. -/
theorem exists_unlink (hb : o.arena.Leads o.buffer.overlays.before before)
    (ha : o.arena.Leads o.buffer.overlays.after after) (hnodup : (before ++ after).Nodup)
    (hid : id ∈ before ++ after) :
    ∃ a l, (o.unlink id).state = { arena := a.detachAll [id], buffer :=
        { o.buffer with overlays := l, redrawAll :=
          o.buffer.redrawAll || (a.find? id).any fun r => spreads r.props } } ∧
      (o.unlink id).result = .ok () ∧
      l.center = o.buffer.overlays.center ∧ l.arena = o.buffer.overlays.arena ∧
      a.Leads l.before (before.erase id) ∧ a.Leads l.after (after.erase id) ∧
      Arena.Rechained (before ++ after) o.arena a := by
  have hdisjoint := (List.nodup_append.mp hnodup).2.2
  unfold unlink
  dsimp only
  rcases List.mem_append.mp hid with hid | hid
  · obtain ⟨pre, post, rfl⟩ := List.append_of_mem hid
    obtain ⟨a, head, hunchain, hleads, hsame⟩ := hb.unchain
    have hafter : id ∉ after := fun hmem => hdisjoint id hid id hmem rfl
    rw [hunchain]
    refine ⟨a, { o.buffer.overlays with before := head }, rfl, rfl, rfl, rfl, ?_, ?_, ?_⟩
    · rwa [erase_append_cons hb.not_mem_front]
    · rw [List.erase_of_not_mem hafter]
      exact hsame.leads ha fun i hi hmem => hdisjoint i hmem i hi rfl
    · exact hsame.mono (List.subset_append_left _ _)
  · obtain ⟨pre, post, rfl⟩ := List.append_of_mem hid
    obtain ⟨a, head, hunchain, hleads, hsame⟩ := ha.unchain
    have hbefore : id ∉ before := fun hmem => hdisjoint id hmem id hid rfl
    rw [hb.unchain_eq_none hbefore, hunchain]
    refine ⟨a, { o.buffer.overlays with after := head }, rfl, rfl, rfl, rfl, ?_, ?_, ?_⟩
    · rw [List.erase_of_not_mem hbefore]
      exact hsame.leads hb fun i hi hmem => hdisjoint i hi i hmem rfl
    · rwa [erase_append_cons ha.not_mem_front]
    · exact hsame.mono (List.subset_append_right _ _)

/-- **Deleting an overlay** takes it off its chain. -/
theorem Indexed.unlink (h : Indexed b home o before after) (hid : id ∈ before ++ after) :
    (o.unlink id).result = .ok () ∧
      Indexed b home (o.unlink id).state (before.erase id) (after.erase id) ∧
      Arena.Touches b o.arena (o.unlink id).state.arena := by
  obtain ⟨a, l, hstate, hresult, hcenter, harena, hbefore, hafter, hsame⟩ :=
    exists_unlink h.holds.before_leads h.holds.after_leads h.holds.nodup hid
  obtain ⟨hnodupB, hnodupA, -⟩ := List.nodup_append.mp h.holds.nodup
  have hof := hsame.ofBuffer h.holds.ofBuffer
  have hsub : [id] ⊆ before ++ after := fun i hi => List.mem_singleton.mp hi ▸ hid
  have hne : ∀ {ids : List Int}, ids.Nodup → ∀ i ∈ ids.erase id, i ∉ [id] := by
    intro ids hnodup i hi hmem
    exact ((hnodup.mem_erase_iff).mp hi).1 (List.mem_singleton.mp hmem)
  have hstop : ∀ {ids : List Int}, ids.Nodup → ∀ i ∈ ids.erase id,
      (a.detachAll [id]).stopChar i = o.arena.stopChar i := by
    intro ids hnodup i hi
    refine Eq.trans (Arena.stopChar_congr ?_) (hsame.stopChar_eq i)
    rw [Arena.find?_detachAll, if_neg (hne hnodup i hi)]
  rw [hstate]
  refine ⟨hresult, ⟨⟨?_, ?_, ?_, ?_, ?_⟩, ?_⟩, ?_⟩
  · exact hbefore.detachAll (hne hnodupB)
  · exact hafter.detachAll (hne hnodupA)
  · intro i
    rw [← hof.detachAll [id] i, List.mem_filter, List.mem_append, List.mem_append,
      hnodupB.mem_erase_iff, hnodupA.mem_erase_iff, decide_eq_true_eq, List.mem_singleton]
    tauto
  · intro i hi
    show (a.detachAll [id]).stopChar i < l.center
    rw [hstop hnodupB i hi, hcenter]
    exact h.holds.before_lt i (List.mem_of_mem_erase hi)
  · intro i hi
    show l.center ≤ (a.detachAll [id]).stopChar i
    rw [hstop hnodupA i hi, hcenter]
    exact h.holds.after_ge i (List.mem_of_mem_erase hi)
  · show l.arena = some home ∨ l.arena = none ∧ _
    rw [harena]
    rcases h.bound with hbound | ⟨hbound, rfl, rfl⟩
    · exact Or.inl hbound
    · exact Or.inr ⟨hbound, rfl, rfl⟩
  · exact (hsame.touches h.holds.ofBuffer (List.Subset.refl _)).trans (hof.touches_detachAll hsub)

/-- The buffer with these overlays detached and nothing on its chains. -/
def cleared (o : Overlaid) (before after : List Int) : Overlaid where
  arena := (o.arena.detachAll before).detachAll after
  buffer := { o.buffer with overlays :=
    { o.buffer.overlays with before := none, after := none, center := 1 } }

theorem clear_eq (h : o.arena.Holds b o.buffer.overlays before after) :
    ∃ events, o.clear = .done (o.cleared before after) () events := by
  have hafter : (o.arena.detachAll before).Leads o.buffer.overlays.after after :=
    h.after_leads.detachAll fun id hid hid' => h.disjoint id hid' hid
  unfold clear
  dsimp only
  rw [h.before_leads.detachChain_eq]
  dsimp only [Outcome.done, Outcome.within, Outcome.andThen, withChains]
  rw [hafter.detachChain_eq]
  exact ⟨_, rfl⟩

/-- **Deleting all overlays** of a buffer leaves nothing on its chains. -/
theorem Indexed.clear (h : Indexed b home o before after) :
    o.clear.result = .ok () ∧ Indexed b home o.clear.state [] [] ∧
      Arena.Touches b o.arena o.clear.state.arena := by
  obtain ⟨events, hclear⟩ := clear_eq h.holds
  have hfirst := h.holds.ofBuffer.detachAll before
  have hmem : ∀ id, id ∈ (before ++ after).filter (· ∉ before) ↔ id ∈ after := by
    intro id
    rw [List.mem_filter, List.mem_append, decide_eq_true_eq]
    constructor
    · rintro ⟨hid | hid, hnot⟩
      · exact absurd hid hnot
      · exact hid
    · intro hid
      exact ⟨Or.inr hid, fun hid' => h.holds.disjoint id hid' hid⟩
  have hnone : (o.cleared before after).arena.OfBuffer b ([] ++ []) := by
    intro id
    refine Iff.trans ?_ (hfirst.detachAll after id)
    rw [List.mem_filter, hmem id, decide_eq_true_eq]
    exact iff_of_false List.not_mem_nil fun hid => hid.2 hid.1
  rw [hclear]
  refine ⟨rfl, ⟨Arena.holds_nil rfl rfl hnone, ?_⟩, ?_⟩
  · exact h.bound.imp_right fun hbound => ⟨hbound.1, rfl, rfl⟩
  · exact (h.holds.ofBuffer.touches_detachAll (List.subset_append_left before after)).trans
      (hfirst.touches_detachAll fun id hid => (hmem id).mpr hid)

/-! ### Recentering -/

/-- The overlays that end before a place, by falling end. -/
def ended (a : Arena) (p : Int) (ids : List Int) : List Int :=
  (ids.filter fun id => decide (a.stopChar id < p)).mergeSort
    fun i j => decide (a.stopChar j ≤ a.stopChar i)

/-- The overlays that do not end before a place, by rising start. -/
def others (a : Arena) (p : Int) (ids : List Int) : List Int :=
  (ids.filter fun id => !decide (a.stopChar id < p)).mergeSort
    fun i j => decide (a.startChar i ≤ a.startChar j)

/-- The buffer with its overlays dealt out to both sides of a place. -/
def dealt (o : Overlaid) (p : Int) (ids : List Int) : Overlaid where
  arena := (o.arena.relink (ended o.arena p ids)).relink (others o.arena p ids)
  buffer := { o.buffer with overlays :=
    { o.buffer.overlays with
      before := (ended o.arena p ids).head?
      after := (others o.arena p ids).head?
      center := p } }

theorem recenter_eq (hb : o.arena.Leads o.buffer.overlays.before before)
    (ha : o.arena.Leads o.buffer.overlays.after after) (p : Int) :
    ∃ events, o.recenter p = .done (o.dealt p (before ++ after)) () events := by
  unfold recenter
  dsimp only
  rw [hb.chain_eq, ha.chain_eq]
  dsimp only
  rw [List.partition_eq_filter_filter]
  exact ⟨_, rfl⟩

theorem mem_ended {a : Arena} {ids : List Int} :
    id ∈ ended a p ids ↔ id ∈ ids ∧ a.stopChar id < p := by
  unfold ended
  rw [(List.mergeSort_perm _ _).mem_iff, List.mem_filter, decide_eq_true_eq]

theorem mem_others {a : Arena} {ids : List Int} :
    id ∈ others a p ids ↔ id ∈ ids ∧ p ≤ a.stopChar id := by
  unfold others
  rw [(List.mergeSort_perm _ _).mem_iff, List.mem_filter, Bool.not_eq_true',
    decide_eq_false_iff_not, Int.not_lt]

theorem nodup_ended {a : Arena} {ids : List Int} (h : ids.Nodup) : (ended a p ids).Nodup :=
  (List.mergeSort_perm _ _).nodup_iff.mpr (h.filter _)

theorem nodup_others {a : Arena} {ids : List Int} (h : ids.Nodup) : (others a p ids).Nodup :=
  (List.mergeSort_perm _ _).nodup_iff.mpr (h.filter _)

theorem mem_ended_append_others {a : Arena} {ids : List Int} :
    id ∈ ended a p ids ++ others a p ids ↔ id ∈ ids := by
  rw [List.mem_append, mem_ended, mem_others, ← and_or_left, and_iff_left_iff_imp]
  intro _
  exact Int.lt_or_le _ _

theorem rechained_dealt (o : Overlaid) (p : Int) (ids : List Int) :
    Arena.Rechained ids o.arena (o.dealt p ids).arena := by
  have hended : ended o.arena p ids ⊆ ids := fun id hid => (mem_ended.mp hid).1
  have hothers : others o.arena p ids ⊆ ids := fun id hid => (mem_others.mp hid).1
  exact ((Arena.rechained_relink _ _).mono hended).trans
    ((Arena.rechained_relink _ _).mono hothers)

theorem Indexed.dealt (h : Indexed b home o before after) (p : Int) :
    Indexed b home (o.dealt p (before ++ after)) (ended o.arena p (before ++ after))
        (others o.arena p (before ++ after)) ∧
      Arena.Touches b o.arena (o.dealt p (before ++ after)).arena := by
  have hfind : ∀ id ∈ before ++ after, ∃ r, o.arena.find? id = some r := fun id hid =>
    ((h.holds.ofBuffer id).mp hid).imp fun _ => And.left
  have hsubE : ended o.arena p (before ++ after) ⊆ before ++ after := fun id hid =>
    (mem_ended.mp hid).1
  have hsubO : others o.arena p (before ++ after) ⊆ before ++ after := fun id hid =>
    (mem_others.mp hid).1
  have hfirst := Arena.rechained_relink o.arena (ended o.arena p (before ++ after))
  have hsecond := Arena.rechained_relink (o.arena.relink (ended o.arena p (before ++ after)))
    (others o.arena p (before ++ after))
  have hsame := rechained_dealt o p (before ++ after)
  have hended := Arena.leads_relink (nodup_ended (p := p) h.holds.nodup) fun id hid =>
    hfind id (hsubE hid)
  have hothers := Arena.leads_relink (a := o.arena.relink (ended o.arena p (before ++ after)))
    (nodup_others (a := o.arena) (p := p) h.holds.nodup) fun id hid => by
      obtain ⟨r, hr⟩ := hfind id (hsubO hid)
      exact (hfirst.find? hr).imp fun _ => And.left
  have hholds : (o.dealt p (before ++ after)).arena.Holds b
      (o.dealt p (before ++ after)).buffer.overlays (ended o.arena p (before ++ after))
      (others o.arena p (before ++ after)) := by
    refine ⟨?_, hothers, ?_, ?_, ?_⟩
    · -- making the second chain leaves the first one alone
      refine hsecond.leads hended fun id hid hid' => ?_
      have hlt := (mem_ended.mp hid).2
      have hge := (mem_others.mp hid').2
      omega
    · intro id
      rw [mem_ended_append_others]
      exact hsame.ofBuffer h.holds.ofBuffer id
    · intro id hid
      rw [hsame.stopChar_eq id]
      exact (mem_ended.mp hid).2
    · intro id hid
      rw [hsame.stopChar_eq id]
      exact (mem_others.mp hid).2
  refine ⟨⟨hholds, ?_⟩, hsame.touches h.holds.ofBuffer (List.Subset.refl _)⟩
  rcases h.bound with hbound | ⟨hbound, rfl, rfl⟩
  · exact Or.inl hbound
  · refine Or.inr ⟨hbound, ?_, ?_⟩
    · exact List.eq_nil_iff_forall_not_mem.mpr fun id hid => List.not_mem_nil (hsubE hid)
    · exact List.eq_nil_iff_forall_not_mem.mpr fun id hid => List.not_mem_nil (hsubO hid)

/-- **Recentering** deals the same overlays out to both chains again. -/
theorem Indexed.recenter (h : Indexed b home o before after) (p : Int) :
    (o.recenter p).result = .ok () ∧
      Indexed b home (o.recenter p).state (ended o.arena p (before ++ after))
        (others o.arena p (before ++ after)) ∧
      Arena.Touches b o.arena (o.recenter p).state.arena := by
  obtain ⟨events, hrecenter⟩ := recenter_eq h.holds.before_leads h.holds.after_leads p
  rw [hrecenter]
  exact ⟨rfl, h.dealt p⟩

end Overlaid

end GapText
