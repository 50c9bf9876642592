import GapText.Proofs.Boundaries
import GapText.Proofs.Index
import GapText.Viewer.Command

/-!
# Every viewer that can be reached

The point of a viewer is put where it is said to be, by moves that step over one character without a
look at the limits of the text. They can do so because at any time the point is a place of the
accessible part. That in turn is a matter of the text, which loads and edits change, and not of the
overlays, which keys make and delete; so the invariant has a part for the text and one for the
chains, and each kind of operation keeps one of them as it is.
-/

namespace GapText

/-! ## The text of a buffer -/

namespace Buffer

open Code

/-- The same text with the same places in it. -/
def SameText (b b' : Buffer) : Prop :=
  ∃ overlays flags redrawAll, b' = { b with overlays, flags, redrawAll }

variable {b b' : Buffer} {e : Editor}

theorem SameText.refl (b : Buffer) : SameText b b := ⟨_, _, _, rfl⟩

theorem SameText.represents (hsame : SameText b b') (h : Represents b e) : Represents b' e := by
  obtain ⟨_, _, _, rfl⟩ := hsame
  obtain ⟨⟨⟨hformed, hallowed, hcontents, hend⟩, hpoint, hlower, hupper, hgap, hle⟩, hp, hl, hu⟩ :=
    h
  exact ⟨⟨⟨hformed, hallowed, hcontents, hend⟩, hpoint, hlower, hupper, hgap, hle⟩, hp, hl, hu⟩

/-- A text with the point in its accessible part. -/
def Settled (m : Bool) (b : Buffer) : Prop :=
  b.multibyte = m ∧ ∃ e, b.Represents e ∧ e.Inside

variable {m : Bool}

theorem Settled.of_sameText (h : Settled m b) (hsame : SameText b b') : Settled m b' := by
  obtain ⟨hm, e, hrep, hin⟩ := h
  obtain ⟨_, _, _, rfl⟩ := hsame
  exact ⟨hm, e, SameText.represents ⟨_, _, _, rfl⟩ hrep, hin⟩

theorem settled_fresh (m : Bool) : Settled m { multibyte := m } :=
  ⟨rfl, {}, represents_fresh m, Int.le_refl 1, Int.le_refl 1⟩

theorem Settled.run {k : Command} {x : Logged Buffer} (h : Settled m b) (hk : b.Admissible k)
    (hstays : b.StaysInside k) (hx : b.run k = .ok x) : Settled m x.value := by
  obtain ⟨rfl, e, hrep, hin⟩ := h
  have hrun := hrep.run hk
  rw [hx] at hrun
  cases he : e.run b.multibyte k with
  | error err =>
      rw [he] at hrun
      cases hrun
  | ok e' =>
      rw [he] at hrun
      cases hrun with
      | accepted hx' => exact ⟨(counted_run hx).1, e', hx', hrep.inside_run hin hstays he⟩

theorem Settled.sound (h : Settled m b) : b.Sound b.chars := by
  obtain ⟨-, e, hrep, -⟩ := h
  rw [hrep.sound.chars_eq]
  exact hrep.sound

theorem Settled.inside (h : Settled m b) :
    b.lower.char ≤ b.point.char ∧ b.point.char ≤ b.upper.char := by
  obtain ⟨-, e, hrep, hin⟩ := h
  rw [hrep.lower_eq, hrep.point_eq, hrep.upper_eq]
  exact hin

/-- The point may be put at any place of the accessible part. -/
theorem Settled.setPoint {p : Position} (h : Settled m b) (hp : IsPlace m b.chars p)
    (hlo : b.lower.char ≤ p.char) (hhi : p.char ≤ b.upper.char) : Settled m (b.setPoint p) := by
  obtain ⟨rfl, e, hrep, -⟩ := h
  rw [hrep.sound.chars_eq] at hp
  refine ⟨rfl, { e with point := p.char }, ⟨hrep.sound.setPoint hp, rfl, hrep.lower_eq,
    hrep.upper_eq⟩, ?_, ?_⟩
  · rw [← hrep.lower_eq]
    exact hlo
  · rw [← hrep.upper_eq]
    exact hhi

end Buffer

/-! ## Overlays leave the text alone -/

namespace Overlaid

open Buffer (SameText)

variable {o : Overlaid} {b : BufferId} {home : ArenaId}

theorem sameText_make (o : Overlaid) (b : BufferId) (home : ArenaId) (p q : Int)
    (props : Properties) : SameText o.buffer (o.make b home p q props).state.buffer := by
  obtain ⟨l, hl⟩ := buffer_make o b home p q props
  exact ⟨l, _, _, hl⟩

theorem sameText_unlink (o : Overlaid) (id : Int) :
    SameText o.buffer (o.unlink id).state.buffer := by
  unfold unlink
  dsimp only
  split
  · exact SameText.refl _
  · exact ⟨_, _, _, rfl⟩

theorem sameText_clear (o : Overlaid) : SameText o.buffer o.clear.state.buffer := by
  unfold clear Outcome.andThen
  dsimp only
  split
  · split <;> exact ⟨_, _, _, rfl⟩
  · exact ⟨_, _, _, rfl⟩

theorem sameText_recenter (o : Overlaid) (p : Int) :
    SameText o.buffer (o.recenter p).state.buffer := by
  unfold recenter
  dsimp only
  split
  · exact ⟨_, _, _, rfl⟩
  · split <;> exact ⟨_, _, _, rfl⟩

/-! ## The overlays of a viewer's buffer -/

/-- The overlays of this buffer hang on its chains, and the arena holds no others. -/
structure Alone (o : Overlaid) : Prop where
  hung : ∃ before after, Indexed 0 0 o before after
  others : ∀ b : BufferId, b ≠ 0 → o.arena.OfBuffer b []

variable {o' : Overlaid} {before after : List Int}

theorem Alone.of_touches (h : Alone o) (hindexed : Indexed 0 0 o' before after)
    (htouches : Arena.Touches 0 o.arena o'.arena) : Alone o' :=
  ⟨⟨before, after, hindexed⟩, fun b hb => (h.others b hb).of_sameFor (htouches.others b hb)⟩

theorem Alone.make (h : Alone o) (p q : Int) (props : Properties) :
    Alone (o.make 0 0 p q props).state := by
  obtain ⟨before, after, hindexed⟩ := h.hung
  obtain ⟨-, hmade, htouches⟩ := hindexed.make p q props
  exact h.of_touches hmade htouches

theorem Alone.clear (h : Alone o) : Alone o.clear.state := by
  obtain ⟨before, after, hindexed⟩ := h.hung
  obtain ⟨-, hcleared, htouches⟩ := hindexed.clear
  exact h.of_touches hcleared htouches

theorem Alone.recenter (h : Alone o) (p : Int) : Alone (o.recenter p).state := by
  obtain ⟨before, after, hindexed⟩ := h.hung
  obtain ⟨-, hdealt, htouches⟩ := hindexed.recenter p
  exact h.of_touches hdealt htouches

/-- What hangs on the chains are the records that are attached to a buffer at all. -/
theorem Alone.mem_iff (h : Alone o) (hindexed : Indexed 0 0 o before after) {id : Int} :
    id ∈ before ++ after ↔ ∃ r, o.arena.find? id = some r ∧ r.isAttached = true := by
  rw [hindexed.holds.ofBuffer id]
  constructor
  · rintro ⟨r, hr, hb⟩
    refine ⟨r, hr, ?_⟩
    rw [Overlay.isAttached, hb]
    rfl
  · rintro ⟨r, hr, hattached⟩
    obtain ⟨b, hb⟩ := Option.isSome_iff_exists.mp hattached
    by_cases hself : b = 0
    · exact ⟨r, hr, hself ▸ hb⟩
    · exact absurd ((h.others b hself id).mpr ⟨r, hr, hb⟩) List.not_mem_nil

/-- The overlay taken off its chain and detached, if it is attached. -/
def without (o : Overlaid) (id : Int) : Overlaid :=
  if (o.arena.find? id).any Overlay.isAttached then (o.unlink id).state else o

/-- What is attached hangs on one of the chains. -/
theorem Alone.without_eq (h : Alone o) (hindexed : Indexed 0 0 o before after) (id : Int) :
    o.without id = if id ∈ before ++ after then (o.unlink id).state else o := by
  have hattached : (o.arena.find? id).any Overlay.isAttached = true ↔ id ∈ before ++ after :=
    (Option.any_eq_true _ _).trans (h.mem_iff hindexed).symm
  exact if_congr hattached rfl rfl

theorem Alone.without (h : Alone o) (id : Int) : Alone (o.without id) := by
  obtain ⟨before, after, hindexed⟩ := h.hung
  rw [h.without_eq hindexed]
  split
  · rename_i hid
    obtain ⟨-, hunlinked, htouches⟩ := hindexed.unlink hid
    exact h.of_touches hunlinked htouches
  · exact h

/-- An edit that keeps the chains keeps what hangs there. -/
theorem Alone.setBuffer {buf : Buffer} (h : Alone o) (hchains : buf.overlays = o.buffer.overlays) :
    Alone { o with buffer := buf } := by
  obtain ⟨before, after, hindexed⟩ := h.hung
  exact ⟨⟨before, after, hindexed.setBuffer hchains⟩, h.others⟩

theorem Alone.reclaim (h : Alone o) : Alone { o with arena := o.arena.reclaim.state } := by
  obtain ⟨before, after, hholds, hbound⟩ := h.hung
  exact ⟨⟨before, after, hholds.of_sameFor (o.arena.sameFor_reclaim 0), hbound⟩,
    fun b hb => (h.others b hb).of_sameFor (o.arena.sameFor_reclaim b)⟩

end Overlaid

/-! ## Viewers -/

namespace Viewer

open Buffer (Settled SameText)

/-- A page whose text and overlays are in order. -/
structure Orderly (m : Bool) (o : Overlaid) : Prop where
  settled : Settled m o.buffer
  alone : o.Alone

variable {m : Bool} {o : Overlaid} {v : Viewer}

theorem value_foldlM {α σ : Type} (f : σ → α → Logged σ) (s : σ) (xs : List α) :
    (xs.foldlM f s).value = xs.foldl (fun s x => (f s x).value) s := by
  induction xs generalizing s with
  | nil => rfl
  | cons x xs ih =>
      rw [List.foldlM_cons, Logged.value_bind, ih]
      rfl

theorem Orderly.markBytes (h : Orderly m o) (lo hi : Int) : Orderly m (markBytes o lo hi).value :=
  ⟨h.settled.of_sameText (o.sameText_make ..), h.alone.make ..⟩

theorem Orderly.clear (h : Orderly m o) : Orderly m o.clear.state :=
  ⟨h.settled.of_sameText o.sameText_clear, h.alone.clear⟩

theorem Orderly.recenter (h : Orderly m o) (p : Int) : Orderly m (o.recenter p).state :=
  ⟨h.settled.of_sameText (o.sameText_recenter p), h.alone.recenter p⟩

theorem value_deleteOverlays (o : Overlaid) (ids : List Int) :
    (deleteOverlays o ids).value = ids.foldl Overlaid.without o := by
  have hone : ∀ (o : Overlaid) (id : Int),
      (if (o.arena.find? id).any Overlay.isAttached then (o.unlink id).settle
        else pure o : Logged Overlaid).value = o.without id := by
    intro o id
    unfold Overlaid.without
    split <;> rfl
  unfold Viewer.deleteOverlays
  rw [value_foldlM]
  simp only [hone]

theorem Orderly.without (h : Orderly m o) (id : Int) : Orderly m (o.without id) where
  settled := by
    unfold Overlaid.without
    split
    · exact h.settled.of_sameText (o.sameText_unlink id)
    · exact h.settled
  alone := h.alone.without id

theorem Orderly.deleteOverlays (h : Orderly m o) (ids : List Int) :
    Orderly m (deleteOverlays o ids).value := by
  rw [value_deleteOverlays]
  induction ids generalizing o with
  | nil => exact h
  | cons id ids ih => exact ih (h.without id)

theorem Orderly.run {k : Buffer.Command} {x : Logged Buffer} (h : Orderly m o)
    (hk : o.buffer.Admissible k) (hstays : o.buffer.StaysInside k) (hx : o.buffer.run k = .ok x) :
    Orderly m { o with buffer := x.value } where
  settled := h.settled.run hk hstays hx
  alone := h.alone.setBuffer (Buffer.overlays_run hx)

/-- What holds of every viewer that can be reached. -/
structure Sane (m : Bool) (v : Viewer) : Prop where
  page : Orderly m v.page
  tab : v.localTab = 2 ∨ v.localTab = 4 ∨ v.localTab = 8

theorem sane_start (rows cols : Nat) (m : Bool) : Sane m (start rows cols m) where
  page.settled := Buffer.settled_fresh m
  page.alone :=
    ⟨⟨[], [], Arena.holds_nil rfl rfl (Arena.ofBuffer_empty 0), Or.inr ⟨rfl, rfl, rfl⟩⟩,
      fun b _ => Arena.ofBuffer_empty b⟩
  tab := Or.inr (Or.inl rfl)

theorem Sane.setPage (h : Sane m v) (hpage : Orderly m o) : Sane m { v with page := o } :=
  ⟨hpage, h.tab⟩

theorem Sane.say (h : Sane m v) (message : Bytes) : Sane m (v.say message) := ⟨h.page, h.tab⟩

/-! ### Moves -/

/-- Where the point goes when it is moved to the left, with the bytes that are read to find out. -/
def tracedLeft (v : Viewer) : Traced Position :=
  let b := v.buffer
  if b.point.char ≤ b.lower.char then pure b.point
  else do return ⟨b.point.char - 1, ← b.tracedPrev b.point.byte⟩

/-- The same for a move to the right. -/
def tracedRight (v : Viewer) : Traced Position :=
  let b := v.buffer
  if b.upper.char ≤ b.point.char then pure b.point
  else do return ⟨b.point.char + 1, ← b.tracedNext b.point.byte⟩

theorem moveLeft_eq (v : Viewer) : v.moveLeft = v.setPoint v.tracedLeft.value := by
  unfold moveLeft tracedLeft
  dsimp only
  split
  · rfl
  · rw [Traced.value_bind, Buffer.value_tracedPrev]
    rfl

theorem moveRight_eq (v : Viewer) : v.moveRight = v.setPoint v.tracedRight.value := by
  unfold moveRight tracedRight
  dsimp only
  split
  · rfl
  · rw [Traced.value_bind, Buffer.value_tracedNext]
    rfl

open Code

/-- A place of the accessible part of the text, and what was read to find it lies in the text. -/
structure Safe (m : Bool) (b : Buffer) (x : Traced Position) : Prop where
  place : IsPlace m b.chars x.value
  inside : b.lower.char ≤ x.value.char ∧ x.value.char ≤ b.upper.char
  reads : ∀ r ∈ x.reads, 1 ≤ r ∧ r < b.text.endPos

theorem safe_tracedLeft (h : Settled m v.buffer) : Safe m v.buffer v.tracedLeft := by
  obtain ⟨hlo, hhi⟩ := h.inside
  have hsound := h.sound
  obtain rfl := h.1
  unfold tracedLeft
  dsimp only
  split
  · exact ⟨hsound.point, ⟨hlo, hhi⟩, fun r hr => absurd hr List.not_mem_nil⟩
  · rename_i hmore
    have hone := hsound.lower.one_le
    have hchar : 1 < v.buffer.point.char := by omega
    have hend := (hsound.byte_mem hsound.point).2
    obtain ⟨hplace, -⟩ := hsound.isPlace_prev hsound.point (hsound.point.one_lt_byte hchar)
    refine ⟨?_, ⟨?_, ?_⟩, fun r hr => ?_⟩
    · rw [Traced.value_bind, Buffer.value_tracedPrev]
      exact hplace
    · show _ ≤ v.buffer.point.char - 1
      omega
    · show v.buffer.point.char - 1 ≤ _
      omega
    · rw [Traced.reads_bind, Traced.reads_pure, List.append_nil] at hr
      have hr := hsound.mem_reads_tracedPrev hsound.point hchar r hr
      omega

theorem safe_tracedRight (h : Settled m v.buffer) : Safe m v.buffer v.tracedRight := by
  obtain ⟨hlo, hhi⟩ := h.inside
  have hsound := h.sound
  obtain rfl := h.1
  unfold tracedRight
  dsimp only
  split
  · exact ⟨hsound.point, ⟨hlo, hhi⟩, fun r hr => absurd hr List.not_mem_nil⟩
  · rename_i hmore
    have hlast := hsound.upper.le_last
    have hone := (hsound.byte_mem hsound.point).1
    have hend := hsound.byte_lt_endPos hsound.point (by omega)
    obtain ⟨hplace, -⟩ := hsound.isPlace_next hsound.point hend
    refine ⟨?_, ⟨?_, ?_⟩, fun r hr => ?_⟩
    · rw [Traced.value_bind, Buffer.value_tracedNext]
      exact hplace
    · show _ ≤ v.buffer.point.char + 1
      omega
    · show v.buffer.point.char + 1 ≤ _
      omega
    · rw [Traced.reads_bind, Traced.reads_pure, List.append_nil] at hr
      rw [v.buffer.reads_tracedNext _ r hr]
      exact ⟨hone, hend⟩

theorem Sane.setPoint {x : Traced Position} (h : Sane m v) (hx : Safe m v.buffer x) :
    Sane m (v.setPoint x.value) :=
  h.setPage ⟨h.page.settled.setPoint hx.place hx.inside.1 hx.inside.2, h.page.alone.setBuffer rfl⟩

theorem Sane.moveLeft (h : Sane m v) : Sane m v.moveLeft :=
  v.moveLeft_eq ▸ h.setPoint (safe_tracedLeft h.page.settled)

theorem Sane.moveRight (h : Sane m v) : Sane m v.moveRight :=
  v.moveRight_eq ▸ h.setPoint (safe_tracedRight h.page.settled)

/-! ### Commands -/

/-- What a load does: the chains are cleared and the records reclaimed, and the text takes the place
of the old one. -/
theorem Sane.exists_inserted (h : Sane m v) (s : Bytes) :
    let erased := v.page.clear.state.buffer.erase.value
    let new := decodeText m (v.buffer.internalForm s)
    ∃ x, erased.insertExternal 1 s = .ok x ∧ erased.Represents {} ∧ x.value.multibyte = m ∧
      x.value.Sound new ∧
      (x.value.setPoint .first).Represents { chars := new, upper := 1 + new.length } ∧
      (v.loadBytes s).value =
        { v with page := ⟨v.page.clear.state.arena.reclaim.state, x.value.setPoint .first⟩ } := by
  intro erased new
  obtain ⟨hm, e, hrep, -⟩ := h.page.clear.settled
  obtain rfl := h.page.settled.1
  have hkind : erased.multibyte = v.page.buffer.multibyte :=
    (Buffer.counted_run (c := .erase) rfl).1.trans hm
  have hrun := hrep.erase.run (k := .insertExternal 1 s) trivial
  rw [show v.page.clear.state.buffer.erase.value.multibyte = _ from hkind] at hrun
  obtain ⟨x, hx, hloaded⟩ := Buffer.Agrees.exists_ok
    (show Buffer.Agrees _ (.ok (Editor.splice {} 1 _)) from hrun)
  have hchars : (Editor.splice {} 1 new).chars = new := List.append_nil new
  have hsound : x.value.Sound new := hchars ▸ hloaded.sound
  refine ⟨x, hx, hrep.erase, (Buffer.counted_run hx).1.trans hkind, hsound,
    ⟨hsound.setPoint (isPlace_first _ _), rfl, hloaded.lower_eq, hloaded.upper_eq⟩, ?_⟩
  unfold Viewer.loadBytes
  rw [Logged.value_bind, Logged.value_bind, Logged.value_bind]
  dsimp only [Outcome.settle]
  rw [show v.page.clear.state.buffer.erase.value.insertExternal 1 s = .ok x from hx]
  rfl

/-- Loading leaves a page with the characters of the bytes, all of them accessible, and the point at
the first one. -/
theorem Sane.exists_loadBytes (h : Sane m v) (s : Bytes) :
    let new := decodeText m (v.buffer.internalForm s)
    ∃ page, (v.loadBytes s).value = { v with page } ∧ page.Alone ∧ page.buffer.multibyte = m ∧
      page.buffer.Represents { chars := new, upper := 1 + new.length } := by
  intro new
  obtain ⟨x, hx, -, hm, -, hrep, hvalue⟩ := h.exists_inserted s
  have halone : Overlaid.Alone ⟨v.page.clear.state.arena.reclaim.state, x.value.setPoint .first⟩ :=
    (h.page.alone.clear.reclaim.setBuffer (Buffer.overlays_erase _)).setBuffer
      (Buffer.overlays_run (c := .insertExternal 1 s) hx)
  exact ⟨_, hvalue, halone, hm, hrep⟩

theorem Sane.loadBytes (h : Sane m v) (s : Bytes) : Sane m (v.loadBytes s).value := by
  obtain ⟨page, hvalue, halone, hm, hrep⟩ := h.exists_loadBytes s
  rw [hvalue]
  refine h.setPage ⟨⟨hm, _, hrep, Int.le_refl 1, ?_⟩, halone⟩
  show (1 : Int) ≤ 1 + _
  omega

theorem Sane.markMatches (h : Sane m v) (word : Bytes) : Sane m (v.markMatches word).value.1 := by
  unfold Viewer.markMatches
  split
  · exact h
  · rw [Logged.value_bind, value_foldlM]
    refine h.setPage ?_
    generalize Bytes.matchesFrom _ 0 0 _ = found
    have hpage := h.page
    generalize v.page = o at hpage ⊢
    induction found generalizing o with
    | nil => exact hpage
    | cons i found ih => exact ih _ (hpage.markBytes _ _)

theorem Sane.render (h : Sane m v) : Sane m v.render := by
  unfold Viewer.render
  split
  · exact ⟨h.page, h.tab⟩
  · exact h

theorem tabAfter_mem {width : Int} (h : width = 2 ∨ width = 4 ∨ width = 8) :
    tabAfter width = 2 ∨ tabAfter width = 4 ∨ tabAfter width = 8 := by
  rcases h with rfl | rfl | rfl
  · exact Or.inr (Or.inl rfl)
  · exact Or.inr (Or.inr rfl)
  · exact Or.inl rfl

theorem Sane.setTabFlag (h : Sane m v) (value : Int8) : Sane m (v.setTabFlag value) :=
  h.setPage ⟨h.page.settled.of_sameText ⟨_, _, _, rfl⟩, h.page.alone.setBuffer rfl⟩

theorem Sane.perform (h : Sane m v) (a : Action) : Sane m (v.perform a).value := by
  cases a with
  | left => exact h.moveLeft
  | right => exact h.moveRight
  | deleteHere => exact (h.setPage (h.page.deleteOverlays _)).say _
  | deleteAll => exact (h.setPage h.page.clear).say _
  | recenter => exact (h.setPage (h.page.recenter _)).say _
  | nextTab =>
      have hwider : Sane m { v with localTab := tabAfter v.localTab } :=
        ⟨h.page, tabAfter_mem h.tab⟩
      exact (hwider.setTabFlag 1).say _
  | resetTab => exact (h.setTabFlag 0).say _
  | quit => exact ⟨h.page, h.tab⟩

theorem Sane.press (h : Sane m v) (key : Int) : Sane m (v.press key).value := by
  unfold Viewer.press
  dsimp only
  split
  · exact (h.say []).perform _
  · exact h.say []

theorem Sane.interact (h : Sane m v) (keys : List Int) : Sane m (v.interact keys).value.1 := by
  induction keys generalizing v with
  | nil =>
      unfold Viewer.interact
      split
      · exact h
      · exact h.render.press quitKey
  | cons key keys ih =>
      unfold Viewer.interact
      split
      · exact h
      · exact ih (h.render.press key)

/-- What callers promise about edits of the text: what holds of every buffer, and that the point is
not put outside the accessible part. -/
def Allowed (v : Viewer) : Command → Prop
  | .edit c => v.buffer.Admissible c ∧ v.buffer.StaysInside c
  | _ => True

instance (v : Viewer) (k : Command) : Decidable (v.Allowed k) := by
  cases k <;> unfold Allowed <;> infer_instance

/-- The viewer that a command leaves. -/
def step (files : FileTree) (v : Viewer) (k : Command) : Viewer := (v.run files k).value.1

theorem Sane.step {files : FileTree} {k : Command} (h : Sane m v) (hk : v.Allowed k) :
    Sane m (v.step files k) := by
  cases k with
  | load s => exact h.loadBytes s
  | loadFile path =>
      show Sane m (Viewer.run v files (.loadFile path)).value.1
      unfold Viewer.run Viewer.load
      rw [Logged.value_bind, Logged.value_bind]
      cases (files.read path).value with
      | error err => exact h
      | ok s => exact h.loadBytes s
  | mark word => exact h.markMatches word
  | press key => exact h.press key
  | interact keys => exact h.interact keys
  | moveLeft => exact h.moveLeft
  | moveRight => exact h.moveRight
  | render => exact h.render
  | edit c =>
      show Sane m (Viewer.run v files (.edit c)).value.1
      unfold Viewer.run
      dsimp only
      split
      · rename_i x hx
        exact h.setPage (h.page.run hk.1 hk.2 hx)
      · exact h

theorem sane_run {rows cols : Nat} {files : FileTree} (ks : List Command)
    (h : Along (step files) Allowed (start rows cols m) ks) :
    Sane m (ks.foldl (step files) (start rows cols m)) :=
  Along.invariant (fun _ _ hv hk => Sane.step hv hk) ks (sane_start rows cols m) h

/-- All edits but those that callers have to promise something for. -/
def free : Command → Bool
  | .edit (.insert _ _) | .edit (.moveGap _) | .edit (.goTo _) => false
  | _ => true

/-- Narrowing and widening, text from outside and deletion are allowed with any arguments. -/
theorem along_allowed {files : FileTree} {ks : List Command} (h : ∀ k ∈ ks, free k = true)
    (v : Viewer) : Along (step files) Allowed v ks := by
  induction ks generalizing v with
  | nil => trivial
  | cons k ks ih =>
      obtain ⟨hk, hks⟩ := List.forall_mem_cons.mp h
      refine ⟨?_, ih hks _⟩
      cases k with
      | edit c =>
          cases c with
          | insert c s => cases hk
          | moveGap c => cases hk
          | goTo c => cases hk
          | _ => exact ⟨trivial, trivial⟩
      | _ => trivial

/-- **At any time a viewer can be moved and drawn.** After any run the text consists of forms, and
the point is a place of its accessible part. So moves read bytes of the text only and lead to places
of the accessible part again. The tab width is two, four or eight. The two chains hold the overlays
that are attached, each of them once. -/
theorem viewer_run (rows cols : Nat) (m : Bool) (files : FileTree) (ks : List Command)
    (h : Along (step files) Allowed (start rows cols m) ks) :
    let v := ks.foldl (step files) (start rows cols m)
    let b := v.buffer
    (IsText m b.text.contents ∧ b.text.contents = encode m b.chars) ∧
    (b.lower.char ≤ b.point.char ∧ b.point.char ≤ b.upper.char ∧
      b.point.byte = bytePos m b.chars b.point.char) ∧
    (v.moveLeft = v.setPoint v.tracedLeft.value ∧ Safe m b v.tracedLeft) ∧
    (v.moveRight = v.setPoint v.tracedRight.value ∧ Safe m b v.tracedRight) ∧
    (v.tabWidth = 2 ∨ v.tabWidth = 4 ∨ v.tabWidth = 8) ∧
    ∃ before after, v.page.chains = .ok (before, after) ∧ (before ++ after).Nodup ∧
      ∀ id, id ∈ before ++ after ↔
        ∃ r, v.page.arena.find? id = some r ∧ r.isAttached = true := by
  intro v b
  have hv : Sane m v := sane_run ks h
  have hsound := hv.page.settled.sound
  have hm : b.multibyte = m := hv.page.settled.1
  obtain ⟨before, after, hindexed⟩ := hv.page.alone.hung
  obtain ⟨hlo, hhi⟩ := hv.page.settled.inside
  refine ⟨⟨⟨b.chars, hm ▸ hsound.allowed, hm ▸ hsound.contents_eq.symm⟩, hm ▸ hsound.contents_eq⟩,
    ⟨hlo, hhi, hm ▸ hsound.point.byte_eq⟩, ⟨v.moveLeft_eq, safe_tracedLeft hv.page.settled⟩,
    ⟨v.moveRight_eq, safe_tracedRight hv.page.settled⟩, ?_,
    before, after, hindexed.chains_eq, hindexed.holds.nodup,
    fun id => hv.page.alone.mem_iff hindexed⟩
  unfold tabWidth
  split
  · exact hv.tab
  · exact Or.inr (Or.inl rfl)

/-- Moves up to both ends of a part of a text with characters of one to three bytes and raw ones,
past keys, a refused deletion, a file that is not there and an empty word. -/
theorem viewer_run_narrowed :
    let ks : List Command :=
      [.load [0x61, 0xC3, 0xA9, 0xFF, 0xE2, 0x82, 0xAC, 0x62], .moveRight, .press 261,
        .edit (.narrow 5 3), .press 108, .moveRight, .press 108, .press 116, .mark [],
        .edit (.delete 1 9), .loadFile [0x78], .press 114, .moveLeft, .edit (.delete 3 4)]
    let v := ks.foldl (step {}) (start 3 10 true)
    Along (step {}) Allowed (start 3 10 true) ks ∧ v.buffer.lower.char = 3 ∧
      v.buffer.upper.char = 4 ∧ v.buffer.point.char = 3 ∧
      v.buffer.point.byte = bytePos true v.buffer.chars 3 ∧ v.tabWidth = 8 ∧
      (∀ r ∈ v.tracedRight.reads, 1 ≤ r ∧ r < v.buffer.text.endPos) ∧
      v.page.chains = .ok ([], []) := by
  intro ks v
  have hks : Along (step {}) Allowed (start 3 10 true) ks := along_allowed (by decide) _
  obtain ⟨-, ⟨-, -, hbyte⟩, -, ⟨-, hsafe⟩, -, -⟩ := viewer_run 3 10 true {} ks hks
  have hpoint : v.buffer.point.char = 3 := by decide +kernel
  refine ⟨hks, by decide +kernel, by decide +kernel, hpoint, ?_, by decide +kernel, hsafe.reads,
    by decide +kernel⟩
  rw [hpoint] at hbyte
  exact hbyte

end Viewer

end GapText
