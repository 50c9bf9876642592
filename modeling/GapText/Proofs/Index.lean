import GapText.Workspace.Command
import GapText.Proofs.Overlaid
import GapText.Proofs.Run

/-!
# The overlays of a workspace

Several buffers hang their overlays on chains through the records of several arenas. Each buffer is
bound to one arena at most, all records that name the buffer are there, and its two chains hold
exactly these (`Hung`). What is done with one buffer leaves the overlays of all others where they
are (`Spares`), so the invariant (`Indexed`) is a matter of that one buffer, for which the
operations on a buffer and its arena account.
-/

namespace GapText

/-! ## Edits leave the chains alone -/

namespace Buffer

variable {b : Buffer} {x : Logged Buffer}

/-- What a buffer has besides its text and the places in it: its chains, its local flags, and
whether all of it is drawn again. -/
def trappings (b : Buffer) : Chains × LocalFlags × Bool := (b.overlays, b.flags, b.redrawAll)

theorem trappings_insert {c : Int} {s : Bytes} (h : b.insert c s = .ok x) :
    x.value.trappings = b.trappings := by
  unfold insert at h
  split at h
  · cases h
  · cases h
    split <;> rfl

theorem trappings_delete {p q : Int} (h : b.delete p q = .ok x) :
    x.value.trappings = b.trappings := by
  unfold delete at h
  cases hregion : b.region p q with
  | error err =>
      rw [hregion] at h
      cases h
  | ok stretch =>
      rw [hregion] at h
      cases h
      show (if stretch.1 = stretch.2 then pure b else b.cut _ _ : Logged Buffer).value.trappings = _
      split <;> rfl

theorem trappings_erase (b : Buffer) : b.erase.value.trappings = b.trappings := by
  unfold erase
  dsimp only
  split
  · rename_i erased hdelete
    have hsame : erased.value.trappings = b.widen.trappings := trappings_delete hdelete
    exact hsame
  · rfl

theorem trappings_run {c : Command} (h : b.run c = .ok x) : x.value.trappings = b.trappings := by
  cases c with
  | insert c s => exact trappings_insert h
  | insertExternal c s => exact trappings_insert h
  | delete p q => exact trappings_delete h
  | narrow p q =>
      rw [run, narrow] at h
      dsimp only at h
      split at h <;> cases h
      rfl
  | erase =>
      cases h
      exact trappings_erase b
  | widen =>
      cases h
      rfl
  | moveGap c =>
      cases h
      rfl
  | goTo c =>
      cases h
      rfl

theorem overlays_erase (b : Buffer) : b.erase.value.overlays = b.overlays :=
  congrArg Prod.fst b.trappings_erase

theorem overlays_run {c : Command} (h : b.run c = .ok x) : x.value.overlays = b.overlays :=
  congrArg Prod.fst (trappings_run h)

end Buffer

namespace Workspace

variable {w w' : Workspace} {a a' : ArenaId} {b b' : BufferId} {arena arena' : Arena}
  {buf : Buffer} {o o' : Overlaid} {before after before' after' : List Int}

/-! ## Lookups -/

/-- What a buffer knows of its overlays; one that is gone knows of none. -/
def chainsOf (w : Workspace) (b : BufferId) : Chains :=
  ((w.buffer? b).map (·.overlays)).getD {}

theorem chainsOf_eq (h : w.buffer? b = some buf) : w.chainsOf b = buf.overlays := by
  unfold chainsOf
  rw [h]
  rfl

theorem lt_of_buffer? (h : w.buffer? b = some buf) : b < w.buffers.size := by
  unfold buffer? at h
  by_contra hge
  rw [Array.getElem?_eq_none (Nat.le_of_not_lt hge)] at h
  cases h

theorem buffer?_setBuffer (h : w.buffer? b = some buf) (buf' : Buffer) (b' : BufferId) :
    (w.setBuffer b buf').buffer? b' = if b = b' then some buf' else w.buffer? b' := by
  have hlt := lt_of_buffer? h
  unfold buffer? setBuffer
  rw [Array.getElem?_setIfInBounds, if_pos hlt]
  split <;> rfl

theorem buffer?_dropBuffer (w : Workspace) (b b' : BufferId) :
    (w.dropBuffer b).buffer? b' = if b = b' then none else w.buffer? b' := by
  unfold buffer? dropBuffer
  rw [Array.getElem?_setIfInBounds]
  split
  · split <;> rfl
  · rfl

theorem buffer?_addBuffer (w : Workspace) (multibyte : Bool) (b : BufferId) :
    (w.addBuffer multibyte).buffer? b =
      if b = w.buffers.size then some { multibyte } else w.buffer? b := by
  unfold buffer? addBuffer
  rw [Array.getElem?_push]
  split <;> rfl

theorem chainsOf_setBuffer (h : w.buffer? b = some buf) (buf' : Buffer) (b' : BufferId) :
    (w.setBuffer b buf').chainsOf b' = if b = b' then buf'.overlays else w.chainsOf b' := by
  unfold chainsOf
  rw [buffer?_setBuffer h]
  split <;> rfl

theorem chainsOf_dropBuffer (w : Workspace) (b b' : BufferId) :
    (w.dropBuffer b).chainsOf b' = if b = b' then {} else w.chainsOf b' := by
  unfold chainsOf
  rw [buffer?_dropBuffer]
  split <;> rfl

/-- A new buffer knows of no overlays, as before it was there. -/
theorem chainsOf_addBuffer (w : Workspace) (multibyte : Bool) (b : BufferId) :
    (w.addBuffer multibyte).chainsOf b = w.chainsOf b := by
  unfold chainsOf
  rw [buffer?_addBuffer]
  split
  · rename_i hb
    have hnone : w.buffer? b = none := by
      unfold buffer?
      rw [Array.getElem?_eq_none (Nat.le_of_eq hb.symm)]
      rfl
    rw [hnone]
    rfl
  · rfl

theorem arena?_setArena (h : w.arena? a = some arena) (arena' : Arena) (a' : ArenaId) :
    (w.setArena a arena').arena? a' = if a = a' then some arena' else w.arena? a' := by
  obtain ⟨hlt, -⟩ := Array.getElem?_eq_some_iff.mp h
  unfold arena? setArena
  rw [Array.getElem?_setIfInBounds, if_pos hlt]

theorem overlaid?_eq_some :
    w.overlaid? a b = some o ↔ w.arena? a = some o.arena ∧ w.buffer? b = some o.buffer := by
  obtain ⟨arena, buf⟩ := o
  unfold overlaid?
  cases ha : w.arena? a with
  | none => simp
  | some _ =>
      cases hb : w.buffer? b with
      | none => simp
      | some _ => simp

theorem arena?_setOverlaid (h : w.overlaid? a b = some o) (o' : Overlaid) (a' : ArenaId) :
    (w.setOverlaid a b o').arena? a' = if a = a' then some o'.arena else w.arena? a' :=
  arena?_setArena (overlaid?_eq_some.mp h).1 o'.arena a'

theorem chainsOf_setOverlaid (h : w.overlaid? a b = some o) (o' : Overlaid) (b' : BufferId) :
    (w.setOverlaid a b o').chainsOf b' =
      if b = b' then o'.buffer.overlays else w.chainsOf b' :=
  chainsOf_setBuffer (w := w.setArena a o'.arena) (overlaid?_eq_some.mp h).2 o'.buffer b'

theorem overlaid?_setOverlaid (h : w.overlaid? a b = some o) (o' : Overlaid) :
    (w.setOverlaid a b o').overlaid? a b = some o' := by
  refine overlaid?_eq_some.mpr ⟨?_, ?_⟩
  · rw [arena?_setOverlaid h, if_pos rfl]
  · exact (buffer?_setBuffer (w := w.setArena a o'.arena) (overlaid?_eq_some.mp h).2 o'.buffer
      b).trans (if_pos rfl)

/-! ### Putting back -/

theorem setBuffer_of_buffer? (h : w.buffer? b = some buf) : w.setBuffer b buf = w := by
  unfold buffer? at h
  obtain ⟨hlt, hget⟩ := Array.getElem?_eq_some_iff.mp (Option.join_eq_some_iff.mp h)
  unfold setBuffer
  rw [Array.setIfInBounds, dif_pos hlt, ← hget, Array.set_getElem_self]

theorem setArena_of_arena? (h : w.arena? a = some arena) : w.setArena a arena = w := by
  obtain ⟨hlt, hget⟩ := Array.getElem?_eq_some_iff.mp h
  unfold setArena
  rw [Array.setIfInBounds, dif_pos hlt, ← hget, Array.set_getElem_self]

theorem setOverlaid_of_overlaid? (h : w.overlaid? a b = some o) : w.setOverlaid a b o = w := by
  obtain ⟨ha, hb⟩ := overlaid?_eq_some.mp h
  unfold setOverlaid
  rw [setArena_of_arena? ha, setBuffer_of_buffer? hb]

theorem setOverlaid_setOverlaid (w : Workspace) (a : ArenaId) (b : BufferId) (o o' : Overlaid) :
    (w.setOverlaid a b o).setOverlaid a b o' = w.setOverlaid a b o' := by
  unfold setOverlaid setArena setBuffer
  simp only [Array.setIfInBounds_setIfInBounds]

/-! ## What a buffer's chains hold -/

/-- The arena to which a buffer is bound, and an empty one when it is bound to none. -/
def home (w : Workspace) (b : BufferId) : Arena := ((w.chainsOf b).arena.bind w.arena?).getD {}

/-- The arena is the buffer's own, or the buffer has none yet. -/
def IsHome (w : Workspace) (a : ArenaId) (b : BufferId) : Prop :=
  (w.chainsOf b).arena = some a ∨ (w.chainsOf b).arena = none

instance (w : Workspace) (a : ArenaId) (b : BufferId) : Decidable (w.IsHome a b) :=
  inferInstanceAs (Decidable (_ ∨ _))

/-- The chains of a buffer hold its overlays, all of which are in its own arena. -/
structure Hung (w : Workspace) (b : BufferId) (before after : List Int) : Prop where
  holds : (w.home b).Holds b (w.chainsOf b) before after
  foreign : ∀ a arena, w.arena? a = some arena → (w.chainsOf b).arena ≠ some a →
    arena.OfBuffer b []
  bound : ∀ a, (w.chainsOf b).arena = some a → ∃ arena, w.arena? a = some arena

theorem home_of_bound (h : (w.chainsOf b).arena = some a) (ha : w.arena? a = some arena) :
    w.home b = arena := by
  unfold home
  rw [h, Option.bind_some, ha]
  rfl

theorem home_of_free (h : (w.chainsOf b).arena = none) : w.home b = {} := by
  unfold home
  rw [h]
  rfl

theorem home_congr (h : (w.chainsOf b').arena = (w.chainsOf b).arena) : w.home b' = w.home b := by
  unfold home
  rw [h]

/-- A buffer that is gone is bound to no arena. -/
theorem exists_buffer?_of_bound (h : (w.chainsOf b).arena = some a) :
    ∃ buf, w.buffer? b = some buf := by
  unfold chainsOf at h
  cases hb : w.buffer? b with
  | none =>
      rw [hb] at h
      cases h
  | some buf => exact ⟨buf, rfl⟩

/-- A buffer that is bound to no arena has nothing on its chains. -/
theorem Hung.of_free (h : w.Hung b before after) (hfree : (w.chainsOf b).arena = none) :
    (w.chainsOf b).before = none ∧ (w.chainsOf b).after = none ∧ before = [] ∧ after = [] := by
  have hholds := h.holds
  rw [home_of_free hfree] at hholds
  have hlists : before ++ after = [] := by
    refine List.eq_nil_iff_forall_not_mem.mpr fun id hid => ?_
    exact List.not_mem_nil ((Arena.ofBuffer_empty b id).mpr ((hholds.ofBuffer id).mp hid))
  obtain ⟨rfl, rfl⟩ := List.append_eq_nil_iff.mp hlists
  exact ⟨hholds.before_leads.eq_none, hholds.after_leads.eq_none, rfl, rfl⟩

/-- The records that name the buffer are those of its arena that hang on its chains. -/
theorem Hung.mem_iff {id : Int} {r : Overlay} (h : w.Hung b before after)
    (ha : w.arena? a = some arena) (hr : arena.find? id = some r) :
    r.start.buffer = some b ↔ (w.chainsOf b).arena = some a ∧ id ∈ before ++ after := by
  constructor
  · intro hb
    by_cases hbound : (w.chainsOf b).arena = some a
    · refine ⟨hbound, (h.holds.ofBuffer id).mpr ⟨r, ?_, hb⟩⟩
      rwa [home_of_bound hbound ha]
    · exact absurd ((h.foreign a arena ha hbound id).mpr ⟨r, hr, hb⟩) List.not_mem_nil
  · rintro ⟨hbound, hid⟩
    obtain ⟨r', hr', hb⟩ := (h.holds.ofBuffer id).mp hid
    rw [home_of_bound hbound ha] at hr'
    cases hr.symm.trans hr'
    exact hb

/-- What is done elsewhere: the buffer's chains stay, and so do its overlays in every arena. -/
structure Spares (b : BufferId) (w w' : Workspace) : Prop where
  chains_eq : w'.chainsOf b = w.chainsOf b
  arenas : ∀ a, Option.Rel (Arena.SameFor b) (w.arena? a) (w'.arena? a)

theorem rel_refl (b : BufferId) (x : Option Arena) : Option.Rel (Arena.SameFor b) x x := by
  cases x with
  | none => exact .none
  | some arena => exact .some (.refl b arena)

theorem Spares.symm (h : Spares b w w') : Spares b w' w where
  chains_eq := h.chains_eq.symm
  arenas := by
    intro a
    have hrel := h.arenas a
    generalize w.arena? a = x, w'.arena? a = y at hrel
    cases hrel with
    | some hsame => exact .some hsame.symm
    | none => exact .none

theorem Spares.arena? (h : Spares b w w') (ha : w.arena? a = some arena) :
    ∃ arena', w'.arena? a = some arena' ∧ Arena.SameFor b arena arena' := by
  have hrel := h.arenas a
  rw [ha] at hrel
  generalize w'.arena? a = x at hrel
  cases hrel with
  | some hsame => exact ⟨_, rfl, hsame⟩

theorem Spares.home (h : Spares b w w') : Arena.SameFor b (w.home b) (w'.home b) := by
  unfold Workspace.home
  rw [h.chains_eq]
  cases (w.chainsOf b).arena with
  | none => exact .refl b {}
  | some a =>
      have hrel := h.arenas a
      rw [Option.bind_some, Option.bind_some]
      generalize w.arena? a = x, w'.arena? a = y at hrel
      cases hrel with
      | some hsame => exact hsame
      | none => exact .refl b {}

theorem Hung.of_spares (h : w.Hung b before after) (hs : Spares b w w') :
    w'.Hung b before after := by
  constructor
  · rw [hs.chains_eq]
    exact h.holds.of_sameFor hs.home
  · intro a arena' ha' hne
    rw [hs.chains_eq] at hne
    obtain ⟨arena, ha, hsame⟩ := hs.symm.arena? ha'
    exact (h.foreign a arena ha hne).of_sameFor hsame.symm
  · intro a hbound
    rw [hs.chains_eq] at hbound
    obtain ⟨arena, ha⟩ := h.bound a hbound
    exact (hs.arena? ha).imp fun _ => And.left

/-! ## The invariant -/

/-- All records are proper, and the chains of every buffer hold its overlays. Of a buffer that is
gone, or not there yet, there are none. -/
structure Indexed (w : Workspace) : Prop where
  proper : ∀ a arena, w.arena? a = some arena → arena.Proper
  hung : ∀ b, ∃ before after, w.Hung b before after

theorem Indexed.of_spares (h : w.Indexed) (hs : ∀ b, Spares b w w')
    (hproper : ∀ a arena, w'.arena? a = some arena → arena.Proper) : w'.Indexed where
  proper := hproper
  hung := by
    intro b
    obtain ⟨before, after, hb⟩ := h.hung b
    exact ⟨before, after, hb.of_spares (hs b)⟩

/-- Only the arenas and the chains count. -/
theorem Indexed.congr (h : w.Indexed) (harena : ∀ a, w'.arena? a = w.arena? a)
    (hchains : ∀ b, w'.chainsOf b = w.chainsOf b) : w'.Indexed := by
  refine h.of_spares (fun b => ⟨hchains b, fun a => ?_⟩) fun a arena ha => ?_
  · rw [harena a]
    exact rel_refl b _
  · rw [harena a] at ha
    exact h.proper a arena ha

/-! ### One buffer in its arena -/

/-- A buffer seen with its arena has its overlays there. -/
theorem Hung.indexed (h : w.Hung b before after) (ho : w.overlaid? a b = some o)
    (hhome : w.IsHome a b) : Overlaid.Indexed b a o before after := by
  obtain ⟨ha, hb⟩ := overlaid?_eq_some.mp ho
  have hchains := chainsOf_eq hb
  rcases hhome with hbound | hfree
  · have hholds := h.holds
    rw [home_of_bound hbound ha, hchains] at hholds
    rw [hchains] at hbound
    exact ⟨hholds, Or.inl hbound⟩
  · obtain ⟨hbefore, hafter, rfl, rfl⟩ := h.of_free hfree
    have hne : (w.chainsOf b).arena ≠ some a := by
      rw [hfree]
      rintro ⟨⟩
    have hnone := h.foreign a o.arena ha hne
    rw [hchains] at hfree hbefore hafter
    exact ⟨Arena.holds_nil hbefore hafter hnone, Or.inr ⟨hfree, rfl, rfl⟩⟩

/-- What was done with a buffer and its arena is put back. -/
theorem Hung.setOverlaid (h : w.Hung b before after) (ho : w.overlaid? a b = some o)
    (hhome : w.IsHome a b) (hindexed : Overlaid.Indexed b a o' before' after') :
    (w.setOverlaid a b o').Hung b before' after' := by
  have harena := arena?_setOverlaid ho o'
  have hchains : (w.setOverlaid a b o').chainsOf b = o'.buffer.overlays := by
    rw [chainsOf_setOverlaid ho, if_pos rfl]
  have hself : (w.setOverlaid a b o').arena? a = some o'.arena := by rw [harena, if_pos rfl]
  constructor
  · rw [hchains]
    rcases hindexed.bound with hbound | ⟨hfree, rfl, rfl⟩
    · rw [home_of_bound (hchains ▸ hbound) hself]
      exact hindexed.holds
    · rw [home_of_free (hchains ▸ hfree)]
      exact Arena.holds_nil hindexed.holds.before_leads.eq_none
        hindexed.holds.after_leads.eq_none (Arena.ofBuffer_empty b)
  · intro a' arena' ha' hne
    rw [hchains] at hne
    rw [harena] at ha'
    split at ha'
    · rename_i heq
      cases ha'
      rcases hindexed.bound with hbound | ⟨-, rfl, rfl⟩
      · exact absurd (heq ▸ hbound) hne
      · exact hindexed.holds.ofBuffer
    · rename_i hother
      refine h.foreign a' arena' ha' fun hbound => ?_
      rcases hhome with hown | hfree
      · exact hother (Option.some.inj (hown.symm.trans hbound))
      · cases hfree.symm.trans hbound
  · intro a' hbound
    rw [hchains] at hbound
    rcases hindexed.bound with hown | ⟨hfree, -, -⟩
    · cases hown.symm.trans hbound
      exact ⟨_, hself⟩
    · cases hfree.symm.trans hbound

/-- It is done elsewhere for all other buffers. -/
theorem spares_setOverlaid (ho : w.overlaid? a b = some o)
    (htouches : Arena.Touches b o.arena o'.arena) (hne : b' ≠ b) :
    Spares b' w (w.setOverlaid a b o') where
  chains_eq := by rw [chainsOf_setOverlaid ho, if_neg (Ne.symm hne)]
  arenas := by
    intro a'
    rw [arena?_setOverlaid ho]
    split
    · rename_i heq
      rw [← heq, (overlaid?_eq_some.mp ho).1]
      exact .some (htouches.others b' hne)
    · exact rel_refl b' _

theorem Indexed.setOverlaid (h : w.Indexed) (ho : w.overlaid? a b = some o)
    (hhome : w.IsHome a b) (hindexed : Overlaid.Indexed b a o' before' after')
    (htouches : Arena.Touches b o.arena o'.arena) : (w.setOverlaid a b o').Indexed where
  proper := by
    intro a' arena' ha'
    rw [arena?_setOverlaid ho] at ha'
    split at ha'
    · cases ha'
      exact htouches.proper (h.proper a o.arena (overlaid?_eq_some.mp ho).1)
    · exact h.proper a' arena' ha'
  hung := by
    intro b'
    obtain ⟨before, after, hb'⟩ := h.hung b'
    by_cases heq : b' = b
    · subst heq
      exact ⟨before', after', hb'.setOverlaid ho hhome hindexed⟩
    · exact ⟨before, after, hb'.of_spares (spares_setOverlaid ho htouches heq)⟩

/-- An operation of which the laws are known for a buffer and its arena. -/
theorem Indexed.onOverlaid {α : Type} {f : Overlaid → Outcome Overlaid α} {x : Outcome Workspace α}
    (h : w.Indexed) (hhome : w.IsHome a b)
    (hf : ∀ o before after, Overlaid.Indexed b a o before after → ∃ before' after',
      Overlaid.Indexed b a (f o).state before' after' ∧
        Arena.Touches b o.arena (f o).state.arena)
    (hx : w.onOverlaid a b f = some x) : x.state.Indexed := by
  obtain ⟨o, ho, rfl⟩ := Option.map_eq_some_iff.mp hx
  obtain ⟨before, after, hb⟩ := h.hung b
  obtain ⟨before', after', hindexed, htouches⟩ := hf o before after (hb.indexed ho hhome)
  exact h.setOverlaid ho hhome hindexed htouches

/-! ### The commands -/

theorem Indexed.setBuffer {buf' : Buffer} (h : w.Indexed) (hb : w.buffer? b = some buf)
    (hsame : buf'.overlays = buf.overlays) : (w.setBuffer b buf').Indexed := by
  refine h.congr (fun _ => rfl) fun b' => ?_
  rw [chainsOf_setBuffer hb]
  split
  · rename_i heq
    rw [← heq, chainsOf_eq hb, hsame]
  · rfl

theorem Indexed.setArena (h : w.Indexed) (ha : w.arena? a = some arena) (hproper : arena'.Proper)
    (hsame : ∀ b, Arena.SameFor b arena arena') : (w.setArena a arena').Indexed := by
  refine h.of_spares (fun b => ⟨rfl, fun a' => ?_⟩) fun a' arena₁ ha' => ?_
  · rw [arena?_setArena ha]
    split
    · rename_i heq
      rw [← heq, ha]
      exact .some (hsame b)
    · exact rel_refl b _
  · rw [arena?_setArena ha] at ha'
    split at ha'
    · cases ha'
      exact hproper
    · exact h.proper a' arena₁ ha'

/-- A buffer can go when nothing hangs on its chains. -/
theorem Indexed.dropBuffer (h : w.Indexed) (hb : w.Hung b [] []) : (w.dropBuffer b).Indexed where
  proper := h.proper
  hung := by
    intro b'
    by_cases heq : b = b'
    · subst heq
      have hchains : (w.dropBuffer b).chainsOf b = {} := by rw [chainsOf_dropBuffer, if_pos rfl]
      refine ⟨[], [], ?_, ?_, ?_⟩
      · rw [home_of_free (hchains ▸ rfl), hchains]
        exact Arena.holds_nil rfl rfl (Arena.ofBuffer_empty b)
      · intro a arena ha _ id
        refine iff_of_false List.not_mem_nil ?_
        rintro ⟨r, hr, hself⟩
        exact absurd ((hb.mem_iff ha hr).mp hself).2 List.not_mem_nil
      · intro a hbound
        rw [hchains] at hbound
        cases hbound
    · obtain ⟨before, after, hb'⟩ := h.hung b'
      have hchains : (w.dropBuffer b).chainsOf b' = w.chainsOf b' := by
        rw [chainsOf_dropBuffer, if_neg heq]
      exact ⟨before, after, hb'.of_spares ⟨hchains, fun a => rel_refl b' (w.arena? a)⟩⟩

/-- A buffer that is not at home in an arena is bound to another one. -/
theorem exists_foreign (ho : w.overlaid? a b = some o) (hhome : ¬ w.IsHome a b) :
    ∃ c, o.buffer.overlays.arena = some c ∧ c ≠ a := by
  rw [IsHome, chainsOf_eq (overlaid?_eq_some.mp ho).2, not_or] at hhome
  obtain ⟨c, hc⟩ := Option.ne_none_iff_exists'.mp hhome.2
  refine ⟨c, hc, ?_⟩
  rintro rfl
  exact hhome.1 hc

theorem Indexed.makeOverlay {p q : Int} {props : Properties} {x : Outcome Workspace Int}
    (h : w.Indexed) (hx : w.onOverlaid a b (·.make b a p q props) = some x) : x.state.Indexed := by
  by_cases hhome : w.IsHome a b
  · refine h.onOverlaid hhome (fun o before after ho => ?_) hx
    obtain ⟨-, hindexed, htouches⟩ := ho.make p q props
    exact ⟨_, _, hindexed, htouches⟩
  · -- a buffer that is bound elsewhere refuses
    obtain ⟨o, ho, rfl⟩ := Option.map_eq_some_iff.mp hx
    obtain ⟨c, hc, hne⟩ := exists_foreign ho hhome
    dsimp only
    rw [Overlaid.make_of_foreign hc hne]
    show (w.setOverlaid a b o).Indexed
    rwa [setOverlaid_of_overlaid? ho]

/-- A record that names a buffer hangs on its chains. -/
theorem Indexed.exists_overlaid {id : Int} {r : Overlay} (h : w.Indexed)
    (ha : w.arena? a = some arena) (hr : arena.find? id = some r) (hb : r.start.buffer = some b) :
    ∃ o before after, w.overlaid? a b = some o ∧ o.arena = arena ∧
      (w.chainsOf b).arena = some a ∧ w.Hung b before after ∧ id ∈ before ++ after := by
  obtain ⟨before, after, hhung⟩ := h.hung b
  obtain ⟨hbound, hid⟩ := (hhung.mem_iff ha hr).mp hb
  obtain ⟨buf, hbuf⟩ := exists_buffer?_of_bound hbound
  exact ⟨⟨arena, buf⟩, before, after, overlaid?_eq_some.mpr ⟨ha, hbuf⟩, rfl, hbound, hhung, hid⟩

theorem Indexed.deleteOverlay {id : Int} {x : Outcome Workspace Unit} (h : w.Indexed)
    (hx : w.deleteOverlay a id = some x) : x.state.Indexed := by
  unfold Workspace.deleteOverlay at hx
  obtain ⟨arena, ha, hx⟩ := Option.bind_eq_some_iff.mp hx
  cases hget : arena.get id with
  | error f =>
      rw [hget] at hx
      cases hx
      exact h
  | ok r =>
      have hr := Arena.find?_of_get hget
      rw [hget] at hx
      dsimp only at hx
      cases hb : r.start.buffer with
      | none =>
          rw [hb] at hx
          cases hx
          exact h
      | some b =>
          rw [hb] at hx
          obtain ⟨o, before, after, ho, rfl, hbound, hhung, hid⟩ := h.exists_overlaid ha hr hb
          obtain ⟨-, hunlinked, htouches⟩ := (hhung.indexed ho (Or.inl hbound)).unlink hid
          obtain ⟨o', ho', rfl⟩ := Option.map_eq_some_iff.mp hx
          cases ho.symm.trans ho'
          exact h.setOverlaid ho (Or.inl hbound) hunlinked htouches

theorem Indexed.killBuffer {x : Outcome Workspace Unit} (h : w.Indexed)
    (hx : w.killBuffer b = some x) : x.state.Indexed := by
  unfold Workspace.killBuffer at hx
  obtain ⟨buf, hb, hx⟩ := Option.bind_eq_some_iff.mp hx
  obtain ⟨before, after, hhung⟩ := h.hung b
  have hchains := chainsOf_eq hb
  cases hbound : buf.overlays.arena with
  | none =>
      rw [hbound] at hx
      cases hx
      obtain ⟨-, -, rfl, rfl⟩ := hhung.of_free (hchains ▸ hbound)
      exact h.dropBuffer hhung
  | some a =>
      rw [hbound] at hx
      obtain ⟨y, hy, rfl⟩ := Option.map_eq_some_iff.mp hx
      obtain ⟨o, ho, rfl⟩ := Option.map_eq_some_iff.mp hy
      have hhome : w.IsHome a b := Or.inl (hchains ▸ hbound)
      obtain ⟨-, hcleared, htouches⟩ := (hhung.indexed ho hhome).clear
      exact (h.setOverlaid ho hhome hcleared htouches).dropBuffer
        (hhung.setOverlaid ho hhome hcleared)

/-! ## Runs -/

/-- The workspace after a command, whether or not a fault stopped it. -/
def step (w : Workspace) (k : Command) : Workspace :=
  match w.run k with
  | some o => o.state
  | none => w

/-- What callers promise: overlays are linked only when they are made, and the chains of a buffer
are walked in its own arena. -/
def Allowed (w : Workspace) : Command → Prop
  | .linkOverlay _ _ _ => False
  | .deleteAll a b => w.IsHome a b
  | .recenter a b _ => w.IsHome a b
  | _ => True

instance (w : Workspace) : (k : Command) → Decidable (w.Allowed k)
  | .linkOverlay _ _ _ => inferInstanceAs (Decidable False)
  | .deleteAll a b => inferInstanceAs (Decidable (w.IsHome a b))
  | .recenter a b _ => inferInstanceAs (Decidable (w.IsHome a b))
  | .register _ | .testLocal _ _ | .setLocal _ _ _ | .resetLocal _ | .setMarker _ _ _
  | .newBuffer _ | .killBuffer _ | .edit _ _ | .makeOverlay _ _ _ _ _ | .deleteOverlay _ _
  | .putProperty _ _ _ _ | .reclaim _ => inferInstanceAs (Decidable True)

theorem Indexed.run {k : Command} {x : Outcome Workspace Answer} (h : w.Indexed)
    (hk : w.Allowed k) (hx : w.run k = some x) : x.state.Indexed := by
  cases k with
  | register name =>
      cases hx
      exact h.congr (fun _ => rfl) fun _ => rfl
  | testLocal b index =>
      obtain ⟨buf, hb, rfl⟩ := Option.map_eq_some_iff.mp hx
      cases buf.flags.test w.slots index <;> exact h
  | setLocal b index value =>
      obtain ⟨y, hy, rfl⟩ := Option.map_eq_some_iff.mp hx
      unfold Workspace.setLocal at hy
      obtain ⟨buf, hb, hy⟩ := Option.bind_eq_some_iff.mp hy
      split at hy
      · cases hy
        exact h
      · cases hy
        exact h.setBuffer hb rfl
  | resetLocal b =>
      obtain ⟨buf, hb, rfl⟩ := Option.map_eq_some_iff.mp hx
      exact h.setBuffer hb rfl
  | setMarker m b p =>
      cases hx
      exact h.congr (fun _ => rfl) fun _ => rfl
  | newBuffer multibyte =>
      cases hx
      exact h.congr (fun _ => rfl) fun b => chainsOf_addBuffer w multibyte b
  | killBuffer b =>
      obtain ⟨y, hy, rfl⟩ := Option.map_eq_some_iff.mp hx
      exact h.killBuffer hy
  | edit b c =>
      obtain ⟨buf, hb, rfl⟩ := Option.map_eq_some_iff.mp hx
      cases hrun : buf.run c with
      | error e => exact h
      | ok y => exact h.setBuffer hb (Buffer.overlays_run hrun)
  | makeOverlay a b p q props =>
      obtain ⟨y, hy, rfl⟩ := Option.map_eq_some_iff.mp hx
      exact h.makeOverlay hy
  | linkOverlay a b id => exact hk.elim
  | deleteOverlay a id =>
      obtain ⟨y, hy, rfl⟩ := Option.map_eq_some_iff.mp hx
      exact h.deleteOverlay hy
  | putProperty a id name value =>
      obtain ⟨arena, ha, rfl⟩ := Option.map_eq_some_iff.mp hx
      exact h.setArena ha ((h.proper a arena ha).putProperty id name value) fun b =>
        arena.sameFor_putProperty b id name value
  | deleteAll a b =>
      obtain ⟨y, hy, rfl⟩ := Option.map_eq_some_iff.mp hx
      show y.state.Indexed
      refine h.onOverlaid hk (fun o before after ho => ?_) hy
      obtain ⟨-, hindexed, htouches⟩ := ho.clear
      exact ⟨_, _, hindexed, htouches⟩
  | recenter a b p =>
      obtain ⟨y, hy, rfl⟩ := Option.map_eq_some_iff.mp hx
      show y.state.Indexed
      refine h.onOverlaid hk (fun o before after ho => ?_) hy
      obtain ⟨-, hindexed, htouches⟩ := ho.recenter p
      exact ⟨_, _, hindexed, htouches⟩
  | reclaim a =>
      obtain ⟨arena, ha, rfl⟩ := Option.map_eq_some_iff.mp hx
      exact h.setArena ha (h.proper a arena ha).reclaim arena.sameFor_reclaim

theorem Indexed.step {k : Command} (h : w.Indexed) (hk : w.Allowed k) : (w.step k).Indexed := by
  unfold Workspace.step
  split
  · rename_i x hx
    exact h.run hk hx
  · exact h

theorem indexed_start (multibyte : Bool) (arenas markers : Nat) :
    (start multibyte arenas markers).Indexed := by
  have hchains : ∀ b, (start multibyte arenas markers).chainsOf b = {} := by
    intro b
    unfold chainsOf
    cases hb : (start multibyte arenas markers).buffer? b with
    | none => rfl
    | some buf =>
        cases b with
        | zero =>
            cases hb
            rfl
        | succ b => cases hb
  have harena : ∀ a arena, (start multibyte arenas markers).arena? a = some arena →
      arena = {} := by
    intro a arena ha
    obtain ⟨_, rfl⟩ := Array.getElem?_eq_some_iff.mp ha
    exact Array.getElem_replicate _
  constructor
  · intro a arena ha
    rw [harena a arena ha]
    exact Arena.proper_empty
  · intro b
    refine ⟨[], [], ?_, ?_, ?_⟩
    · rw [home_of_free ((hchains b).symm ▸ rfl), hchains b]
      exact Arena.holds_nil rfl rfl (Arena.ofBuffer_empty b)
    · intro a arena ha _
      rw [harena a arena ha]
      exact Arena.ofBuffer_empty b
    · intro a hbound
      rw [hchains b] at hbound
      cases hbound

theorem indexed_run {multibyte : Bool} {arenas markers : Nat} (ks : List Command)
    (h : Along step Allowed (start multibyte arenas markers) ks) :
    (ks.foldl step (start multibyte arenas markers)).Indexed :=
  Along.invariant (fun _ _ hw hk => Indexed.step hw hk) ks
    (indexed_start multibyte arenas markers) h

/-- The walks along the chains of a buffer see all that hangs there. -/
theorem Hung.chains_eq (h : w.Hung b before after) :
    (w.home b).chains (w.chainsOf b) = .ok (before, after) := by
  unfold Arena.chains
  rw [h.holds.before_leads.chain_eq, h.holds.after_leads.chain_eq]
  rfl

/-- What hangs on the chains of a buffer is in its own arena and lies in the buffer. -/
theorem Hung.exists_record {id : Int} (h : w.Hung b before after) (hw : w.Indexed)
    (hid : id ∈ before ++ after) :
    ∃ a r, (w.chainsOf b).arena = some a ∧ w.arena? a = some (w.home b) ∧
      (w.home b).find? id = some r ∧ r.start.buffer = some b ∧ r.stop.buffer = some b ∧
      r.start.place.char ≤ r.stop.place.char := by
  cases hbound : (w.chainsOf b).arena with
  | none =>
      obtain ⟨-, -, rfl, rfl⟩ := h.of_free hbound
      cases hid
  | some a =>
      obtain ⟨arena, ha⟩ := h.bound a hbound
      obtain ⟨r, hr, hb⟩ := (h.holds.ofBuffer id).mp hid
      rw [home_of_bound hbound ha] at hr ⊢
      obtain ⟨hstop, hle⟩ := (hw.proper a arena ha id r hr).attached b hb
      exact ⟨a, r, rfl, ha, hr, hb, hstop, hle⟩

/-- No overlay hangs on the chains of two buffers. -/
theorem Hung.disjoint (h : w.Hung b before after) (h' : w.Hung b' before' after') (hne : b' ≠ b)
    (harena : (w.chainsOf b').arena = (w.chainsOf b).arena) :
    ∀ id ∈ before ++ after, id ∉ before' ++ after' := by
  intro id hid hid'
  obtain ⟨r, hr, hb⟩ := (h.holds.ofBuffer id).mp hid
  obtain ⟨r', hr', hb'⟩ := (h'.holds.ofBuffer id).mp hid'
  rw [home_congr harena] at hr'
  cases hr.symm.trans hr'
  exact hne (Option.some.inj (hb'.symm.trans hb))

/-- **The overlays of several buffers in several arenas.** After any run, the two chains of every
buffer come to an end. They hold, each once, the records of the buffer's arena whose start lies in
the buffer; no other arena has such records, and no other buffer of this arena holds one of them.
Both ends of these lie in the buffer, in order, and those that end before the center are on the
first chain, all others on the second. A record that points into no buffer points nowhere at all and
hangs on no chain. -/
theorem index_run (multibyte : Bool) (arenas markers : Nat) (ks : List Command)
    (h : Along step Allowed (start multibyte arenas markers) ks) :
    let w := ks.foldl step (start multibyte arenas markers)
    (∀ b buf, w.buffer? b = some buf →
      let home := w.home b
      let l := buf.overlays
      ∃ before after,
        (home.Leads l.before before ∧ home.Leads l.after after ∧
          home.chains l = .ok (before, after)) ∧
        (before ++ after).Nodup ∧
        (∀ id ∈ before ++ after, ∃ a r, l.arena = some a ∧ w.arena? a = some home ∧
          home.find? id = some r ∧ r.start.buffer = some b ∧ r.stop.buffer = some b ∧
          r.start.place.char ≤ r.stop.place.char) ∧
        (∀ a arena id r, w.arena? a = some arena → arena.find? id = some r →
          (r.start.buffer = some b ↔ l.arena = some a ∧ id ∈ before ++ after)) ∧
        (∀ id ∈ before, home.stopChar id < l.center) ∧
        (∀ id ∈ after, l.center ≤ home.stopChar id) ∧
        ∀ b' buf' before' after', b' ≠ b → w.buffer? b' = some buf' →
          buf'.overlays.arena = l.arena → home.chains buf'.overlays = .ok (before', after') →
          ∀ id ∈ before ++ after, id ∉ before' ++ after') ∧
    ∀ a arena id r, w.arena? a = some arena → arena.find? id = some r →
      (r.start.buffer = none → r.start = .nowhere ∧ r.stop = .nowhere ∧ r.next = none) ∧
      ∀ b, r.start.buffer = some b → ∃ buf, w.buffer? b = some buf := by
  intro w
  have hw : w.Indexed := indexed_run ks h
  constructor
  · intro b buf hb home l
    obtain ⟨before, after, hhung⟩ := hw.hung b
    obtain ⟨hbefore, hafter, -, hlt, hge⟩ := hhung.holds
    have hnodup := hhung.holds.nodup
    have hl : l = w.chainsOf b := (chainsOf_eq hb).symm
    clear_value l
    subst hl
    refine ⟨before, after, ⟨hbefore, hafter, hhung.chains_eq⟩, hnodup,
      fun id hid => hhung.exists_record hw hid, fun a arena id r ha hr => hhung.mem_iff ha hr,
      hlt, hge, ?_⟩
    intro b' buf' before' after' hne hb' harena hchains
    obtain ⟨before₁, after₁, hhung'⟩ := hw.hung b'
    rw [← chainsOf_eq hb'] at harena hchains
    -- the lists that a walk finds are those of the other buffer
    have heq := hhung'.chains_eq
    rw [home_congr harena] at heq
    cases heq.symm.trans hchains
    exact hhung.disjoint hhung' hne harena
  · intro a arena id r ha hr
    refine ⟨(hw.proper a arena ha id r hr).detached, fun b hself => ?_⟩
    obtain ⟨before, after, hhung⟩ := hw.hung b
    exact exists_buffer?_of_bound ((hhung.mem_iff ha hr).mp hself).1

/-- Two arenas and three buffers: overlays made with their bounds either way round and outside the
text, in the wrong arena, on both sides of a moved center; one deleted, one that never was, text
taken away under another; a buffer that goes, and an arena that is emptied. -/
theorem index_run_three_buffers :
    let ks : List Command :=
      [.edit 0 (.insert 1 [0x61, 0x62, 0x63, 0x64, 0x65, 0x66]), .newBuffer false,
        .edit 1 (.insert 1 [0x78, 0x79, 0x7A]), .makeOverlay 0 0 4 2 [], .makeOverlay 0 1 1 3 [],
        .makeOverlay 0 0 5 9 [], .makeOverlay 1 0 1 2 [], .newBuffer true,
        .makeOverlay 1 2 0 7 [], .recenter 0 0 5, .makeOverlay 0 0 1 2 [],
        .putProperty 0 3 [0x66] [0x67], .deleteOverlay 0 0, .deleteOverlay 0 17,
        .edit 0 (.delete 2 5), .makeOverlay 0 0 1 6 [], .killBuffer 2, .reclaim 1, .reclaim 0]
    let w := ks.foldl step (start true 2 0)
    Along step Allowed (start true 2 0) ks ∧
      (w.arenas.map (·.size)) = #[5, 0] ∧ w.buffer? 2 = none ∧
      ∃ buf, w.buffer? 0 = some buf ∧ buf.overlays.center = 5 ∧
        (w.home 0).Leads buf.overlays.before [3, 4] ∧ (w.home 0).Leads buf.overlays.after [2] ∧
        (∀ id ∈ [3, 4], (w.home 0).stopChar id < 5) ∧
        ∀ arena id r, w.arena? 0 = some arena → arena.find? id = some r →
          (r.start.buffer = some 0 ↔ id ∈ [3, 4, 2]) := by
  intro ks w
  have hks : Along step Allowed (start true 2 0) ks := by decide +kernel
  have hlive : (w.buffer? 0).isSome := by decide +kernel
  obtain ⟨buf, hb⟩ := Option.isSome_iff_exists.mp hlive
  obtain ⟨before, after, ⟨hbefore, hafter, hchains⟩, -, -, hmem, hlt, -⟩ :=
    (index_run true 2 0 ks hks).1 0 buf hb
  have hlists : (w.home 0).chains (w.chainsOf 0) = .ok ([3, 4], [2]) := by decide +kernel
  have hcenter : (w.chainsOf 0).center = 5 := by decide +kernel
  have harena : (w.chainsOf 0).arena = some 0 := by decide +kernel
  rw [chainsOf_eq hb] at hlists hcenter harena
  cases hchains.symm.trans hlists
  refine ⟨hks, by decide +kernel, by decide +kernel, buf, hb, hcenter, hbefore, hafter, ?_, ?_⟩
  · intro id hid
    exact hcenter ▸ hlt id hid
  · intro arena id r ha hr
    rw [hmem 0 arena id r ha hr, and_iff_right harena]
    rfl

end Workspace

end GapText
