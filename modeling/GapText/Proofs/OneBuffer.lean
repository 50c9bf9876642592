import GapText.Proofs.Index

/-!
# One buffer among several

A command about overlays concerns one buffer and the arena of its overlays, in which other buffers
may have theirs. `OnlyAt` says what this leaves alone: all other arenas and buffers, and what hangs
on the chains of every other buffer, also where its records are in the same arena. That is so since
no record names one of another buffer as the next on its chain.
-/

namespace GapText.Workspace

variable {w w' : Workspace} {a : ArenaId} {b : BufferId} {arena : Arena} {o o' : Overlaid}
  {before after before' after' : List Int}

/-! ## What hangs on the chains -/

/-- The overlays on both chains of a buffer, as they are found in its own arena. -/
def lists (w : Workspace) (b : BufferId) : Except Fault (List Int × List Int) :=
  (w.home b).chains (w.chainsOf b)

theorem Hung.lists_eq (h : w.Hung b before after) : w.lists b = .ok (before, after) := h.chains_eq

theorem Hung.unique (h : w.Hung b before after) (h' : w.Hung b before' after') :
    before' = before ∧ after' = after := by
  cases h'.lists_eq.symm.trans h.lists_eq
  exact ⟨rfl, rfl⟩

/-- What a walk along the chains finds is all that hangs there. -/
theorem Indexed.hung_of_chains (h : w.Indexed) (ho : w.overlaid? a b = some o)
    (hhome : w.IsHome a b) (hchains : o.chains = .ok (before, after)) : w.Hung b before after := by
  obtain ⟨before', after', hhung⟩ := h.hung b
  cases (hhung.indexed ho hhome).chains_eq.symm.trans hchains
  exact hhung

/-- An overlay and the one behind it are of one buffer. -/
theorem Indexed.exists_hung_of_next {id next : Int} {r : Overlay} (h : w.Indexed)
    (ha : w.arena? a = some arena) (hr : arena.find? id = some r) (hnext : r.next = some next) :
    ∃ b before after, w.Hung b before after ∧ id ∈ before ++ after ∧
      ∃ r', arena.find? next = some r' ∧ r'.start.buffer = some b := by
  cases hb : r.start.buffer with
  | none =>
      obtain ⟨-, -, hnone⟩ := (h.proper a arena ha id r hr).detached hb
      cases hnone.symm.trans hnext
  | some b =>
      obtain ⟨before, after, hhung⟩ := h.hung b
      obtain ⟨hbound, hid⟩ := (hhung.mem_iff ha hr).mp hb
      have hholds := hhung.holds
      rw [home_of_bound hbound ha] at hholds
      -- what is behind it hangs on the same chain
      have hmem : next ∈ before ++ after := by
        rcases List.mem_append.mp hid with hid | hid
        · obtain ⟨pre, post, rfl⟩ := List.append_of_mem hid
          have hhead := (hholds.before_leads.next_eq hr).symm.trans hnext
          simp [List.mem_of_mem_head? hhead]
        · obtain ⟨pre, post, rfl⟩ := List.append_of_mem hid
          have hhead := (hholds.after_leads.next_eq hr).symm.trans hnext
          simp [List.mem_of_mem_head? hhead]
      exact ⟨b, before, after, hhung, hid, (hholds.ofBuffer next).mp hmem⟩

/-! ## What is left alone -/

/-- Only one arena and one buffer differ, and what hangs on the chains of the other buffers is the
same. -/
structure OnlyAt (a : ArenaId) (b : BufferId) (w w' : Workspace) : Prop where
  slots_eq : w'.slots = w.slots
  markers_eq : w'.markers = w.markers
  arenas : ∀ a', a' ≠ a → w'.arena? a' = w.arena? a'
  buffers : ∀ b', b' ≠ b → w'.buffer? b' = w.buffer? b'
  lists : ∀ b', b' ≠ b → w'.lists b' = w.lists b'

theorem onlyAt_setOverlaid (h : w.Indexed) (ho : w.overlaid? a b = some o)
    (htouches : Arena.Touches b o.arena o'.arena) : OnlyAt a b w (w.setOverlaid a b o') where
  slots_eq := rfl
  markers_eq := rfl
  arenas := fun a' hne => by rw [arena?_setOverlaid ho, if_neg (Ne.symm hne)]
  buffers := fun b' hne =>
    (buffer?_setBuffer (w := w.setArena a o'.arena) (overlaid?_eq_some.mp ho).2 o'.buffer b').trans
      (if_neg (Ne.symm hne))
  lists := by
    intro b' hne
    obtain ⟨before, after, hhung⟩ := h.hung b'
    rw [(hhung.of_spares (spares_setOverlaid ho htouches hne)).lists_eq, hhung.lists_eq]

theorem onOverlaid_eq {α : Type} {f : Overlaid → Outcome Overlaid α}
    (ho : w.overlaid? a b = some o) :
    w.onOverlaid a b f = some ((f o).within (w.setOverlaid a b)) := by
  unfold onOverlaid
  rw [ho]
  rfl

end GapText.Workspace
