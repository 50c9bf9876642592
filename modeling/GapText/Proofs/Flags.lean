import GapText.Proofs.Deletion
import Mathlib.Data.List.Induction

/-!
# Local flags as maps

The flags of a buffer are a list that is no longer than the slot table was when one of them was last
set, so lists of different lengths stand beside one table that grows. Read through the table each of
them is a total map: a flag has the value that was last assigned to it since the flags of its buffer
were reset (`LastAssigned`), and is not set where there was none. Registering is all that changes
the table, and assigning and resetting are all that changes flags (`KeepsFlags`), so what an
induction over a run has to look at are these commands and the one that makes a buffer.
-/

namespace GapText

/-! ## The table -/

namespace Slots

variable {t : Slots} {name : Bytes} {i : Nat}

theorem index?_eq_some_iff (h : t.names.Nodup) :
    t.index? name = some i ↔ t.names[i]? = some name := by
  unfold index? List.idxOf?
  rw [List.findIdx?_eq_some_iff_getElem, List.getElem?_eq_some_iff]
  constructor
  · rintro ⟨hi, hname, -⟩
    exact ⟨hi, beq_iff_eq.mp hname⟩
  · rintro ⟨hi, rfl⟩
    refine ⟨hi, beq_self_eq_true _, fun j hj heq => ?_⟩
    exact absurd (h.getElem_inj_iff.mp (beq_iff_eq.mp heq)) (Nat.ne_of_lt hj)

/-- A name that was given an index keeps it when others come behind it. -/
theorem index?_of_isPrefix {t' : Slots} (h : t'.names.Nodup) (hpre : t.names <+: t'.names)
    (hi : t.index? name = some i) : t'.index? name = some i := by
  have hnodup : t.names.Nodup := h.sublist hpre.sublist
  have hname := (index?_eq_some_iff hnodup).mp hi
  obtain ⟨lt, -⟩ := List.getElem?_eq_some_iff.mp hname
  obtain ⟨more, hmore⟩ := hpre
  rw [index?_eq_some_iff h, ← hmore, List.getElem?_append_left lt]
  exact hname

theorem exists_name (h : t.names.Nodup) (hi : i < t.count) :
    ∃ name, t.name i = .ok name ∧ t.index? name = some i := by
  have hname : t.names[i]? = some t.names[i] := List.getElem?_eq_getElem hi
  refine ⟨t.names[i], ?_, (index?_eq_some_iff h).mpr hname⟩
  unfold Slots.name
  rw [if_pos (Int.natCast_nonneg i), Int.toNat_natCast, hname]

theorem register_of_mem (h : name ∈ t.names) : t.register name = .stop t (.slotTaken name) :=
  if_pos (List.isSome_idxOf?.mpr h)

theorem register_of_not_mem (h : name ∉ t.names) :
    t.register name =
      .done ⟨t.names ++ [name]⟩ t.count [.slotRegistered name t.count] :=
  if_neg fun hsome => h (List.isSome_idxOf?.mp hsome)

theorem isPrefix_register (t : Slots) (name : Bytes) :
    t.names <+: (t.register name).state.names := by
  by_cases h : name ∈ t.names
  · rw [register_of_mem h]
    exact List.prefix_rfl
  · rw [register_of_not_mem h]
    exact List.prefix_append _ _

theorem nodup_register (h : t.names.Nodup) (name : Bytes) :
    (t.register name).state.names.Nodup := by
  by_cases hname : name ∈ t.names
  · rw [register_of_mem hname]
    exact h
  · rw [register_of_not_mem hname]
    exact List.concat_eq_append ▸ h.concat hname

end Slots

/-! ## The flags of one buffer -/

namespace LocalFlags

variable {t : Slots} {f : LocalFlags} {index : Int}

/-- The value of a slot's flag, which is zero where the list does not reach. -/
def value (f : LocalFlags) (slot : Nat) : Int8 := f.values.getD slot 0

theorem lt_length_of_value {slot : Nat} (h : f.value slot ≠ 0) : slot < f.values.length := by
  by_contra hge
  refine h ?_
  rw [value, List.getD_eq_getElem?_getD, List.getElem?_eq_none (Nat.le_of_not_lt hge)]
  rfl

/-- The places that are added hold what is read where there are none. -/
theorem value_grown (values : List Int8) (n slot : Nat) :
    value ⟨values ++ List.replicate n 0⟩ slot = value ⟨values⟩ slot := by
  unfold value
  rw [List.getD_eq_getElem?_getD, List.getD_eq_getElem?_getD, List.getElem?_append]
  split
  · rfl
  · rename_i hslot
    rw [List.getElem?_eq_none (Nat.le_of_not_lt hslot), List.getElem?_replicate]
    split <;> rfl

theorem value_set {values : List Int8} {slot : Nat} (h : slot < values.length) (v : Int8)
    (other : Nat) :
    value ⟨values.set slot v⟩ other = if other = slot then v else value ⟨values⟩ other := by
  unfold value
  rw [List.getD_eq_getElem?_getD, List.getD_eq_getElem?_getD, List.getElem?_set]
  by_cases heq : slot = other
  · rw [if_pos heq, if_pos h, if_pos heq.symm]
    rfl
  · rw [if_neg heq, if_neg (Ne.symm heq)]

/-- A flag that is given a value has it, and all others keep theirs, also when the list grows. -/
theorem value_put (f : LocalFlags) {count slot : Nat} (h : slot < count) (v : Int8) (other : Nat) :
    (f.put count slot v).value other = if other = slot then v else f.value other := by
  unfold put
  split
  · rename_i hslot
    exact value_set hslot v other
  · rename_i hslot
    rw [value_set _ v other, value_grown]
    rw [List.length_append, List.length_replicate]
    omega

theorem length_put_le {count slot : Nat} (h : f.values.length ≤ count) (v : Int8) :
    (f.put count slot v).values.length ≤ count := by
  unfold put
  split
  · rw [List.length_set]
    exact h
  · rw [List.length_set, List.length_append, List.length_replicate]
    omega

theorem test_of_inside (f : LocalFlags) (h : 0 ≤ index ∧ index < t.count) :
    f.test t index = .ok (f.value index.toNat != 0) := by
  unfold test Slots.slot
  rw [if_pos h]
  rfl

theorem test_of_outside (f : LocalFlags) (h : ¬ (0 ≤ index ∧ index < t.count)) :
    f.test t index = .error (.flagOutOfRange .test index t.count) := by
  unfold test Slots.slot
  rw [if_neg h]
  rfl

theorem assign_of_inside (f : LocalFlags) (h : 0 ≤ index ∧ index < t.count) (v : Int8) :
    f.assign t index v = .ok (f.put t.count index.toNat v) := by
  unfold assign Slots.slot
  rw [if_pos h]
  rfl

theorem assign_of_outside (f : LocalFlags) (h : ¬ (0 ≤ index ∧ index < t.count)) (v : Int8) :
    f.assign t index v = .error (.flagOutOfRange .assign index t.count) := by
  unfold assign Slots.slot
  rw [if_neg h]
  rfl

/-- What a test finds after an assignment. -/
theorem test_put (f : LocalFlags) (h : 0 ≤ index ∧ index < t.count) (v : Int8) (other : Int) :
    (f.put t.count index.toNat v).test t other =
      if other = index then .ok (v != 0) else f.test t other := by
  by_cases hother : 0 ≤ other ∧ other < t.count
  · rw [test_of_inside _ hother, test_of_inside _ hother, value_put f (by omega)]
    by_cases heq : other = index
    · rw [if_pos heq, if_pos (by rw [heq])]
    · rw [if_neg heq, if_neg (by omega)]
  · rw [test_of_outside _ hother, test_of_outside _ hother, if_neg (by rintro rfl; exact hother h)]

end LocalFlags

/-! ## Overlays leave the flags alone -/

namespace Overlaid

theorem flags_link (o : Overlaid) (id : Int) :
    (o.link id).state.buffer.flags = o.buffer.flags := by
  obtain ⟨l, hl⟩ := buffer_link o id
  rw [hl]

theorem flags_make (o : Overlaid) (b : BufferId) (home : ArenaId) (p q : Int)
    (props : Properties) : (o.make b home p q props).state.buffer.flags = o.buffer.flags := by
  obtain ⟨l, hl⟩ := buffer_make o b home p q props
  rw [hl]

theorem flags_unlink (o : Overlaid) (id : Int) :
    (o.unlink id).state.buffer.flags = o.buffer.flags := by
  unfold unlink
  dsimp only
  split <;> rfl

theorem flags_clear (o : Overlaid) : o.clear.state.buffer.flags = o.buffer.flags := by
  unfold clear Outcome.andThen
  dsimp only
  split
  · split <;> rfl
  · rfl

theorem flags_recenter (o : Overlaid) (p : Int) :
    (o.recenter p).state.buffer.flags = o.buffer.flags := by
  unfold recenter
  dsimp only
  split
  · rfl
  · split <;> rfl

end Overlaid

/-! ## Commands -/

namespace Workspace

variable {w w' w'' : Workspace} {a : ArenaId} {b : BufferId} {buf : Buffer} {i : Int} {v : Int8}
  {k : Command} {ks : List Command}

/-- The table stays, and so do the flags of all buffers that do. -/
structure KeepsFlags (w w' : Workspace) : Prop where
  slots_eq : w'.slots = w.slots
  size_eq : w'.buffers.size = w.buffers.size
  flags : ∀ b buf', w'.buffer? b = some buf' →
    ∃ buf, w.buffer? b = some buf ∧ buf'.flags = buf.flags

theorem KeepsFlags.refl (w : Workspace) : KeepsFlags w w := ⟨rfl, rfl, fun _ buf h => ⟨buf, h, rfl⟩⟩

theorem KeepsFlags.trans (h : KeepsFlags w w') (h' : KeepsFlags w' w'') : KeepsFlags w w'' where
  slots_eq := h'.slots_eq.trans h.slots_eq
  size_eq := h'.size_eq.trans h.size_eq
  flags := by
    intro b buf'' hb''
    obtain ⟨buf', hb', hflags'⟩ := h'.flags b buf'' hb''
    obtain ⟨buf, hb, hflags⟩ := h.flags b buf' hb'
    exact ⟨buf, hb, hflags'.trans hflags⟩

theorem keepsFlags_setBuffer {buf' : Buffer} (hb : w.buffer? b = some buf)
    (hflags : buf'.flags = buf.flags) : KeepsFlags w (w.setBuffer b buf') where
  slots_eq := rfl
  size_eq := Array.size_setIfInBounds
  flags := by
    intro c found hc
    rw [buffer?_setBuffer hb] at hc
    split at hc
    · rename_i heq
      cases hc
      exact ⟨buf, heq ▸ hb, hflags⟩
    · exact ⟨found, hc, rfl⟩

theorem keepsFlags_dropBuffer (w : Workspace) (b : BufferId) : KeepsFlags w (w.dropBuffer b) where
  slots_eq := rfl
  size_eq := Array.size_setIfInBounds
  flags := by
    intro c found hc
    rw [buffer?_dropBuffer] at hc
    split at hc
    · cases hc
    · exact ⟨found, hc, rfl⟩

theorem keepsFlags_onOverlaid {α : Type} {f : Overlaid → Outcome Overlaid α}
    {x : Outcome Workspace α} (hf : ∀ o, (f o).state.buffer.flags = o.buffer.flags)
    (hx : w.onOverlaid a b f = some x) : KeepsFlags w x.state := by
  obtain ⟨o, ho, rfl⟩ := Option.map_eq_some_iff.mp hx
  obtain ⟨slots_eq, size_eq, flags⟩ := keepsFlags_setBuffer (w := w.setArena a (f o).state.arena)
    (overlaid?_eq_some.mp ho).2 (hf o)
  exact ⟨slots_eq, size_eq, flags⟩

/-- Commands about the table and about flags, and the one that makes a buffer. -/
def concernsFlags : Command → Bool
  | .register _ | .setLocal _ _ _ | .resetLocal _ | .newBuffer _ => true
  | _ => false

theorem KeepsFlags.run {x : Outcome Workspace Answer} (hk : concernsFlags k = false)
    (hx : w.run k = some x) : KeepsFlags w x.state := by
  cases k with
  | register name => cases hk
  | setLocal b i v => cases hk
  | resetLocal b => cases hk
  | newBuffer multibyte => cases hk
  | testLocal b i =>
      obtain ⟨buf, hb, rfl⟩ := Option.map_eq_some_iff.mp hx
      cases buf.flags.test w.slots i <;> exact KeepsFlags.refl w
  | setMarker m b p =>
      cases hx
      exact ⟨rfl, rfl, fun _ buf h => ⟨buf, h, rfl⟩⟩
  | killBuffer b =>
      obtain ⟨y, hy, rfl⟩ := Option.map_eq_some_iff.mp hx
      obtain ⟨buf, hb, hy⟩ := Option.bind_eq_some_iff.mp hy
      split at hy
      · cases hy
        exact keepsFlags_dropBuffer w b
      · obtain ⟨z, hz, rfl⟩ := Option.map_eq_some_iff.mp hy
        exact (keepsFlags_onOverlaid Overlaid.flags_clear hz).trans (keepsFlags_dropBuffer _ b)
  | edit b c =>
      obtain ⟨buf, hb, rfl⟩ := Option.map_eq_some_iff.mp hx
      cases hrun : buf.run c with
      | error e => exact KeepsFlags.refl w
      | ok y =>
          exact keepsFlags_setBuffer hb (congrArg (fun x => x.2.1) (Buffer.trappings_run hrun))
  | makeOverlay a b p q props =>
      obtain ⟨y, hy, rfl⟩ := Option.map_eq_some_iff.mp hx
      show KeepsFlags w y.state
      exact keepsFlags_onOverlaid (fun o => o.flags_make b a p q props) hy
  | linkOverlay a b id =>
      obtain ⟨y, hy, rfl⟩ := Option.map_eq_some_iff.mp hx
      show KeepsFlags w y.state
      exact keepsFlags_onOverlaid (fun o => o.flags_link id) hy
  | deleteOverlay a id =>
      obtain ⟨y, hy, rfl⟩ := Option.map_eq_some_iff.mp hx
      obtain ⟨arena, ha, hy⟩ := Option.bind_eq_some_iff.mp hy
      split at hy
      · cases hy
        exact KeepsFlags.refl w
      · split at hy
        · cases hy
          exact KeepsFlags.refl w
        · show KeepsFlags w y.state
          exact keepsFlags_onOverlaid (fun o => o.flags_unlink id) hy
  | putProperty a id name value =>
      obtain ⟨arena, ha, rfl⟩ := Option.map_eq_some_iff.mp hx
      exact ⟨rfl, rfl, fun _ buf h => ⟨buf, h, rfl⟩⟩
  | deleteAll a b =>
      obtain ⟨y, hy, rfl⟩ := Option.map_eq_some_iff.mp hx
      show KeepsFlags w y.state
      exact keepsFlags_onOverlaid Overlaid.flags_clear hy
  | recenter a b p =>
      obtain ⟨y, hy, rfl⟩ := Option.map_eq_some_iff.mp hx
      show KeepsFlags w y.state
      exact keepsFlags_onOverlaid (fun o => o.flags_recenter p) hy
  | reclaim a =>
      obtain ⟨arena, ha, rfl⟩ := Option.map_eq_some_iff.mp hx
      exact ⟨rfl, rfl, fun _ buf h => ⟨buf, h, rfl⟩⟩

theorem keepsFlags_step (w : Workspace) (hk : concernsFlags k = false) :
    KeepsFlags w (w.step k) := by
  unfold step
  split
  · rename_i x hx
    exact KeepsFlags.run hk hx
  · exact KeepsFlags.refl w

/-! ### The commands about flags -/

theorem run_testLocal (hb : w.buffer? b = some buf) (i : Int) :
    w.run (.testLocal b i) = some (.read w ((buf.flags.test w.slots i).map .flag)) := by
  simp only [run, hb, Option.map_some]

theorem run_setLocal_of_inside (hb : w.buffer? b = some buf) (hi : 0 ≤ i ∧ i < w.slots.count)
    (v : Int8) :
    w.run (.setLocal b i v) = some (.done (w.setBuffer b
      { buf with flags := buf.flags.put w.slots.count i.toNat v }) .done) := by
  simp only [run, setLocal, hb, Option.bind_eq_bind, Option.bind_some,
    LocalFlags.assign_of_inside _ hi]
  rfl

theorem run_setLocal_of_outside (hb : w.buffer? b = some buf)
    (hi : ¬ (0 ≤ i ∧ i < w.slots.count)) (v : Int8) :
    w.run (.setLocal b i v) = some (.stop w (.flagOutOfRange .assign i w.slots.count)) := by
  simp only [run, setLocal, hb, Option.bind_eq_bind, Option.bind_some,
    LocalFlags.assign_of_outside _ hi]
  rfl

theorem run_setLocal_of_gone (hb : w.buffer? b = none) (i : Int) (v : Int8) :
    w.run (.setLocal b i v) = none := by
  simp only [run, setLocal, hb, Option.bind_eq_bind, Option.bind_none, Option.map_none]

/-- An assignment goes through for a slot of the table and a buffer that is there. -/
theorem succeeds_setLocal_iff :
    Succeeds w (.setLocal b i v) ↔ (∃ buf, w.buffer? b = some buf) ∧ 0 ≤ i ∧ i < w.slots.count := by
  constructor
  · rintro ⟨answer, events, hrun⟩
    cases hb : w.buffer? b with
    | none =>
        rw [run_setLocal_of_gone hb] at hrun
        cases hrun
    | some buf =>
        refine ⟨⟨buf, rfl⟩, ?_⟩
        by_contra hi
        rw [run_setLocal_of_outside hb hi] at hrun
        cases congrArg (Option.map Outcome.result) hrun
  · rintro ⟨⟨buf, hb⟩, hi⟩
    exact succeeds_of_run (run_setLocal_of_inside hb hi v)

theorem step_newBuffer (w : Workspace) (multibyte : Bool) :
    w.step (.newBuffer multibyte) = w.addBuffer multibyte := rfl

theorem step_resetLocal (hb : w.buffer? b = some buf) :
    w.step (.resetLocal b) = w.setBuffer b { buf with flags := {} } := by
  unfold step
  simp only [run, hb, Option.map_some]
  rfl

theorem step_resetLocal_of_gone (hb : w.buffer? b = none) : w.step (.resetLocal b) = w := by
  unfold step
  simp only [run, hb, Option.map_none]

theorem step_setLocal_of_inside (hb : w.buffer? b = some buf) (hi : 0 ≤ i ∧ i < w.slots.count)
    (v : Int8) :
    w.step (.setLocal b i v) = w.setBuffer b
      { buf with flags := buf.flags.put w.slots.count i.toNat v } :=
  step_of_run (run_setLocal_of_inside hb hi v)

theorem step_setLocal_of_not_succeeds (h : ¬ Succeeds w (.setLocal b i v)) :
    w.step (.setLocal b i v) = w := by
  unfold step
  cases hb : w.buffer? b with
  | none => rw [run_setLocal_of_gone hb]
  | some buf =>
      have hi : ¬ (0 ≤ i ∧ i < w.slots.count) :=
        fun hi => h (succeeds_setLocal_iff.mpr ⟨⟨buf, hb⟩, hi⟩)
      rw [run_setLocal_of_outside hb hi]
      rfl

/-! ## Runs -/

/-- The table only grows, and numbers of buffers are not used again. -/
structure Grows (w w' : Workspace) : Prop where
  names : w.slots.names <+: w'.slots.names
  size_le : w.buffers.size ≤ w'.buffers.size

theorem grows_step (w : Workspace) (k : Command) : Grows w (w.step k) := by
  have hsize : ∀ (b : BufferId) (buf : Buffer), Grows w (w.setBuffer b buf) := fun b buf =>
    ⟨List.prefix_rfl, Nat.le_of_eq Array.size_setIfInBounds.symm⟩
  cases hk : concernsFlags k with
  | false =>
      have hkeeps := w.keepsFlags_step hk
      exact ⟨hkeeps.slots_eq ▸ List.prefix_rfl, Nat.le_of_eq hkeeps.size_eq.symm⟩
  | true =>
      cases k with
      | register name => exact ⟨w.slots.isPrefix_register name, Nat.le_refl _⟩
      | newBuffer multibyte =>
          rw [step_newBuffer]
          refine ⟨List.prefix_rfl, ?_⟩
          show _ ≤ (w.buffers.push _).size
          rw [Array.size_push]
          exact Nat.le_succ _
      | setLocal b i v =>
          by_cases hs : Succeeds w (.setLocal b i v)
          · obtain ⟨⟨buf, hb⟩, hi⟩ := succeeds_setLocal_iff.mp hs
            rw [step_setLocal_of_inside hb hi v]
            exact hsize _ _
          · rw [step_setLocal_of_not_succeeds hs]
            exact ⟨List.prefix_rfl, Nat.le_refl _⟩
      | resetLocal b =>
          cases hb : w.buffer? b with
          | none =>
              rw [step_resetLocal_of_gone hb]
              exact ⟨List.prefix_rfl, Nat.le_refl _⟩
          | some buf =>
              rw [step_resetLocal hb]
              exact hsize _ _
      | _ => cases hk

theorem grows_run (w : Workspace) (ks : List Command) : Grows w (ks.foldl step w) := by
  induction ks generalizing w with
  | nil => exact ⟨List.prefix_rfl, Nat.le_refl _⟩
  | cons k ks ih =>
      obtain ⟨hnames, hsize⟩ := w.grows_step k
      obtain ⟨hnames', hsize'⟩ := ih (w.step k)
      exact ⟨hnames.trans hnames', Nat.le_trans hsize hsize'⟩

/-- In a run from `s`, the last assignment to a flag that went through gave it this value, and the
flags of its buffer were not reset since. -/
def LastAssigned (s : Workspace) (ks : List Command) (b : BufferId) (i : Int) (v : Int8) : Prop :=
  ∃ earlier later, ks = earlier ++ .setLocal b i v :: later ∧
    Succeeds (earlier.foldl step s) (.setLocal b i v) ∧
    ∀ k ∈ later, k ≠ .resetLocal b ∧ ∀ v', k ≠ .setLocal b i v'

variable {s : Workspace}

theorem not_lastAssigned_nil : ¬ LastAssigned s [] b i v := by
  rintro ⟨earlier, later, heq, -⟩
  exact absurd heq (by simp)

theorem lastAssigned_append_singleton :
    LastAssigned s (ks ++ [k]) b i v ↔
      (k = .setLocal b i v ∧ Succeeds (ks.foldl step s) k) ∨
      (LastAssigned s ks b i v ∧ k ≠ .resetLocal b ∧ ∀ v', k ≠ .setLocal b i v') := by
  constructor
  · rintro ⟨earlier, later, heq, hsucceeds, hlater⟩
    rcases List.eq_nil_or_concat later with rfl | ⟨later, last, rfl⟩
    · obtain ⟨rfl, hk⟩ := List.append_inj' heq rfl
      cases hk
      exact Or.inl ⟨rfl, hsucceeds⟩
    · rw [List.concat_eq_append, ← List.cons_append, ← List.append_assoc] at heq
      obtain ⟨rfl, hk⟩ := List.append_inj' heq rfl
      cases hk
      rw [List.concat_eq_append] at hlater
      exact Or.inr ⟨⟨earlier, later, rfl, hsucceeds,
        fun k hk => hlater k (List.mem_append_left _ hk)⟩, hlater _ (by simp)⟩
  · rintro (⟨rfl, hsucceeds⟩ | ⟨⟨earlier, later, rfl, hsucceeds, hlater⟩, hk⟩)
    · exact ⟨ks, [], rfl, hsucceeds, fun k hk => absurd hk List.not_mem_nil⟩
    · refine ⟨earlier, later ++ [k], by simp, hsucceeds, fun k' hk' => ?_⟩
      rcases List.mem_append.mp hk' with hk' | hk'
      · exact hlater k' hk'
      · rw [List.mem_singleton.mp hk']
        exact hk

theorem lastAssigned_of_other (hreset : k ≠ .resetLocal b) (hset : ∀ v', k ≠ .setLocal b i v') :
    LastAssigned s (ks ++ [k]) b i v ↔ LastAssigned s ks b i v := by
  rw [lastAssigned_append_singleton]
  exact ⟨fun h => h.elim (fun h => absurd h.1 (hset v)) And.left, fun h => Or.inr ⟨h, hreset, hset⟩⟩

theorem lastAssigned_setLocal_self {u : Int8} :
    LastAssigned s (ks ++ [.setLocal b i u]) b i v ↔
      v = u ∧ Succeeds (ks.foldl step s) (.setLocal b i u) := by
  rw [lastAssigned_append_singleton]
  constructor
  · rintro (⟨heq, hsucceeds⟩ | ⟨-, -, hne⟩)
    · cases heq
      exact ⟨rfl, hsucceeds⟩
    · exact absurd rfl (hne u)
  · rintro ⟨rfl, hsucceeds⟩
    exact Or.inl ⟨rfl, hsucceeds⟩

theorem lastAssigned_setLocal_of_ne {c : BufferId} {j : Int} {u : Int8} (h : ¬ (b = c ∧ i = j)) :
    LastAssigned s (ks ++ [.setLocal c j u]) b i v ↔ LastAssigned s ks b i v := by
  refine lastAssigned_of_other Command.noConfusion fun v' heq => h ?_
  cases heq
  exact ⟨rfl, rfl⟩

theorem lastAssigned_resetLocal_self : ¬ LastAssigned s (ks ++ [.resetLocal b]) b i v := by
  rw [lastAssigned_append_singleton]
  rintro (⟨heq, -⟩ | ⟨-, hne, -⟩)
  · cases heq
  · exact hne rfl

theorem lastAssigned_resetLocal_of_ne {c : BufferId} (h : b ≠ c) :
    LastAssigned s (ks ++ [.resetLocal c]) b i v ↔ LastAssigned s ks b i v := by
  refine lastAssigned_of_other (fun heq => h ?_) fun _ => Command.noConfusion
  cases heq
  rfl

/-- A flag that was assigned to is that of a buffer that was there. -/
theorem LastAssigned.lt_size (h : LastAssigned s ks b i v) :
    b < (ks.foldl step s).buffers.size := by
  obtain ⟨earlier, later, rfl, hsucceeds, -⟩ := h
  obtain ⟨⟨buf, hb⟩, -⟩ := succeeds_setLocal_iff.mp hsucceeds
  have hgrows := grows_run (earlier.foldl step s) (.setLocal b i v :: later)
  rw [List.foldl_append]
  exact Nat.lt_of_lt_of_le (lt_of_buffer? hb) hgrows.size_le

/-- The flags of the buffers after a run from `s`. -/
structure Recorded (s : Workspace) (ks : List Command) (w : Workspace) : Prop where
  nodup : w.slots.names.Nodup
  short : ∀ b buf, w.buffer? b = some buf → buf.flags.values.length ≤ w.slots.count
  value_iff : ∀ b buf, w.buffer? b = some buf → ∀ (i : Int) (v : Int8), v ≠ 0 →
    (LastAssigned s ks b i v ↔ 0 ≤ i ∧ buf.flags.value i.toNat = v)

theorem Recorded.succeeds (h : Recorded s ks w) (hb : w.buffer? b = some buf) (hv : v ≠ 0)
    (hi : 0 ≤ i ∧ buf.flags.value i.toNat = v) (v' : Int8) : Succeeds w (.setLocal b i v') := by
  have hlt := LocalFlags.lt_length_of_value (hi.2 ▸ hv)
  have hshort := h.short b buf hb
  exact succeeds_setLocal_iff.mpr ⟨⟨buf, hb⟩, hi.1, by omega⟩

/-! ### One more command -/

theorem Recorded.of_keepsFlags (h : Recorded s ks w) (hk : concernsFlags k = false)
    (hkeeps : KeepsFlags w w') : Recorded s (ks ++ [k]) w' where
  nodup := hkeeps.slots_eq ▸ h.nodup
  short := by
    intro b buf' hb'
    obtain ⟨buf, hb, hflags⟩ := hkeeps.flags b buf' hb'
    rw [hflags, hkeeps.slots_eq]
    exact h.short b buf hb
  value_iff := by
    intro b buf' hb' i v hv
    obtain ⟨buf, hb, hflags⟩ := hkeeps.flags b buf' hb'
    rw [hflags, lastAssigned_of_other (by rintro rfl; cases hk) (by rintro v' rfl; cases hk)]
    exact h.value_iff b buf hb i v hv

theorem Recorded.register (h : Recorded s ks w) (name : Bytes) :
    Recorded s (ks ++ [.register name]) (w.step (.register name)) where
  nodup := w.slots.nodup_register h.nodup name
  short := fun b buf hb =>
    Nat.le_trans (h.short b buf hb) (w.slots.isPrefix_register name).length_le
  value_iff := by
    intro b buf hb i v hv
    rw [lastAssigned_of_other Command.noConfusion fun _ => Command.noConfusion]
    exact h.value_iff b buf hb i v hv

/-- The number of a new buffer is one that no assignment could have named. -/
theorem Recorded.newBuffer (h : Recorded s ks (ks.foldl Workspace.step s)) (multibyte : Bool) :
    Recorded s (ks ++ [.newBuffer multibyte])
      ((ks.foldl Workspace.step s).step (.newBuffer multibyte)) where
  nodup := h.nodup
  short := by
    intro b buf hb
    rw [step_newBuffer, buffer?_addBuffer] at hb
    split at hb
    · cases hb
      exact Nat.zero_le _
    · exact h.short b buf hb
  value_iff := by
    intro b buf hb i v hv
    rw [step_newBuffer, buffer?_addBuffer] at hb
    rw [lastAssigned_of_other Command.noConfusion fun _ => Command.noConfusion]
    split at hb
    · rename_i hnew
      cases hb
      constructor
      · intro hassigned
        exact absurd hnew (Nat.ne_of_lt hassigned.lt_size)
      · rintro ⟨-, hzero⟩
        exact absurd hzero.symm hv
    · exact h.value_iff b buf hb i v hv

theorem Recorded.setLocal (h : Recorded s ks (ks.foldl Workspace.step s)) (c : BufferId) (j : Int)
    (u : Int8) :
    Recorded s (ks ++ [.setLocal c j u]) ((ks.foldl Workspace.step s).step (.setLocal c j u)) := by
  by_cases hs : Succeeds (ks.foldl Workspace.step s) (.setLocal c j u)
  · obtain ⟨⟨old, hold⟩, hj⟩ := succeeds_setLocal_iff.mp hs
    rw [step_setLocal_of_inside hold hj u]
    constructor
    · exact h.nodup
    · intro b buf hb
      rw [buffer?_setBuffer hold] at hb
      split at hb
      · cases hb
        exact LocalFlags.length_put_le (h.short c old hold) u
      · exact h.short b buf hb
    · intro b buf hb i v hv
      rw [buffer?_setBuffer hold] at hb
      split at hb
      · rename_i heq
        subst heq
        cases hb
        dsimp only
        rw [LocalFlags.value_put _ (by omega)]
        by_cases hij : i = j
        · subst hij
          rw [lastAssigned_setLocal_self, if_pos rfl, and_iff_left hs, and_iff_right hj.1]
          exact eq_comm
        · rw [lastAssigned_setLocal_of_ne fun heq => hij heq.2, h.value_iff c old hold i v hv]
          exact and_congr_right fun hi => by rw [if_neg (by omega)]
      · rename_i hne
        rw [lastAssigned_setLocal_of_ne fun heq => hne heq.1.symm]
        exact h.value_iff b buf hb i v hv
  · rw [step_setLocal_of_not_succeeds hs]
    refine ⟨h.nodup, h.short, fun b buf hb i v hv => ?_⟩
    by_cases heq : b = c ∧ i = j
    · obtain ⟨rfl, rfl⟩ := heq
      rw [lastAssigned_setLocal_self]
      -- what is not in the table reads as zero
      exact iff_of_false (fun h => hs h.2) fun hi => hs (h.succeeds hb hv hi u)
    · rw [lastAssigned_setLocal_of_ne heq]
      exact h.value_iff b buf hb i v hv

theorem Recorded.resetLocal (h : Recorded s ks w) (c : BufferId) :
    Recorded s (ks ++ [.resetLocal c]) (w.step (.resetLocal c)) := by
  cases hc : w.buffer? c with
  | none =>
      rw [step_resetLocal_of_gone hc]
      refine ⟨h.nodup, h.short, fun b buf hb i v hv => ?_⟩
      rw [lastAssigned_resetLocal_of_ne (by rintro rfl; cases hc.symm.trans hb)]
      exact h.value_iff b buf hb i v hv
  | some old =>
      rw [step_resetLocal hc]
      constructor
      · exact h.nodup
      · intro b buf hb
        rw [buffer?_setBuffer hc] at hb
        split at hb
        · cases hb
          exact Nat.zero_le _
        · exact h.short b buf hb
      · intro b buf hb i v hv
        rw [buffer?_setBuffer hc] at hb
        split at hb
        · rename_i heq
          subst heq
          cases hb
          exact iff_of_false lastAssigned_resetLocal_self fun hi => hv hi.2.symm
        · rename_i hne
          rw [lastAssigned_resetLocal_of_ne (Ne.symm hne)]
          exact h.value_iff b buf hb i v hv

theorem Recorded.step (h : Recorded s ks (ks.foldl Workspace.step s)) (k : Command) :
    Recorded s (ks ++ [k]) ((ks.foldl Workspace.step s).step k) := by
  cases hk : concernsFlags k with
  | false => exact h.of_keepsFlags hk (keepsFlags_step _ hk)
  | true =>
      cases k with
      | register name => exact h.register name
      | newBuffer multibyte => exact h.newBuffer multibyte
      | setLocal c j u => exact h.setLocal c j u
      | resetLocal c => exact h.resetLocal c
      | _ => cases hk

theorem recorded_start (multibyte : Bool) (arenas markers : Nat) :
    Recorded (start multibyte arenas markers) [] (start multibyte arenas markers) := by
  have hflags : ∀ b buf, (start multibyte arenas markers).buffer? b = some buf →
      buf.flags = {} := by
    intro b buf hb
    cases b with
    | zero =>
        cases hb
        rfl
    | succ b => cases hb
  constructor
  · exact List.nodup_nil
  · intro b buf hb
    rw [hflags b buf hb]
    exact Nat.zero_le _
  · intro b buf hb i v hv
    rw [hflags b buf hb]
    exact iff_of_false not_lastAssigned_nil fun hi => hv hi.2.symm

theorem recorded_run (multibyte : Bool) (arenas markers : Nat) (ks : List Command) :
    Recorded (start multibyte arenas markers) ks
      (ks.foldl Workspace.step (start multibyte arenas markers)) := by
  induction ks using List.reverseRecOn with
  | nil => exact recorded_start multibyte arenas markers
  | append_singleton ks k ih =>
      rw [List.foldl_concat]
      exact ih.step k

/-! ### What is answered -/

/-- Whether a slot has a local value, as far as there is a buffer to ask. -/
def hasLocal (w : Workspace) (b : BufferId) (i : Int) : Option (Except Fault Bool) :=
  (w.buffer? b).map fun buf => buf.flags.test w.slots i

theorem hasLocal_setLocal (hb : w.buffer? b = some buf) (hi : 0 ≤ i ∧ i < w.slots.count) (v : Int8)
    (c : BufferId) (j : Int) :
    (w.setBuffer b { buf with flags := buf.flags.put w.slots.count i.toNat v }).hasLocal c j =
      if c = b ∧ j = i then some (.ok (v != 0)) else w.hasLocal c j := by
  unfold hasLocal
  rw [buffer?_setBuffer hb]
  by_cases hc : c = b
  · subst hc
    rw [if_pos rfl, hb, Option.map_some, Option.map_some]
    show some (LocalFlags.test _ w.slots j) = _
    rw [LocalFlags.test_put _ hi]
    split <;> rename_i hj
    · rw [if_pos ⟨rfl, hj⟩]
    · rw [if_neg fun h => hj h.2]
  · rw [if_neg (Ne.symm hc), if_neg fun h => hc h.1]
    rfl

theorem Recorded.test_iff (h : Recorded s ks w) (hb : w.buffer? b = some buf)
    (hi : 0 ≤ i ∧ i < w.slots.count) :
    (buf.flags.value i.toNat != 0) = true ↔ ∃ v, v ≠ 0 ∧ LastAssigned s ks b i v := by
  rw [bne_iff_ne]
  constructor
  · intro hv
    exact ⟨_, hv, (h.value_iff b buf hb i _ hv).mpr ⟨hi.1, rfl⟩⟩
  · rintro ⟨v, hv, hassigned⟩
    rw [((h.value_iff b buf hb i v hv).mp hassigned).2]
    exact hv

/-- **Flags are total maps over a table that grows.** After any run the names of the table are
distinct, each is found under its index, a name that is there is refused, and what has an index
keeps it through all that follows. A flag of a buffer that is there can be read and assigned exactly
for the slots of the table; otherwise both are refused and nothing changes. It is set exactly when
what was last assigned to it, since the flags of the buffer were reset, is not zero. Assigning to it
changes no other flag, of this buffer or another. -/
theorem flags_run (multibyte : Bool) (arenas markers : Nat) (ks : List Command) :
    let s := start multibyte arenas markers
    let w := ks.foldl step s
    let names := w.slots.names
    let count := w.slots.count
    (names.Nodup ∧
      (∀ i < count, ∃ name, w.slots.name i = .ok name ∧ w.slots.index? name = some i) ∧
      (∀ name ∈ names, w.run (.register name) = some (.stop w (.slotTaken name))) ∧
      (∀ name, name ∉ names → w.run (.register name) =
        some (.done { w with slots := ⟨names ++ [name]⟩ } (.number count)
          [.slotRegistered name count])) ∧
      ∀ ks' : List Command, let t := (ks'.foldl step w).slots
        names <+: t.names ∧ ∀ name i, w.slots.index? name = some i → t.index? name = some i) ∧
    ∀ b buf, w.buffer? b = some buf → ∀ i : Int,
      (0 ≤ i ∧ i < count →
        (∃ flag, w.run (.testLocal b i) = some (.done w (.flag flag)) ∧
          (flag = true ↔ ∃ v, v ≠ 0 ∧ LastAssigned s ks b i v)) ∧
        ∀ v, ∃ flags, let w' := w.setBuffer b { buf with flags }
          w.run (.setLocal b i v) = some (.done w' .done) ∧
            ∀ c j, w'.hasLocal c j =
              if c = b ∧ j = i then some (.ok (v != 0)) else w.hasLocal c j) ∧
      (¬ (0 ≤ i ∧ i < count) →
        w.run (.testLocal b i) = some (.stop w (.flagOutOfRange .test i count)) ∧
        ∀ v, w.run (.setLocal b i v) = some (.stop w (.flagOutOfRange .assign i count))) := by
  intro s w names count
  have h : Recorded s ks w := recorded_run multibyte arenas markers ks
  refine ⟨⟨h.nodup, fun i hi => Slots.exists_name h.nodup hi, fun name hname => ?_,
    fun name hname => ?_, fun ks' => ?_⟩, fun b buf hb i => ⟨fun hi => ⟨?_, fun v => ?_⟩,
    fun hi => ⟨?_, run_setLocal_of_outside hb hi⟩⟩⟩
  · show some (Outcome.answering (Outcome.within (w.slots.register name) _) _) = _
    rw [Slots.register_of_mem hname]
    rfl
  · show some (Outcome.answering (Outcome.within (w.slots.register name) _) _) = _
    rw [Slots.register_of_not_mem hname]
    rfl
  · have hgrown := (w.grows_run ks').names
    have hlater : Recorded s (ks ++ ks') (ks'.foldl step w) := by
      have hrun := recorded_run multibyte arenas markers (ks ++ ks')
      rwa [List.foldl_append] at hrun
    exact ⟨hgrown, fun name i => Slots.index?_of_isPrefix hlater.nodup hgrown⟩
  · refine ⟨_, ?_, h.test_iff hb hi⟩
    rw [run_testLocal hb, LocalFlags.test_of_inside _ hi]
    rfl
  · exact ⟨_, run_setLocal_of_inside hb hi v, hasLocal_setLocal hb hi v⟩
  · rw [run_testLocal hb, LocalFlags.test_of_outside _ hi]
    rfl

/-- Two buffers whose flags were set when the table had one slot and two; a slot that comes later,
an assignment before there was a slot for it, one taken back, and flags that were reset. -/
theorem flags_run_two_buffers :
    let ks : List Command :=
      [.register [0x61], .newBuffer false, .setLocal 0 0 1, .register [0x62], .setLocal 1 1 5,
        .setLocal 0 2 7, .register [0x63], .register [0x61], .setLocal 1 0 3, .setLocal 1 0 0,
        .resetLocal 0, .setLocal 0 1 (-1)]
    let s := start true 0 0
    let w := ks.foldl step s
    w.slots.names = [[0x61], [0x62], [0x63]] ∧
      w.run (.register [0x61]) = some (.stop w (.slotTaken [0x61])) ∧
      LastAssigned s ks 1 1 5 ∧ w.run (.testLocal 1 1) = some (.done w (.flag true)) ∧
      w.run (.testLocal 1 2) = some (.done w (.flag false)) ∧
      w.run (.testLocal 0 0) = some (.done w (.flag false)) ∧
      w.run (.testLocal 0 (-1)) = some (.stop w (.flagOutOfRange .test (-1) 3)) ∧
      w.run (.setLocal 1 3 1) = some (.stop w (.flagOutOfRange .assign 3 3)) := by
  intro ks s w
  obtain ⟨⟨-, -, htaken, -⟩, hflags⟩ := flags_run true 0 0 ks
  have hnames : w.slots.names = [[0x61], [0x62], [0x63]] := by decide +kernel
  have hcount : (ks.foldl step (start true 0 0)).slots.count = 3 := by decide +kernel
  have hlive : (w.buffer? 0).isSome ∧ (w.buffer? 1).isSome := by decide +kernel
  obtain ⟨first, hfirst⟩ := Option.isSome_iff_exists.mp hlive.1
  obtain ⟨second, hsecond⟩ := Option.isSome_iff_exists.mp hlive.2
  have hassigned : LastAssigned s ks 1 1 5 := by
    have hlive : (((ks.take 4).foldl step s).buffer? 1).isSome := by decide +kernel
    have hinside : (0 : Int) ≤ 1 ∧ 1 < (((ks.take 4).foldl step s).slots.count : Int) := by
      decide +kernel
    have hlater : ∀ k ∈ ks.drop 5, k ≠ .resetLocal 1 ∧ ∀ v', k ≠ .setLocal 1 1 v' := by simp [ks]
    exact ⟨ks.take 4, ks.drop 5, by decide,
      succeeds_setLocal_iff.mpr ⟨Option.isSome_iff_exists.mp hlive, hinside⟩, hlater⟩
  obtain ⟨⟨flag, hset, hiff⟩, -⟩ := (hflags 1 second hsecond 1).1 (by omega)
  obtain ⟨⟨flag', hlater, hiff'⟩, -⟩ := (hflags 1 second hsecond 2).1 (by omega)
  obtain ⟨⟨flag'', hreset, hiff''⟩, -⟩ := (hflags 0 first hfirst 0).1 (by omega)
  have hnever : flag' = false := by
    refine Bool.eq_false_iff.mpr fun h => ?_
    obtain ⟨v, -, earlier, later, heq, -⟩ := hiff'.mp h
    have hmem : Command.setLocal 1 2 v ∈ ks := heq ▸ by simp
    simp [ks] at hmem
  have hgone : flag'' = false := by
    refine Bool.eq_false_iff.mpr fun h => ?_
    obtain ⟨v, -, hv⟩ := hiff''.mp h
    rw [show ks = ks.take 10 ++ [.resetLocal 0] ++ [.setLocal 0 1 (-1)] from rfl,
      lastAssigned_append_singleton, lastAssigned_append_singleton] at hv
    simp at hv
  rw [hiff.mpr ⟨5, by decide, hassigned⟩] at hset
  rw [hnever] at hlater
  rw [hgone] at hreset
  have hbelow := ((hflags 0 first hfirst (-1)).2 (by omega)).1
  have habove := ((hflags 1 second hsecond 3).2 (by omega)).2 1
  rw [hcount] at hbelow habove
  have hmem : [0x61] ∈ (ks.foldl step (start true 0 0)).slots.names := by decide +kernel
  exact ⟨hnames, htaken _ hmem, hassigned, hset, hlater, hreset, hbelow, habove⟩

end Workspace

end GapText
