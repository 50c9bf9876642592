import GapText.Overlay.Chain
import Mathlib.Data.List.Nodup
import Mathlib.Data.List.Perm.Subperm

/-!
# Chains and the lists that they hold

A link *leads* through a list of records when following `next` from it meets these records in order
and then comes to an end (`Leads`). There is at most one such list, so it has no record twice and
the walks of the operations, which are bounded by the size of the arena, see all of it. Each change
to a chain then is a change to its list: an overlay is put at the end, one is taken out, a chain is
made of any list of records, and all are detached. What is only hung elsewhere stays as it was
otherwise (`Rechained`).
-/

namespace GapText

/-- An overlay, its place on a chain aside. -/
def Overlay.loose (o : Overlay) : Overlay := { o with next := none }

/-- An overlay as it is when the one of this number goes, behind which `next` stood. -/
def Overlay.bypassing (gone : Int) (next : Option Int) (o : Overlay) : Overlay :=
  if o.next = some gone then { o with next } else o

namespace Arena

variable {a a' a'' : Arena} {l l' : Option Int} {ids ids' pre post : List Int} {id : Int}
  {o : Overlay}

/-! ## Records -/

theorem get_of_find? (h : a.find? id = some o) : a.get id = .ok o := by
  unfold get
  rw [h]

theorem find?_of_get (h : a.get id = .ok o) : a.find? id = some o := by
  unfold get at h
  split at h
  · cases h
    assumption
  · cases h

theorem find?_setNext (a : Arena) (id : Int) (next : Option Int) (id' : Int) :
    (a.setNext id next).find? id' =
      if id = id' then (a.find? id').map fun o => { o with next } else a.find? id' :=
  find?_modify a id id' _

theorem find?_setNext_of_ne {id' : Int} (h : id ≠ id') (next : Option Int) :
    (a.setNext id next).find? id' = a.find? id' := by
  rw [find?_setNext, if_neg h]

theorem find?_setNext_self (h : a.find? id = some o) (next : Option Int) :
    (a.setNext id next).find? id = some { o with next } := by
  rw [find?_setNext, if_pos rfl, h]
  rfl

theorem lt_size_of_find? (h : a.find? id = some o) : 0 ≤ id ∧ id < a.size := by
  unfold find? at h
  split at h
  · rename_i hnonneg
    obtain ⟨hlt, -⟩ := Array.getElem?_eq_some_iff.mp h
    refine ⟨hnonneg, ?_⟩
    unfold size
    omega
  · cases h

theorem contains_iff : a.contains id = true ↔ ∃ o, a.find? id = some o := by
  rw [contains, decide_eq_true_eq]
  constructor
  · rintro ⟨hlo, hhi⟩
    have hlt : id.toNat < a.records.size := by
      unfold size at hhi
      omega
    rw [find?, if_pos hlo]
    exact ⟨_, Array.getElem?_eq_getElem hlt⟩
  · rintro ⟨o, ho⟩
    exact lt_size_of_find? ho

/-- Arenas with the same record under every number are the same. -/
theorem ext_find? (h : ∀ id, a'.find? id = a.find? id) : a' = a := by
  obtain ⟨records⟩ := a
  obtain ⟨records'⟩ := a'
  have hrecords : records' = records := Array.ext_getElem? fun i => h i
  rw [hrecords]

/-! ## Following links -/

/-- Following `next` from a link meets these records in order, and then the end of the chain. -/
inductive Leads (a : Arena) : Option Int → List Int → Prop
  | stop : Leads a none []
  | step {id : Int} {o : Overlay} {ids : List Int} (found : a.find? id = some o)
      (more : Leads a o.next ids) : Leads a (some id) (id :: ids)

theorem Leads.unique (h : a.Leads l ids) (h' : a.Leads l ids') : ids = ids' := by
  induction h generalizing ids' with
  | stop =>
      cases h'
      rfl
  | step found _ ih =>
      cases h' with
      | step found' more' =>
          cases found.symm.trans found'
          rw [ih more']

theorem Leads.eq_head? (h : a.Leads l ids) : l = ids.head? := by
  cases h <;> rfl

theorem Leads.eq_none (h : a.Leads l []) : l = none := h.eq_head?

theorem Leads.find? (h : a.Leads l ids) (hid : id ∈ ids) : ∃ o, a.find? id = some o := by
  induction h with
  | stop => cases hid
  | step found _ ih =>
      rcases List.mem_cons.mp hid with rfl | hid
      · exact ⟨_, found⟩
      · exact ih hid

/-- From a record in the middle the rest of the chain is met. -/
theorem Leads.of_append (h : a.Leads l (pre ++ id :: post)) : a.Leads (some id) (id :: post) := by
  induction pre generalizing l with
  | nil =>
      cases h with
      | step found more => exact .step found more
  | cons p pre ih =>
      cases h with
      | step _ more => exact ih more

/-- A chain that comes to an end does not come back to itself. -/
theorem Leads.nodup (h : a.Leads l ids) : ids.Nodup := by
  induction h with
  | stop => exact List.nodup_nil
  | step found more ih =>
      refine List.nodup_cons.mpr ⟨?_, ih⟩
      intro hmem
      obtain ⟨pre, post, rfl⟩ := List.append_of_mem hmem
      -- what is met behind the second visit would be what is met behind the first
      have heq := (Leads.step found more).unique more.of_append
      have hlen := congrArg List.length heq
      simp only [List.length_cons, List.length_append] at hlen
      omega

theorem Leads.not_mem_front (h : a.Leads l (pre ++ id :: post)) : id ∉ pre :=
  fun hmem => (List.nodup_append.mp h.nodup).2.2 id hmem id List.mem_cons_self rfl

/-- A record names the one behind it. -/
theorem Leads.next_eq (h : a.Leads l (pre ++ id :: post)) (ho : a.find? id = some o) :
    o.next = post.head? := by
  cases h.of_append with
  | step found more =>
      cases ho.symm.trans found
      exact more.eq_head?

theorem Leads.congr (h : a.Leads l ids)
    (hnext : ∀ id ∈ ids, (a'.find? id).map (·.next) = (a.find? id).map (·.next)) :
    a'.Leads l ids := by
  induction h with
  | stop => exact .stop
  | @step id o ids found _ ih =>
      obtain ⟨hid, hids⟩ := List.forall_mem_cons.mp hnext
      rw [found] at hid
      obtain ⟨o', found', hsame⟩ := Option.map_eq_some_iff.mp hid
      refine .step found' ?_
      rw [hsame]
      exact ih hids

theorem Leads.length_le (h : a.Leads l ids) : ids.length ≤ a.size := by
  have hinj : (ids.map Int.toNat).Nodup := by
    refine List.Nodup.map_on ?_ h.nodup
    intro i hi j hj heq
    obtain ⟨oi, hoi⟩ := h.find? hi
    obtain ⟨oj, hoj⟩ := h.find? hj
    have hlo := (lt_size_of_find? hoi).1
    have hlo' := (lt_size_of_find? hoj).1
    omega
  have hsub : ids.map Int.toNat ⊆ List.range a.size := by
    intro n hn
    obtain ⟨i, hi, rfl⟩ := List.mem_map.mp hn
    obtain ⟨oi, hoi⟩ := h.find? hi
    have hlt := lt_size_of_find? hoi
    rw [List.mem_range]
    omega
  have hle := (List.subperm_of_subset hinj hsub).length_le
  rwa [List.length_map, List.length_range] at hle

/-! ## Walks -/

theorem Leads.chainFrom_eq (h : a.Leads l ids) {n : Nat} (hn : ids.length ≤ n) :
    a.chainFrom n l = .ok ids := by
  induction h generalizing n with
  | stop => cases n <;> rfl
  | step found _ ih =>
      cases n with
      | zero => exact absurd hn (Nat.not_succ_le_zero _)
      | succ n =>
          rw [chainFrom, get_of_find? found]
          show (do let rest ← a.chainFrom n _; Except.ok (_ :: rest)) = _
          rw [ih (Nat.le_of_succ_le_succ hn)]
          rfl

/-- A walk along a chain finds all of its list. -/
theorem Leads.chain_eq (h : a.Leads l ids) : a.chain l = .ok ids :=
  h.chainFrom_eq (Nat.le_succ_of_le h.length_le)

theorem Leads.pathFrom_eq (h : a.Leads l (pre ++ id :: post)) {n : Nat} (hn : pre.length < n) :
    a.pathFrom id n l = .ok (some pre) := by
  have hnot := h.not_mem_front
  induction pre generalizing l n with
  | nil =>
      obtain ⟨n, rfl⟩ := Nat.exists_eq_add_one_of_ne_zero (Nat.ne_of_gt hn)
      cases h with
      | step => rw [pathFrom, if_pos rfl]
  | cons p pre ih =>
      obtain ⟨n, rfl⟩ := Nat.exists_eq_add_one_of_ne_zero (Nat.ne_of_gt (Nat.zero_lt_of_lt hn))
      obtain ⟨hne, hnot⟩ := not_or.mp (mt List.mem_cons.mpr hnot)
      cases h with
      | step found more =>
          rw [pathFrom, if_neg (Ne.symm hne), get_of_find? found]
          show (do let r ← a.pathFrom id n _; Except.ok (r.map (p :: ·))) = _
          rw [ih more (Nat.lt_of_succ_lt_succ hn) hnot]
          rfl

theorem Leads.pathFrom_eq_none (h : a.Leads l ids) (hid : id ∉ ids) {n : Nat}
    (hn : ids.length ≤ n) : a.pathFrom id n l = .ok none := by
  induction h generalizing n with
  | stop => cases n <;> rfl
  | step found _ ih =>
      cases n with
      | zero => rfl
      | succ n =>
          obtain ⟨hne, hid⟩ := not_or.mp (mt List.mem_cons.mpr hid)
          rw [pathFrom, if_neg (Ne.symm hne), get_of_find? found]
          show (do let r ← a.pathFrom id n _; Except.ok (r.map (_ :: ·))) = _
          rw [ih hid (Nat.le_of_succ_le_succ hn)]
          rfl

/-! ## What is only hung elsewhere -/

/-- Only the places of these overlays on chains differ. -/
structure Rechained (ids : List Int) (a a' : Arena) : Prop where
  outside : ∀ id ∉ ids, a'.find? id = a.find? id
  loose_eq : ∀ id, (a'.find? id).map Overlay.loose = (a.find? id).map Overlay.loose

theorem Rechained.refl (ids : List Int) (a : Arena) : Rechained ids a a :=
  ⟨fun _ _ => rfl, fun _ => rfl⟩

theorem Rechained.trans (h : Rechained ids a a') (h' : Rechained ids a' a'') :
    Rechained ids a a'' where
  outside := fun id hid => (h'.outside id hid).trans (h.outside id hid)
  loose_eq := fun id => (h'.loose_eq id).trans (h.loose_eq id)

theorem Rechained.mono (h : Rechained ids a a') (hsub : ids ⊆ ids') : Rechained ids' a a' where
  outside := fun id hid => h.outside id fun hmem => hid (hsub hmem)
  loose_eq := h.loose_eq

theorem rechained_setNext (hid : id ∈ ids) (next : Option Int) :
    Rechained ids a (a.setNext id next) where
  outside := by
    intro id' hid'
    have hne : id ≠ id' := by
      rintro rfl
      exact hid' hid
    exact find?_setNext_of_ne hne next
  loose_eq := by
    intro id'
    rw [find?_setNext]
    split
    · rw [Option.map_map]
      rfl
    · rfl

theorem Rechained.find? (h : Rechained ids a a') (hid : a.find? id = some o) :
    ∃ o', a'.find? id = some o' ∧ o'.loose = o.loose := by
  have hloose := h.loose_eq id
  rw [hid] at hloose
  exact Option.map_eq_some_iff.mp hloose

theorem Rechained.symm (h : Rechained ids a a') : Rechained ids a' a where
  outside := fun id hid => (h.outside id hid).symm
  loose_eq := fun id => (h.loose_eq id).symm

/-- What is told of an overlay without its place on a chain does not depend on this place. -/
theorem congr_loose {β : Type} {f : Option Overlay → β}
    (h : (a'.find? id).map Overlay.loose = (a.find? id).map Overlay.loose)
    (hf : ∀ r, f (r.map Overlay.loose) = f r) : f (a'.find? id) = f (a.find? id) := by
  rw [← hf, h, hf]

theorem stopChar_congr_loose
    (h : (a'.find? id).map Overlay.loose = (a.find? id).map Overlay.loose) :
    a'.stopChar id = a.stopChar id :=
  congr_loose (f := fun r => (r.getD {}).stop.place.char) h (by rintro (_ | r) <;> rfl)

theorem Rechained.stopChar_eq (h : Rechained ids a a') (id : Int) :
    a'.stopChar id = a.stopChar id :=
  stopChar_congr_loose (h.loose_eq id)

theorem Rechained.startChar_eq (h : Rechained ids a a') (id : Int) :
    a'.startChar id = a.startChar id :=
  congr_loose (f := fun r => (r.getD {}).start.place.char) (h.loose_eq id)
    (by rintro (_ | r) <;> rfl)

/-- A chain on which none of them hangs is the same. -/
theorem Rechained.leads (h : Rechained ids a a') (hl : a.Leads l ids')
    (hdisjoint : ∀ id ∈ ids', id ∉ ids) : a'.Leads l ids' :=
  hl.congr fun id hid => by rw [h.outside id (hdisjoint id hid)]

/-! ## The records of a chain -/

/-- The record of an overlay on a chain is what it was, but for the one that is behind it now. -/
theorem Rechained.find?_of_leads (h : Rechained ids' a a')
    (hl : a'.Leads l (pre ++ id :: post)) :
    a'.find? id = (a.find? id).map fun o => { o with next := post.head? } := by
  obtain ⟨o', ho'⟩ := hl.find? (List.mem_append_right pre List.mem_cons_self)
  obtain ⟨o, ho, hloose⟩ := h.symm.find? ho'
  obtain ⟨start, stop, props, next⟩ := o
  obtain ⟨start', stop', props', next'⟩ := o'
  have hnext : next' = post.head? := hl.next_eq ho'
  simp only [Overlay.loose, Overlay.mk.injEq, and_true] at hloose
  obtain ⟨rfl, rfl, rfl⟩ := hloose
  rw [ho', ho, hnext]
  rfl

/-- A chain that holds the same overlays in the same order has the same records. -/
theorem Rechained.find?_eq (h : Rechained ids' a a') (hl : a.Leads l ids) (hl' : a'.Leads l' ids)
    (hid : id ∈ ids) : a'.find? id = a.find? id := by
  obtain ⟨pre, post, rfl⟩ := List.append_of_mem hid
  obtain ⟨o, ho⟩ := hl.find? hid
  rw [h.find?_of_leads hl', ho, Option.map_some, ← hl.next_eq ho]

/-- When an overlay was put at the end of a chain, the one that was last names it. -/
theorem Rechained.find?_of_appended {new : Int} (h : Rechained ids' a a') (hl : a.Leads l ids)
    (hl' : a'.Leads l' (ids ++ [new])) (hid : id ∈ ids) :
    a'.find? id =
      if ids.getLast? = some id then (a.find? id).map fun o => { o with next := some new }
      else a.find? id := by
  obtain ⟨pre, post, rfl⟩ := List.append_of_mem hid
  obtain ⟨o, ho⟩ := hl.find? hid
  have hnext := hl.next_eq ho
  rw [List.append_assoc, List.cons_append] at hl'
  rw [h.find?_of_leads hl', ho]
  cases post with
  | nil =>
      rw [List.getLast?_concat, if_pos rfl]
      rfl
  | cons i post =>
      have hnot : id ∉ i :: post := (List.nodup_cons.mp (List.nodup_append.mp hl.nodup).2.1).1
      have hlast : (pre ++ id :: i :: post).getLast? ≠ some id := by
        rw [List.getLast?_append_of_ne_nil _ (List.cons_ne_nil _ _), List.getLast?_cons_cons]
        exact fun heq => hnot (List.mem_of_getLast? heq)
      rw [if_neg hlast]
      exact congrArg (fun next => some { o with next }) hnext.symm

/-- When an overlay was put at the end of one chain and another chain stayed, no record changes but
that of the overlay which was last. -/
theorem Rechained.find?_of_hung {new : Int} {kept : List Int} {m m' : Option Int}
    (h : Rechained ids' a a') (hids : ∀ i ∈ ids', i ∈ ids ∨ i ∈ kept ∨ i = new)
    (hl : a.Leads l ids) (hl' : a'.Leads l' (ids ++ [new])) (hk : a.Leads m kept)
    (hk' : a'.Leads m' kept) (hne : id ≠ new) :
    a'.find? id =
      if ids.getLast? = some id then (a.find? id).map fun o => { o with next := some new }
      else a.find? id := by
  by_cases hid : id ∈ ids
  · exact h.find?_of_appended hl hl' hid
  · rw [if_neg (mt List.mem_of_getLast? hid)]
    by_cases hkept : id ∈ kept
    · exact h.find?_eq hk hk' hkept
    · refine h.outside id fun hmem => ?_
      rcases hids id hmem with hmem | hmem | hmem
      · exact hid hmem
      · exact hkept hmem
      · exact hne hmem

/-- When an overlay was taken off a chain, the one in front of it names the one behind it. -/
theorem Rechained.find?_of_erased {gone : Int} {r : Overlay} (h : Rechained ids' a a')
    (hl : a.Leads l ids) (hl' : a'.Leads l' (ids.erase gone)) (hr : a.find? gone = some r)
    (hid : id ∈ ids) (hne : id ≠ gone) :
    a'.find? id = (a.find? id).map (·.bypassing gone r.next) := by
  obtain ⟨pre, post, rfl⟩ := List.append_of_mem hid
  obtain ⟨o, ho⟩ := hl.find? hid
  have hnext := hl.next_eq ho
  obtain ⟨pre', post', herase, hhead⟩ : ∃ pre' post',
      (pre ++ id :: post).erase gone = pre' ++ id :: post' ∧
        post'.head? = if post.head? = some gone then r.next else post.head? := by
    by_cases hgone : gone ∈ pre
    · have hpost : post.head? ≠ some gone := fun hhead =>
        (List.nodup_append.mp hl.nodup).2.2 gone hgone gone
          (List.mem_cons_of_mem id (List.mem_of_mem_head? hhead)) rfl
      exact ⟨pre.erase gone, post, List.erase_append_left _ hgone, (if_neg hpost).symm⟩
    · refine ⟨pre, post.erase gone, ?_, ?_⟩
      · rw [List.erase_append_right _ hgone, List.erase_cons_tail (by simpa using hne)]
      · cases post with
        | nil => rfl
        | cons i post =>
            by_cases hi : i = gone
            · subst hi
              rw [List.append_cons] at hl
              rw [List.erase_cons_head, List.head?_cons, if_pos rfl, hl.next_eq hr]
            · rw [List.erase_cons_tail (by simpa using hi), List.head?_cons, List.head?_cons,
                if_neg (mt Option.some.inj hi)]
  rw [herase] at hl'
  rw [h.find?_of_leads hl', ho, Option.map_some, Option.map_some, hhead, ← hnext,
    Overlay.bypassing]
  split <;> rfl

/-! ## Changes to a chain -/

theorem Leads.setNext_of_not_mem (h : a.Leads l ids) (hid : id ∉ ids) (next : Option Int) :
    (a.setNext id next).Leads l ids := by
  refine h.congr fun i hi => ?_
  have hne : id ≠ i := fun heq => hid (heq ▸ hi)
  rw [find?_setNext_of_ne hne]

/-- A link in the middle is bent to where another chain starts. -/
theorem Leads.setNext {last : Int} {post' : List Int} (h : a.Leads l (pre ++ last :: post))
    (hnew : a.Leads l' post') (hlast : last ∉ post') :
    (a.setNext last l').Leads l (pre ++ last :: post') := by
  have hpre := h.not_mem_front
  induction pre generalizing l with
  | nil =>
      cases h with
      | step found _ =>
          exact .step (find?_setNext_self found l') (hnew.setNext_of_not_mem hlast l')
  | cons p pre ih =>
      obtain ⟨hne, hpre⟩ := not_or.mp (mt List.mem_cons.mpr hpre)
      cases h with
      | step found more =>
          refine .step ?_ (ih more hpre)
          rw [find?_setNext_of_ne hne]
          exact found

/-- An overlay that hangs elsewhere or nowhere is put at the end of a chain. -/
theorem Leads.append (h : a.Leads l ids) (hid : a.find? id = some o) (hnot : id ∉ ids) :
    ∃ a' l', a.append l id = .done (a', l') () ∧ a'.Leads l' (ids ++ [id]) ∧
      Rechained (ids ++ [id]) a a' := by
  have hmem : id ∈ ids ++ [id] := List.mem_append_right ids List.mem_cons_self
  have hfirst := rechained_setNext (a := a) hmem none
  have hleads : (a.setNext id none).Leads l ids := h.setNext_of_not_mem hnot none
  have hend : (a.setNext id none).Leads (some id) [id] :=
    .step (find?_setNext_self hid none) .stop
  unfold Arena.append
  cases l with
  | none =>
      cases h
      exact ⟨_, _, rfl, hend, hfirst⟩
  | some first =>
      -- the last record of the chain is bent to the new one
      obtain ⟨pre, last, rfl⟩ : ∃ pre last, ids = pre ++ [last] := by
        cases h with
        | step _ _ => exact ⟨_, _, (List.dropLast_append_getLast (List.cons_ne_nil _ _)).symm⟩
      have hne : last ∉ [id] := by
        intro heq
        rw [List.mem_singleton] at heq
        exact hnot (heq ▸ List.mem_append_right pre List.mem_cons_self)
      refine ⟨(a.setNext id none).setNext last (some id), some first, ?_, ?_, ?_⟩
      · dsimp only
        rw [hleads.chain_eq]
        dsimp only
        rw [List.getLastD_concat]
      · rw [List.append_assoc]
        exact hleads.setNext hend hne
      · exact hfirst.trans (rechained_setNext (List.mem_append_left _
          (List.mem_append_right pre List.mem_cons_self)) _)

/-- An overlay is taken off the chain on which it hangs. -/
theorem Leads.unchain (h : a.Leads l (pre ++ id :: post)) :
    ∃ a' l', a.unchain l id = .ok (some (a', l')) ∧ a'.Leads l' (pre ++ post) ∧
      Rechained (pre ++ id :: post) a a' := by
  have hpath : a.path l id = .ok (some pre) := by
    refine h.pathFrom_eq (Nat.lt_succ_of_lt ?_)
    have hle := h.length_le
    rw [List.length_append, List.length_cons] at hle
    omega
  have hmem : ∀ i ∈ pre ++ [id], i ∈ pre ++ id :: post := by
    intro i hi
    rw [List.append_cons]
    exact List.mem_append_left post hi
  have hid : id ∉ pre ++ post := by
    have hnodup := h.nodup
    rw [List.nodup_middle] at hnodup
    exact (List.nodup_cons.mp hnodup).1
  obtain ⟨o, ho, hrest⟩ : ∃ o, a.find? id = some o ∧ a.Leads o.next post := by
    cases h.of_append with
    | step found more => exact ⟨_, found, more⟩
  have hself : id ∈ pre ++ id :: post := hmem id (List.mem_append_right pre List.mem_cons_self)
  unfold Arena.unchain
  rw [hpath, ho]
  dsimp only [bind, Except.bind, Option.bind]
  rcases List.eq_nil_or_concat pre with rfl | ⟨pre, last, rfl⟩
  · exact ⟨_, _, rfl, hrest.setNext_of_not_mem hid none, rechained_setNext hself none⟩
  · have hlast : last ∉ post := by
      intro hmem'
      have hnodup := h.nodup
      rw [List.concat_eq_append, List.append_assoc] at hnodup
      have hlate := (List.nodup_append.mp hnodup).2.1
      exact (List.nodup_cons.mp hlate).1 (List.mem_cons_of_mem id hmem')
    rw [List.concat_eq_append] at h hmem hid hself ⊢
    rw [List.getLast?_concat]
    refine ⟨_, _, rfl, ?_, ?_⟩
    · refine Leads.setNext_of_not_mem ?_ hid none
      rw [List.append_assoc] at h ⊢
      exact h.setNext hrest hlast
    · exact (rechained_setNext (hmem last (List.mem_append_left _
        (List.mem_append_right pre List.mem_cons_self))) _).trans (rechained_setNext hself none)

theorem Leads.unchain_eq_none (h : a.Leads l ids) (hid : id ∉ ids) :
    a.unchain l id = .ok none := by
  have hpath : a.path l id = .ok none :=
    h.pathFrom_eq_none hid (Nat.le_succ_of_le h.length_le)
  unfold Arena.unchain
  rw [hpath]
  rfl

theorem rechained_relink (a : Arena) (ids : List Int) : Rechained ids a (a.relink ids) := by
  fun_induction relink a ids with
  | case1 a => exact .refl [] a
  | case2 a id => exact rechained_setNext (List.mem_singleton.mpr rfl) none
  | case3 a id next rest ih =>
      exact (rechained_setNext List.mem_cons_self _).trans
        (ih.mono (List.subset_cons_self id (next :: rest)))

/-- Any records can be made into a chain. -/
theorem leads_relink (hnodup : ids.Nodup) (hfind : ∀ id ∈ ids, ∃ o, a.find? id = some o) :
    (a.relink ids).Leads ids.head? ids := by
  fun_induction relink a ids with
  | case1 a => exact .stop
  | case2 a id =>
      obtain ⟨o, ho⟩ := hfind id List.mem_cons_self
      exact .step (find?_setNext_self ho none) .stop
  | case3 a id next rest ih =>
      obtain ⟨hid, hnodup⟩ := List.nodup_cons.mp hnodup
      obtain ⟨o, ho⟩ := hfind id List.mem_cons_self
      have hothers : ∀ i ∈ next :: rest, ∃ oi, (a.setNext id (some next)).find? i = some oi := by
        intro i hi
        obtain ⟨oi, hoi⟩ := hfind i (List.mem_cons_of_mem id hi)
        have hne : id ≠ i := fun heq => hid (heq ▸ hi)
        exact ⟨oi, (find?_setNext_of_ne hne _).trans hoi⟩
      have hrest := ih hnodup hothers
      refine .step (o := { o with next := some next }) ?_ hrest
      rw [(rechained_relink _ (next :: rest)).outside id hid]
      exact find?_setNext_self ho (some next)

/-- Making a chain of the records that form it already changes nothing. -/
theorem Leads.relink_eq (h : a.Leads l ids) : a.relink ids = a := by
  have hsame := rechained_relink a ids
  have hleads := leads_relink h.nodup fun id hid => h.find? hid
  refine ext_find? fun id => ?_
  by_cases hid : id ∈ ids
  · exact hsame.find?_eq h hleads hid
  · exact hsame.outside id hid

/-! ## Detaching all of a chain -/

/-- These overlays detached, one after the other. -/
def detachAll (a : Arena) (ids : List Int) : Arena :=
  ids.foldl (fun a id => a.modify id Overlay.detached) a

theorem find?_detachAll (a : Arena) (ids : List Int) (id : Int) :
    (a.detachAll ids).find? id =
      if id ∈ ids then (a.find? id).map Overlay.detached else a.find? id := by
  induction ids generalizing a with
  | nil => exact (if_neg List.not_mem_nil).symm
  | cons i ids ih =>
      have htwice : ∀ r : Option Overlay,
          (r.map Overlay.detached).map Overlay.detached = r.map Overlay.detached := by
        rintro (_ | r) <;> rfl
      show ((a.modify i Overlay.detached).detachAll ids).find? id = _
      rw [ih, find?_modify]
      by_cases hi : i = id
      · subst hi
        rw [if_pos rfl, if_pos List.mem_cons_self, htwice, ite_self]
      · have hmem : id ∈ i :: ids ↔ id ∈ ids := by
          rw [List.mem_cons]
          exact or_iff_right (Ne.symm hi)
        simp only [if_neg hi, hmem]

/-- Where overlays hung does not matter once they are detached. -/
theorem Rechained.map_detached_eq (h : Rechained ids a a') (id : Int) :
    (a'.find? id).map Overlay.detached = (a.find? id).map Overlay.detached :=
  congr_loose (f := Option.map Overlay.detached) (h.loose_eq id) (by rintro (_ | r) <;> rfl)

theorem Rechained.detachAll_eq (h : Rechained ids a a') (hsub : ids ⊆ ids') :
    a'.detachAll ids' = a.detachAll ids' := by
  refine ext_find? fun id => ?_
  rw [find?_detachAll, find?_detachAll]
  split
  · exact h.map_detached_eq id
  · rename_i hid
    exact h.outside id fun hmem => hid (hsub hmem)

theorem Leads.detachFrom_eq (h : a.Leads l ids) {fuel : Nat} (hfuel : ids.length ≤ fuel) (n : Nat) :
    a.detachFrom fuel l n = .done (a.detachAll ids) (n + ids.length) := by
  induction ids generalizing a l fuel n with
  | nil =>
      cases h
      cases fuel <;> rfl
  | cons id ids ih =>
      cases fuel with
      | zero => exact absurd hfuel (Nat.not_succ_le_zero _)
      | succ fuel =>
          have hid := (List.nodup_cons.mp h.nodup).1
          cases h with
          | @step _ o _ found more =>
              -- the record behind is remembered before this one is detached
              have hmore : (a.modify id Overlay.detached).Leads o.next ids := by
                refine more.congr fun i hi => ?_
                have hne : id ≠ i := fun heq => hid (heq ▸ hi)
                rw [find?_modify, if_neg hne]
              rw [detachFrom, get_of_find? found]
              dsimp only
              rw [ih hmore (Nat.le_of_succ_le_succ hfuel), List.length_cons, Nat.add_assoc,
                Nat.add_comm 1]
              rfl

theorem Leads.detachChain_eq (h : a.Leads l ids) (n : Nat) :
    a.detachChain l n = .done (a.detachAll ids) (n + ids.length) :=
  h.detachFrom_eq (Nat.le_succ_of_le h.length_le) n

end Arena

end GapText
