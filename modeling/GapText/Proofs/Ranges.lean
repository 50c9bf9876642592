import GapText.Proofs.Editor

/-!
# Places out of range

The operations of `GapText.Buffer.Edit` are functions from one buffer to the next, so they have no
half-way. Here they are taken step by step: field after field is overwritten, the message of the
caller is one of the things that can be overwritten, and the machine stops without a result when a
place outside the text is converted, since the conversions check nothing (`Desk.Steps`). On a sound
buffer the machine never stops, and what it leaves is what the functions say: an operation is
refused exactly when one of its places is out of range, and then nothing but the message has
changed. The checks rest on little of the invariant, and no command, whatever its arguments, takes
that away (`Buffer.LimitsInText`).
-/

namespace GapText

/-! ## Limits -/

namespace Buffer

/-- The limits of the accessible part are in the text. It is all that the checks rest on. -/
structure LimitsInText (b : Buffer) : Prop where
  one_le_lower : 1 ≤ b.lower.char
  upper_le_end : b.upper.char ≤ b.endChar
  one_le_end : 1 ≤ b.endChar

variable {b : Buffer} {c p q : Int} {x : Logged Buffer}

theorem Sound.limitsInText {cs : List Int} (h : b.Sound cs) : b.LimitsInText where
  one_le_lower := h.lower.one_le
  upper_le_end := h.endChar_eq ▸ h.upper.le_last
  one_le_end := h.last.one_le

namespace LimitsInText

/-- Every accessible place is in the text. -/
theorem mem (h : b.LimitsInText) (hlo : b.lower.char ≤ c) (hhi : c ≤ b.upper.char) :
    1 ≤ c ∧ c ≤ b.endChar :=
  ⟨Int.le_trans h.one_le_lower hlo, Int.le_trans hhi h.upper_le_end⟩

theorem widen (hend : 1 ≤ b.endChar) : b.widen.LimitsInText :=
  ⟨Int.le_refl 1, Int.le_refl _, hend⟩

theorem insert {s : Bytes} (h : b.LimitsInText) (hx : b.insert c s = .ok x) :
    x.value.LimitsInText := by
  unfold Buffer.insert at hx
  split at hx
  · cases hx
  · cases hx
    split
    · exact h
    · have hupper := h.upper_le_end
      have hend := h.one_le_end
      refine ⟨h.one_le_lower, ?_, ?_⟩
      · show b.upper.char + b.countChars s ≤ b.endChar + b.countChars s
        omega
      · show 1 ≤ b.endChar + b.countChars s
        omega

theorem delete (h : b.LimitsInText) (hx : b.delete p q = .ok x) : x.value.LimitsInText := by
  unfold Buffer.delete Buffer.region at hx
  split at hx
  rename_i lo hi _
  split at hx
  · rename_i hrange
    cases hx
    show (if lo = hi then pure b else b.cut lo hi).value.LimitsInText
    split
    · exact h
    · have hlower := h.one_le_lower
      have hupper := h.upper_le_end
      refine ⟨hlower, ?_, ?_⟩
      · show b.upper.char + -(hi - lo) ≤ b.endChar + -(hi - lo)
        omega
      · show 1 ≤ b.endChar + -(hi - lo)
        omega
  · cases hx

theorem narrow {b' : Buffer} (h : b.LimitsInText) (hb : b.narrow p q = .ok b') :
    b'.LimitsInText := by
  unfold Buffer.narrow at hb
  split at hb
  rename_i lo hi _
  split at hb
  · cases hb
  · rename_i hrange
    cases hb
    obtain ⟨hlo, hhi⟩ := not_or.mp hrange
    exact ⟨Int.not_lt.mp hlo, Int.not_lt.mp hhi, h.one_le_end⟩

theorem erase (h : b.LimitsInText) : b.erase.value.LimitsInText := by
  have hwiden := widen h.one_le_end
  unfold Buffer.erase
  dsimp only
  split
  · rename_i erased hdelete
    obtain ⟨hlower, hupper, hend⟩ := hwiden.delete hdelete
    exact ⟨hlower, hupper, hend⟩
  · exact hwiden

/-- No command takes the limits out of the text, whatever its arguments. -/
theorem run {k : Command} (h : b.LimitsInText) (hk : b.run k = .ok x) : x.value.LimitsInText := by
  cases k with
  | insert c s => exact h.insert hk
  | insertExternal c s => exact h.insert hk
  | delete p q => exact h.delete hk
  | narrow p q =>
      rw [Buffer.run] at hk
      cases hb : b.narrow p q <;> rw [hb] at hk <;> cases hk
      exact h.narrow hb
  | erase =>
      cases hk
      exact h.erase
  | widen =>
      cases hk
      exact widen h.one_le_end
  | moveGap c =>
      cases hk
      exact ⟨h.one_le_lower, h.upper_le_end, h.one_le_end⟩
  | goTo c =>
      cases hk
      exact ⟨h.one_le_lower, h.upper_le_end, h.one_le_end⟩

theorem step (h : b.LimitsInText) (k : Command) : (b.step k).LimitsInText := by
  unfold Buffer.step after
  cases hk : b.run k with
  | error _ => exact h
  | ok x => exact h.run hk

end LimitsInText

/-- So they are in the text after every history of commands, also one that puts in bytes which are
no text or sends the point to no place. -/
theorem limitsInText_run (m : Bool) (ks : List Command) :
    (ks.foldl step { multibyte := m }).LimitsInText := by
  have hfresh : LimitsInText { multibyte := m } := ⟨Int.le_refl 1, Int.le_refl 1, Int.le_refl 1⟩
  generalize ({ multibyte := m } : Buffer) = b at hfresh ⊢
  induction ks generalizing b with
  | nil => exact hfresh
  | cons k ks ih => exact ih (b.step k) (hfresh.step k)

end Buffer

/-! ## Conversions and the limits

A conversion does not look at the limits, so half of a narrowing makes no difference to it. -/

namespace Buffer

variable (b : Buffer) (p : Position)

theorem headBefore_setLower :
    ∀ (n : Nat) (q : Int), (b.setLower p).headBefore n q = b.headBefore n q
  | 0, _ => rfl
  | n + 1, q => by
    unfold headBefore
    rw [headBefore_setLower n]
    rfl

theorem prev_setLower (q : Int) : (b.setLower p).prev q = b.prev q := by
  unfold prev
  rw [headBefore_setLower]
  rfl

theorem advance_setLower : ∀ (n : Nat) (q : Int), (b.setLower p).advance n q = b.advance n q
  | 0, _ => rfl
  | n + 1, q => advance_setLower n (b.next q)

theorem retreat_setLower : ∀ (n : Nat) (q : Int), (b.setLower p).retreat n q = b.retreat n q
  | 0, _ => rfl
  | n + 1, q => by
    unfold retreat
    rw [prev_setLower, retreat_setLower n]

theorem toByte_setLower (c : Int) : (b.setLower p).toByte c = b.toByte c := by
  unfold toByte
  simp only [advance_setLower, retreat_setLower]
  rfl

end Buffer

/-- A buffer on which an operation works, and the message that it may leave. -/
structure Desk where
  buffer : Buffer
  message : Bytes

namespace Desk

/-! ## Step by step -/

/-- Steps that are taken one after the other, up to a conversion that must not be made. -/
abbrev Steps := StateT Desk Option

/-- Overwrites something of the buffer. -/
def update (f : Buffer → Buffer) : Steps Unit :=
  modify fun d => { d with buffer := f d.buffer }

/-- The byte position of a place; a place outside the text has none. -/
def convert (c : Int) : Steps Int := do
  let b := (← get).buffer
  if 1 ≤ c ∧ c ≤ b.endChar then return b.toByte c else failure

/-- Leaves the message and says no. -/
def refuse (e : RangeError) : Steps Bool := do
  modify fun d => { d with message := e.message }
  return false

/-- Says whether the stretch between two places is accessible. -/
def validate (p q : Int) : Steps Bool := do
  let (lo, hi) := ordered p q
  let b := (← get).buffer
  if b.lower.char ≤ lo ∧ hi ≤ b.upper.char then return true else refuse (.stretch lo hi)

/-- A point outside the limits goes to the nearer one. -/
def followLimits : Steps Unit := do
  update fun b => if b.point.char < b.lower.char then b.setPoint b.lower else b
  update fun b => if b.upper.char < b.point.char then b.setPoint b.upper else b

def narrow (p q : Int) : Steps Bool := do
  let (lo, hi) := ordered p q
  let b := (← get).buffer
  if lo < 1 ∨ b.endChar < hi then refuse (.stretch lo hi)
  else
    let start ← convert lo
    update (·.setLower ⟨lo, start⟩)
    let stop ← convert hi
    update (·.setUpper ⟨hi, stop⟩)
    followLimits
    return true

/-- Both ticks go to the next number. -/
def count : Steps Unit := do
  update fun b => { b with tick := b.tick + 1 }
  update fun b => { b with charsTick := b.tick }

def insert (c : Int) (s : Bytes) : Steps Bool := do
  let b := (← get).buffer
  if c < b.lower.char ∨ b.upper.char < c then refuse (.place c)
  else if s.isEmpty then return true
  else
    let byte ← convert c
    let chars : Int := b.countChars s
    update fun b => { b with text := (b.text.insert byte s).value }
    update fun b => { b with gapChar := c + chars }
    update fun b => { b with endChar := b.endChar + chars }
    update fun b => b.setUpper (b.upper.shift chars s.length)
    update fun b =>
      if c ≤ b.point.char then b.setPoint (b.point.shift chars s.length) else b
    count
    return true

def insertExternal (c : Int) (s : Bytes) : Steps Bool := do
  let b := (← get).buffer
  insert c (b.internalForm s)

def delete (p q : Int) : Steps Bool := do
  if ← validate p q then
    let (lo, hi) := ordered p q
    if lo = hi then return true
    else
      let start ← convert lo
      let stop ← convert hi
      update fun b => { b with text := (b.text.delete start stop).value }
      update fun b => { b with gapChar := lo }
      update fun b => { b with endChar := b.endChar + -(hi - lo) }
      update fun b => b.setUpper (b.upper.shift (-(hi - lo)) (-(stop - start)))
      update fun b =>
        if hi ≤ b.point.char then b.setPoint (b.point.shift (-(hi - lo)) (-(stop - start)))
        else if lo < b.point.char then b.setPoint ⟨lo, start⟩
        else b
      count
      return true
  else return false

/-- Erasing has a message of its own, which the caller does not see. -/
def erase : Steps Bool := do
  update (·.widen)
  let d ← get
  if ← delete 1 d.buffer.endChar then
    update (·.setPoint .first)
    return true
  else
    modify fun d' => { d' with message := d.message }
    return false

/-! ## What the steps leave -/

variable {b : Buffer} {c p q : Int} {m : Bytes}

/-- What an operation leaves of which the function says `r`. -/
def outcome (b : Buffer) (m : Bytes) : Except RangeError (Logged Buffer) → Bool × Desk
  | .ok x => (true, ⟨x.value, m⟩)
  | .error e => (false, ⟨b, e.message⟩)

@[simp] theorem run_update (f : Buffer → Buffer) (d : Desk) :
    (update f).run d = some ((), ⟨f d.buffer, d.message⟩) := rfl

@[simp] theorem run_refuse (e : RangeError) (d : Desk) :
    (refuse e).run d = some (false, ⟨d.buffer, e.message⟩) := rfl

@[simp] theorem run_count (d : Desk) :
    count.run d =
      some ((), ⟨{ d.buffer with tick := d.buffer.tick + 1, charsTick := d.buffer.tick + 1 },
        d.message⟩) := rfl

@[simp] theorem run_followLimits (d : Desk) :
    followLimits.run d =
      some ((), ⟨d.buffer.confine d.buffer.lower d.buffer.upper, d.message⟩) := by
  by_cases hbefore : d.buffer.point.char < d.buffer.lower.char <;>
    simp [followLimits, Buffer.confine, Buffer.setPoint, hbefore] <;> split <;> rfl

theorem run_convert (h₁ : 1 ≤ c) (h₂ : c ≤ b.endChar) :
    (convert c).run ⟨b, m⟩ = some (b.toByte c, ⟨b, m⟩) := by
  simp [convert, h₁, h₂]

theorem run_insert (h : b.LimitsInText) (c : Int) (s : Bytes) :
    (insert c s).run ⟨b, m⟩ = some (outcome b m (b.insert c s)) := by
  by_cases hrange : c < b.lower.char ∨ b.upper.char < c
  · simp [insert, Buffer.insert, outcome, hrange]
  obtain ⟨h₁, h₂⟩ := h.mem (c := c) (by omega) (by omega)
  by_cases hs : s.isEmpty = true
  · simp [insert, Buffer.insert, outcome, hrange, hs]
  · by_cases hpoint : c ≤ b.point.char <;>
      simp [insert, Buffer.insert, outcome, hrange, hs, run_convert h₁ h₂, Buffer.splice,
        Buffer.edited, Buffer.setUpper, Buffer.setPoint, hpoint]

theorem run_insertExternal (h : b.LimitsInText) (c : Int) (s : Bytes) :
    (insertExternal c s).run ⟨b, m⟩ = some (outcome b m (b.insertExternal c s)) := by
  rw [insertExternal, StateT.run_bind, StateT.run_get, Buffer.insertExternal]
  exact run_insert h c (b.internalForm s)

theorem run_validate (p q : Int) :
    (validate p q).run ⟨b, m⟩ =
      some (outcome b m ((b.region p q).map fun _ => pure b)) := by
  by_cases hrange : b.lower.char ≤ (ordered p q).1 ∧ (ordered p q).2 ≤ b.upper.char <;>
    simp [validate, Buffer.region, outcome, hrange, Except.map]

theorem run_delete (h : b.LimitsInText) (p q : Int) :
    (delete p q).run ⟨b, m⟩ = some (outcome b m (b.delete p q)) := by
  by_cases hrange : b.lower.char ≤ (ordered p q).1 ∧ (ordered p q).2 ≤ b.upper.char
  swap
  · simp [delete, run_validate, Buffer.delete, Buffer.region, outcome, hrange, Except.map]
  have hle := Buffer.ordered_le p q
  obtain ⟨h₁, h₂⟩ := h.mem (c := (ordered p q).1) (by omega) (by omega)
  obtain ⟨h₃, h₄⟩ := h.mem (c := (ordered p q).2) (by omega) (by omega)
  have hregion : b.region p q = .ok (ordered p q) := if_pos hrange
  by_cases hempty : (ordered p q).1 = (ordered p q).2
  · simp [delete, run_validate, Buffer.delete, hregion, outcome, hempty, Except.map]
  by_cases hbehind : (ordered p q).2 ≤ b.point.char <;>
    by_cases hamong : (ordered p q).1 < b.point.char <;>
      simp [delete, run_validate, Buffer.delete, hregion, outcome, hempty, Except.map,
        run_convert h₁ h₂, run_convert h₃ h₄, Buffer.cut, Buffer.edited, Buffer.setUpper,
        Buffer.setPoint, Buffer.position, hbehind, hamong]

theorem run_narrow (p q : Int) :
    (narrow p q).run ⟨b, m⟩ = some (outcome b m ((b.narrow p q).map pure)) := by
  by_cases hrange : (ordered p q).1 < 1 ∨ b.endChar < (ordered p q).2
  · simp [narrow, Buffer.narrow, outcome, hrange, Except.map]
  have hle := Buffer.ordered_le p q
  have hlo : (convert (ordered p q).1).run ⟨b, m⟩ = some (b.toByte (ordered p q).1, ⟨b, m⟩) :=
    run_convert (by omega) (by omega)
  -- the second end is converted when the first one is a limit already
  have hhi := run_convert (b := b.setLower (b.position (ordered p q).1)) (c := (ordered p q).2)
    (m := m) (by omega) (Int.not_lt.mp (not_or.mp hrange).2)
  rw [b.toByte_setLower, Buffer.position] at hhi
  simp [narrow, Buffer.narrow, outcome, hrange, Except.map, hlo, hhi]
  rfl

/-- A widened buffer is accessible from end to end. -/
theorem exists_erased (hend : 1 ≤ b.endChar) :
    ∃ x, b.widen.delete 1 b.widen.endChar = .ok x ∧ b.erase = (·.setPoint .first) <$> x := by
  have hordered : ordered 1 b.widen.endChar = (1, b.widen.endChar) := if_neg (Int.not_lt.mpr hend)
  have hregion : b.widen.region 1 b.widen.endChar = .ok (1, b.widen.endChar) := by
    rw [Buffer.region, hordered]
    exact if_pos ⟨Int.le_refl 1, Int.le_refl _⟩
  refine ⟨if 1 = b.widen.endChar then pure b.widen else b.widen.cut 1 b.widen.endChar, ?_, ?_⟩
  · rw [Buffer.delete, hregion]
    rfl
  · rw [Buffer.erase, Buffer.delete, hregion]
    rfl

theorem run_erase (hend : 1 ≤ b.endChar) :
    erase.run ⟨b, m⟩ = some (true, ⟨b.erase.value, m⟩) := by
  obtain ⟨x, hdelete, herase⟩ := exists_erased hend
  have hrun := run_delete (m := m) (.widen hend) 1 b.widen.endChar
  rw [hdelete] at hrun
  simp [erase, hrun, outcome, herase]

/-! ## Refusals -/

/-- Steps that work on `b` say no exactly when something is `bad`, for the reason `e`; then the
message of the reason is all that they leave. Else they leave the message alone, and the buffer that
the function `r` has. -/
def Judged (x : Steps Bool) (b : Buffer) (bad : Prop) (e : RangeError)
    (r : Except RangeError (Logged Buffer)) : Prop :=
  ∀ m, (bad → r = .error e ∧ x.run ⟨b, m⟩ = some (false, ⟨b, e.message⟩)) ∧
    (¬bad → ∃ y, r = .ok y ∧ x.run ⟨b, m⟩ = some (true, ⟨y.value, m⟩))

variable {x : Steps Bool} {bad : Prop} {e : RangeError} {r : Except RangeError (Logged Buffer)}

theorem judged_of_run (hrun : ∀ m, x.run ⟨b, m⟩ = some (outcome b m r))
    (hbad : bad → r = .error e) (hgood : ¬bad → ∃ y, r = .ok y) : Judged x b bad e r := by
  intro m
  constructor
  · intro h
    have hr := hbad h
    exact ⟨hr, by rw [hrun, hr]; rfl⟩
  · intro h
    obtain ⟨y, hy⟩ := hgood h
    exact ⟨y, hy, by rw [hrun, hy]; rfl⟩

theorem judged_insert (h : b.LimitsInText) (c : Int) (s : Bytes) :
    Judged (insert c s) b (c < b.lower.char ∨ b.upper.char < c) (.place c) (b.insert c s) :=
  judged_of_run (fun _ => run_insert h c s) (fun hbad => if_pos hbad)
    fun hgood => ⟨_, if_neg hgood⟩

theorem judged_insertExternal (h : b.LimitsInText) (c : Int) (s : Bytes) :
    Judged (insertExternal c s) b (c < b.lower.char ∨ b.upper.char < c) (.place c)
      (b.insertExternal c s) :=
  judged_of_run (fun _ => run_insertExternal h c s) (fun hbad => if_pos hbad)
    fun hgood => ⟨_, if_neg hgood⟩

theorem ordered_eq (p q : Int) : ordered p q = (min p q, max p q) := by
  unfold ordered
  split <;> simp <;> omega

theorem region_eq (b : Buffer) (p q : Int) :
    b.region p q =
      if min p q < b.lower.char ∨ b.upper.char < max p q then .error (.stretch (min p q) (max p q))
      else .ok (min p q, max p q) := by
  unfold Buffer.region
  rw [ordered_eq]
  by_cases hrange : min p q < b.lower.char ∨ b.upper.char < max p q
  · rw [if_pos hrange]
    exact if_neg (by omega)
  · rw [if_neg hrange]
    exact if_pos (by omega)

theorem judged_validate (b : Buffer) (p q : Int) :
    Judged (validate p q) b (min p q < b.lower.char ∨ b.upper.char < max p q)
      (.stretch (min p q) (max p q)) ((b.region p q).map fun _ => pure b) := by
  refine judged_of_run (fun _ => run_validate p q) ?_ ?_
  · intro hbad
    rw [region_eq, if_pos hbad]
    rfl
  · intro hgood
    rw [region_eq, if_neg hgood]
    exact ⟨_, rfl⟩

theorem judged_delete (h : b.LimitsInText) (p q : Int) :
    Judged (delete p q) b (min p q < b.lower.char ∨ b.upper.char < max p q)
      (.stretch (min p q) (max p q)) (b.delete p q) := by
  refine judged_of_run (fun _ => run_delete h p q) ?_ ?_
  · intro hbad
    rw [Buffer.delete, region_eq, if_pos hbad]
    rfl
  · intro hgood
    rw [Buffer.delete, region_eq, if_neg hgood]
    exact ⟨_, rfl⟩

theorem judged_narrow (b : Buffer) (p q : Int) :
    Judged (narrow p q) b (min p q < 1 ∨ b.endChar < max p q) (.stretch (min p q) (max p q))
      ((b.narrow p q).map pure) := by
  refine judged_of_run (fun _ => run_narrow p q) ?_ ?_
  · intro hbad
    rw [Buffer.narrow, ordered_eq]
    dsimp only
    rw [if_pos hbad]
    rfl
  · intro hgood
    rw [Buffer.narrow, ordered_eq]
    dsimp only
    rw [if_neg hgood]
    exact ⟨_, rfl⟩

/-- **Range errors are exact and leave nothing behind.** Whatever numbers are given as places, in
whichever order, and whatever bytes are to be put in, even none: an operation is refused exactly
when one of its places is out of range, and then the message, with the places in order, is all that
is new. An operation that is not refused leaves the message alone. Either way the steps come to
their end, so nothing outside the text was converted, and what they leave is what the function
leaves. Erasing is never refused, however the buffer was narrowed. -/
theorem refused_iff_out_of_range (b : Buffer) (h : b.LimitsInText) (c p q : Int) (s : Bytes) :
    Judged (insert c s) b (c < b.lower.char ∨ b.upper.char < c) (.place c)
        (b.run (.insert c s)) ∧
      Judged (insertExternal c s) b (c < b.lower.char ∨ b.upper.char < c) (.place c)
        (b.run (.insertExternal c s)) ∧
      Judged (delete p q) b (min p q < b.lower.char ∨ b.upper.char < max p q)
        (.stretch (min p q) (max p q)) (b.run (.delete p q)) ∧
      Judged (validate p q) b (min p q < b.lower.char ∨ b.upper.char < max p q)
        (.stretch (min p q) (max p q)) ((b.region p q).map fun _ => pure b) ∧
      Judged (narrow p q) b (min p q < 1 ∨ b.endChar < max p q)
        (.stretch (min p q) (max p q)) (b.run (.narrow p q)) ∧
      (∀ m, erase.run ⟨b, m⟩ = some (true, ⟨b.erase.value, m⟩)) ∧
      ∃ x, b.widen.delete 1 b.widen.endChar = .ok x ∧ b.erase = (·.setPoint .first) <$> x :=
  ⟨judged_insert h c s, judged_insertExternal h c s, judged_delete h p q, judged_validate b p q,
    judged_narrow b p q, fun _ => run_erase h.one_le_end, exists_erased h.one_le_end⟩

/-- A part of a text, between characters of three bytes, asked for places at both ends of the
machine's numbers: with nothing to put in, and with the ends of the stretch the wrong way round. -/
theorem refused_far_out :
    let b := [Buffer.Command.insertExternal 1 [0xE2, 0x82, 0xAC, 0x61, 0xE2, 0x82, 0xAC],
      .narrow 3 2].foldl Buffer.step {}
    (insert (-9223372036854775808) []).run ⟨b, []⟩ =
        some (false, ⟨b, Bytes.ascii "Args out of range: -9223372036854775808"⟩) ∧
      (delete 9223372036854775807 (-9223372036854775808)).run ⟨b, []⟩ =
        some (false, ⟨b, Bytes.ascii
          "Args out of range: -9223372036854775808, 9223372036854775807"⟩) ∧
      (narrow 5 1).run ⟨b, [33]⟩ = some (false, ⟨b, Bytes.ascii "Args out of range: 1, 5"⟩) ∧
      (∃ b', (insertExternal 3 [0xFF]).run ⟨b, [33]⟩ = some (true, ⟨b', [33]⟩)) ∧
      erase.run ⟨b, [33]⟩ = some (true, ⟨b.erase.value, [33]⟩) := by
  intro b
  have h : b.LimitsInText := Buffer.limitsInText_run true _
  obtain ⟨hinsert, -, hdelete, -, -, herase, -⟩ :=
    refused_iff_out_of_range b h (-9223372036854775808) 9223372036854775807
      (-9223372036854775808) []
  obtain ⟨-, hexternal, -, -, hnarrow, -⟩ := refused_iff_out_of_range b h 3 5 1 [0xFF]
  obtain ⟨-, hinsert⟩ := (hinsert []).1 (by decide +kernel)
  obtain ⟨-, hdelete⟩ := (hdelete []).1 (by decide +kernel)
  obtain ⟨-, hnarrow⟩ := (hnarrow [33]).1 (by decide +kernel)
  obtain ⟨x, -, hexternal⟩ := (hexternal [33]).2 (by decide +kernel)
  have hplace : (RangeError.place (-9223372036854775808)).message =
      Bytes.ascii "Args out of range: -9223372036854775808" := by decide +kernel
  have hends : (RangeError.stretch (min 9223372036854775807 (-9223372036854775808))
      (max 9223372036854775807 (-9223372036854775808))).message =
      Bytes.ascii "Args out of range: -9223372036854775808, 9223372036854775807" := by
    decide +kernel
  have hswapped : (RangeError.stretch (min 5 1) (max 5 1)).message =
      Bytes.ascii "Args out of range: 1, 5" := by decide +kernel
  rw [hplace] at hinsert
  rw [hends] at hdelete
  rw [hswapped] at hnarrow
  exact ⟨hinsert, hdelete, hnarrow, ⟨x.value, hexternal⟩, herase [33]⟩

end Desk

end GapText
