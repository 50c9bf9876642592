import GapText.Buffer.Command
import GapText.Proofs.Live

/-!
# Texts with the log at hand

The operations of slot tables, gap buffers and buffers step by step, in the order in which the state
changes and the messages are composed, and for each of them that it plays what the function reports.
-/

namespace GapText.Live

/-! ## Slots -/

def registerSlot (name : Bytes) : Live Slots Nat := do
  let t ← look
  if (t.index? name).isSome then stop (.slotTaken name)
  else do
    change fun t => ⟨t.names ++ [name]⟩
    let index := (← look).count - 1
    report (.slotRegistered name index)
    return index

theorem plays_registerSlot (t : Slots) (name : Bytes) :
    Plays (registerSlot name) t (t.register name) := by
  apply plays_look_bind
  unfold Slots.register
  split
  · exact plays_stop t _
  · apply plays_change_bind
    apply plays_look_bind
    have hindex : ({ names := t.names ++ [name] } : Slots).count - 1 = t.count := by
      simp [Slots.count]
    rw [hindex]
    exact plays_report_bind (plays_pure _ _)

/-! ## Gap buffers -/

namespace Gap

variable (g : GapBuffer) (p : Int)

/-- The bytes between are copied before the message, which still names the old place. -/
def move (p : Int) : Live GapBuffer Unit := do
  let g ← look
  if p = g.gapPos then return ()
  else do
    change fun g => { g with storage := (g.relocate (p - 1).toNat).storage }
    report (.gapMoved (← look).gapPos p)
    change fun g => GapBuffer.guarded { g with gapStart := (p - 1).toNat }

def grow (growth : Int) : Live GapBuffer Unit :=
  if growth ≤ 0 then return ()
  else do
    change fun g => GapBuffer.guarded (g.enlarge growth.toNat)
    let g ← look
    report (.gapGrown growth g.gapSize g.storage.size)

def ensure (need : Int) : Live GapBuffer Unit := do
  let g ← look
  if need < g.gapSize then return ()
  else grow (max (need - g.gapSize + GapBuffer.spareBytes) GapBuffer.minGrowth)

def insert (p : Int) (s : Bytes) : Live GapBuffer Unit :=
  if s.isEmpty then return ()
  else do
    move p
    ensure s.length
    change fun g => GapBuffer.guarded (g.fill s)

def delete (lo hi : Int) : Live GapBuffer Unit :=
  if hi ≤ lo then return ()
  else do
    move lo
    change fun g => GapBuffer.guarded (g.swallow (hi - lo).toNat)

def run : GapBuffer.Command → Live GapBuffer Unit
  | .clear => change fun _ => GapBuffer.empty
  | .load s => change fun _ => GapBuffer.ofList s
  | .insert p s => insert p s
  | .delete lo hi => delete lo hi
  | .move p => move p
  | .ensure need => ensure need
  | .grow growth => grow growth

theorem plays_move : Plays (move p) g (.ofLogged (g.moveGap p) ()) := by
  apply plays_look_bind
  unfold GapBuffer.moveGap
  split
  · exact plays_pure g ()
  · apply plays_change_bind
    apply plays_look_bind
    exact plays_report_bind (plays_change _ _)

theorem plays_grow (growth : Int) : Plays (grow growth) g (.ofLogged (g.growGap growth) ()) := by
  unfold grow GapBuffer.growGap
  split
  · exact plays_pure g ()
  · apply plays_change_bind
    apply plays_look_bind
    exact plays_report _ _

theorem plays_ensure (need : Int) : Plays (ensure need) g (.ofLogged (g.ensureGap need) ()) := by
  apply plays_look_bind
  unfold GapBuffer.ensureGap
  split
  · exact plays_pure g ()
  · exact plays_grow g _

theorem plays_insert (s : Bytes) : Plays (insert p s) g (.ofLogged (g.insert p s) ()) := by
  unfold insert GapBuffer.insert
  split
  · exact plays_pure g ()
  · apply (plays_move g p).then
    apply (plays_ensure _ _).then
    exact plays_change _ _

theorem plays_delete (lo hi : Int) : Plays (delete lo hi) g (.ofLogged (g.delete lo hi) ()) := by
  unfold delete GapBuffer.delete
  split
  · exact plays_pure g ()
  · exact (plays_move g lo).then (plays_change _ _)

theorem plays_run (c : GapBuffer.Command) : Plays (run c) g (.ofLogged (g.run c) ()) := by
  cases c with
  | clear => exact plays_change _ g
  | load s => exact plays_change _ g
  | insert p s => exact plays_insert g p s
  | delete lo hi => exact plays_delete g lo hi
  | move p => exact plays_move g p
  | ensure need => exact plays_ensure g need
  | grow growth => exact plays_grow g growth

end Gap

/-! ## Buffers -/

namespace Text

variable (b : Buffer) (c p q : Int) (s : Bytes)

def onText {α : Type} (x : Live GapBuffer α) : Live Buffer α :=
  within (·.text) (fun b text => { b with text }) x

def moveGap (c : Int) : Live Buffer Unit := do
  let b ← look
  onText (Gap.move (b.toByte c))
  change fun b => { b with gapChar := c }

def splice (c : Int) (s : Bytes) : Live Buffer Unit := do
  let b ← look
  let chars : Int := b.countChars s
  onText (Gap.insert (b.toByte c) s)
  change fun b =>
    b.edited b.text (c + chars) chars s.length
      (if c ≤ b.point.char then b.point.shift chars s.length else b.point)

def cut (lo hi : Int) : Live Buffer Unit := do
  let b ← look
  let start := b.position lo
  let stop := b.position hi
  let chars := hi - lo
  let bytes := stop.byte - start.byte
  onText (Gap.delete start.byte stop.byte)
  change fun b =>
    b.edited b.text lo (-chars) (-bytes)
      (if hi ≤ b.point.char then b.point.shift (-chars) (-bytes)
        else if lo < b.point.char then start
        else b.point)

/-- An insertion or the reason why it is refused. -/
def insert (c : Int) (s : Bytes) : Live Buffer (Option RangeError) := do
  let b ← look
  if c < b.lower.char ∨ b.upper.char < c then return some (.place c)
  else if s.isEmpty then return none
  else do
    splice c s
    return none

def delete (p q : Int) : Live Buffer (Option RangeError) := do
  let b ← look
  match b.region p q with
  | .error e => return some e
  | .ok (lo, hi) =>
    if lo = hi then return none
    else do
      cut lo hi
      return none

def erase : Live Buffer Unit := do
  change Buffer.widen
  match ← delete 1 (← look).endChar with
  | none => change (·.setPoint .first)
  | some e => report (.eraseRefused e.message)

def narrow (p q : Int) : Live Buffer (Option RangeError) := do
  match (← look).narrow p q with
  | .error e => return some e
  | .ok b => do
    change fun _ => b
    return none

def run : Buffer.Command → Live Buffer (Option RangeError)
  | .insert c s => insert c s
  | .insertExternal c s => do insert c ((← look).internalForm s)
  | .delete p q => delete p q
  | .narrow p q => narrow p q
  | .erase => do
    erase
    return none
  | .widen => do
    change Buffer.widen
    return none
  | .moveGap c => do
    moveGap c
    return none
  | .goTo c => do
    change fun b => b.setPoint (b.position c)
    return none

/-- What a command comes to of which the function says `r`. -/
def judged (b : Buffer) : Except RangeError (Logged Buffer) → Outcome Buffer (Option RangeError)
  | .ok x => .ofLogged x none
  | .error e => .done b (some e)

theorem plays_moveGap : Plays (moveGap c) b (.ofLogged (b.moveGap c) ()) := by
  apply plays_look_bind
  exact (Gap.plays_move _ _).thenWithin (plays_change _ _)

theorem plays_splice : Plays (splice c s) b (.ofLogged (b.splice c s) ()) := by
  apply plays_look_bind
  exact (Gap.plays_insert _ _ _).thenWithin (plays_change _ _)

theorem plays_cut : Plays (cut p q) b (.ofLogged (b.cut p q) ()) := by
  apply plays_look_bind
  exact (Gap.plays_delete _ _ _).thenWithin (plays_change _ _)

/-- A command that is not refused. -/
theorem accepted {x : Live Buffer Unit} {y : Logged Buffer} (hx : Plays x b (.ofLogged y ())) :
    Plays (do x; return (none : Option RangeError)) b (.ofLogged y none) := by
  have hplays := hx.andThen (k := fun _ => pure (none : Option RangeError)) (plays_pure y.value _)
  rw [List.append_nil] at hplays
  exact hplays

theorem plays_insert : Plays (insert c s) b (judged b (b.insert c s)) := by
  apply plays_look_bind
  unfold Buffer.insert
  split
  · exact plays_pure b _
  · split
    · exact plays_pure b _
    · exact accepted b (plays_splice b c s)

theorem plays_delete : Plays (delete p q) b (judged b (b.delete p q)) := by
  apply plays_look_bind
  unfold Buffer.delete
  cases b.region p q with
  | error e => exact plays_pure b _
  | ok stretch =>
      obtain ⟨lo, hi⟩ := stretch
      show Plays _ b (.ofLogged (if lo = hi then pure b else b.cut lo hi) none)
      dsimp only
      split
      · exact plays_pure b _
      · exact accepted b (plays_cut b lo hi)

theorem plays_erase : Plays erase b (.ofLogged b.erase ()) := by
  apply plays_change_bind
  apply plays_look_bind
  have hdelete := plays_delete b.widen 1 b.widen.endChar
  unfold Buffer.erase
  dsimp only
  cases hr : b.widen.delete 1 b.widen.endChar with
  | error e =>
      rw [hr] at hdelete
      exact hdelete.andThen (plays_report _ _)
  | ok x =>
      rw [hr] at hdelete
      exact hdelete.andThen (plays_change _ _)

theorem plays_narrow : Plays (narrow p q) b (judged b ((b.narrow p q).map pure)) := by
  apply plays_look_bind
  cases b.narrow p q with
  | error e => exact plays_pure b _
  | ok b' => exact plays_change_bind (plays_pure b' _)

theorem plays_run (k : Buffer.Command) : Plays (run k) b (judged b (b.run k)) := by
  cases k with
  | insert c s => exact plays_insert b c s
  | insertExternal c s => exact plays_look_bind (plays_insert b c (b.internalForm s))
  | delete p q => exact plays_delete b p q
  | narrow p q => exact plays_narrow b p q
  | erase => exact accepted b (plays_erase b)
  | widen => exact accepted b (plays_change _ b)
  | moveGap c => exact accepted b (plays_moveGap b c)
  | goTo c => exact accepted b (plays_change _ b)

end Text

end GapText.Live
