import GapText.Proofs.Live
import GapText.Proofs.Overlaid

/-!
# Overlays with the log at hand

The operations of arenas and of buffers with an arena, step by step. A record is looked up wherever
its number is used, so a walk along a chain may be stopped by any of its links, and then what was
done before stays done. The message about a new link looks the overlay up again, after it was hung
on its chain: by then it can not be missing, which is why the message makes no difference
(`Live.plays_link`).
-/

namespace GapText.Live

variable {a : Arena} {id : Int} {r : Overlay}

/-! ## Records and chains -/

/-- The record of an overlay. -/
def record (id : Int) : Live Arena Overlay := demand (·.get id)

def walk : Nat → Option Int → Live Arena (List Int)
  | 0, _ => return []
  | _ + 1, none => return []
  | n + 1, some id => do
    let r ← record id
    return id :: (← walk n r.next)

/-- The overlays of the chain with this head. -/
def ids (head : Option Int) : Live Arena (List Int) := do
  walk ((← look).size + 1) head

/-- Looks for an overlay on a chain. -/
def search (id : Int) : Nat → Option Int → Live Arena (Option (List Int))
  | 0, _ => return none
  | _ + 1, none => return none
  | n + 1, some cur =>
    if cur = id then return some []
    else do
      let r ← record cur
      return (← search id n r.next).map (cur :: ·)

/-- Takes an overlay off a chain, and answers with the new head if it did hang there. -/
def unchain (head : Option Int) (id : Int) : Live Arena (Option (Option Int)) := do
  match ← search id ((← look).size + 1) head with
  | none => return none
  | some front => do
    let r ← record id
    match front.getLast? with
    | none => do
      change (·.setNext id none)
      return some r.next
    | some last => do
      change (·.setNext last r.next)
      change (·.setNext id none)
      return some head

def detach : Nat → Option Int → Nat → Live Arena Nat
  | 0, _, n => return n
  | _ + 1, none, n => return n
  | fuel + 1, some id, n => do
    let r ← record id
    change (·.modify id Overlay.detached)
    detach fuel r.next (n + 1)

def detachChain (head : Option Int) (n : Nat) : Live Arena Nat := do
  detach ((← look).size + 1) head n

/-- Hangs an overlay at the end of a chain, given with the arena. -/
def append (id : Int) : Live (Arena × Option Int) Unit := do
  let _ ← demand (·.1.get id)
  change fun (a, head) => (a.setNext id none, head)
  match (← look).2 with
  | none => change fun (a, _) => (a, some id)
  | some first => do
    let ids ← within Prod.fst (fun (_, head) a => (a, head)) (ids (some first))
    change fun (a, head) => (a.setNext (ids.getLastD first) (some id), head)

def reclaim : Live Arena Nat := do
  let a ← look
  if a.records.any Overlay.isAttached then return 0
  else do
    change fun _ => {}
    if a.size = 0 then return 0
    else do
      report (.overlaysReclaimed a.size)
      return a.size

def property (id : Int) (name : Bytes) : Live Arena (Option Bytes) := do
  return (← record id).props.get? name

def putProperty (id : Int) (name value : Bytes) : Live Arena Properties := do
  let props := (← record id).props.put name value
  change (·.modify id fun r => { r with props })
  return props

theorem plays_walk (a : Arena) : ∀ (n : Nat) (head : Option Int),
    Plays (walk n head) a (.read a (a.chainFrom n head))
  | 0, _ => plays_pure a []
  | _ + 1, none => plays_pure a []
  | n + 1, some id => by
      unfold walk Arena.chainFrom
      cases hr : a.get id with
      | error f => exact plays_demand_bind_stop hr
      | ok r =>
          refine plays_demand_bind hr ?_
          show Plays _ a (.read a (do return id :: (← a.chainFrom n r.next)))
          refine (plays_walk a n r.next).bind_read (fun f hf => by rw [hf]; rfl)
            fun rest hrest => ?_
          rw [hrest]
          exact plays_pure a _

theorem plays_ids (a : Arena) (head : Option Int) : Plays (ids head) a (.read a (a.chain head)) :=
  plays_look_bind (plays_walk a _ head)

theorem plays_search (a : Arena) (id : Int) : ∀ (n : Nat) (head : Option Int),
    Plays (search id n head) a (.read a (a.pathFrom id n head))
  | 0, _ => plays_pure a none
  | _ + 1, none => plays_pure a none
  | n + 1, some cur => by
      unfold search Arena.pathFrom
      by_cases hcur : cur = id
      · rw [if_pos hcur, if_pos hcur]
        exact plays_pure a _
      rw [if_neg hcur, if_neg hcur]
      cases hr : a.get cur with
      | error f => exact plays_demand_bind_stop hr
      | ok r =>
          refine plays_demand_bind hr ?_
          show Plays _ a (.read a (do return (← a.pathFrom id n r.next).map (cur :: ·)))
          refine (plays_search a id n r.next).bind_read (fun f hf => by rw [hf]; rfl)
            fun path hpath => ?_
          rw [hpath]
          exact plays_pure a _

theorem plays_detach : ∀ (fuel : Nat) (a : Arena) (head : Option Int) (n : Nat),
    Plays (detach fuel head n) a (a.detachFrom fuel head n)
  | 0, a, _, n => plays_pure a n
  | _ + 1, a, none, n => plays_pure a n
  | fuel + 1, a, some id, n => by
      unfold detach Arena.detachFrom
      cases hr : a.get id with
      | error f => exact plays_demand_bind_stop hr
      | ok r =>
          refine plays_demand_bind hr ?_
          exact plays_change_bind (plays_detach fuel _ r.next (n + 1))

theorem plays_detachChain (a : Arena) (head : Option Int) (n : Nat) :
    Plays (detachChain head n) a (a.detachChain head n) :=
  plays_look_bind (plays_detach _ a head n)

theorem plays_append (hid : a.get id = .ok r) (head : Option Int) :
    Plays (append id) (a, head) (a.append head id) := by
  refine plays_demand_bind hid ?_
  apply plays_change_bind
  apply plays_look_bind
  unfold Arena.append
  cases head with
  | none => exact plays_change _ _
  | some first =>
      let t := (a.setNext id none, some first)
      have hids : Plays (within Prod.fst (fun t a => (a, t.2)) (ids (some first))) t
          (.read t (t.1.chain (some first))) := by
        apply Plays.within_read _ rfl
        exact plays_ids t.1 (some first)
      dsimp only
      refine hids.bind_read (fun f hf => by rw [hf]) fun ids hchain => ?_
      rw [hchain]
      exact plays_change _ _

/-- Hanging an overlay on a chain does not remove the record of one. -/
theorem exists_get_append (a : Arena) (head : Option Int) (id : Int) (hid : a.get id = .ok r) :
    ∃ r', (a.append head id).state.1.get id = .ok r' ∧ r'.loose = r.loose := by
  have hrechained : ∃ ids, Arena.Rechained ids a (a.append head id).state.1 := by
    unfold Arena.append
    dsimp only
    split
    · exact ⟨[id], Arena.rechained_setNext (List.mem_singleton_self id) none⟩
    · rename_i first
      split
      · exact ⟨[id], Arena.rechained_setNext (List.mem_singleton_self id) none⟩
      · rename_i ids _
        exact ⟨[id, ids.getLastD first],
          (Arena.rechained_setNext (by simp) none).trans (Arena.rechained_setNext (by simp) _)⟩
  obtain ⟨ids, hrechained⟩ := hrechained
  obtain ⟨r', hr', hloose⟩ := hrechained.find? (Arena.find?_of_get hid)
  exact ⟨r', Arena.get_of_find? hr', hloose⟩

theorem plays_reclaim (a : Arena) : Plays reclaim a a.reclaim := by
  apply plays_look_bind
  unfold Arena.reclaim
  split
  · exact plays_pure a 0
  · apply plays_change_bind
    by_cases hsize : a.size = 0
    · rw [if_pos hsize, if_pos hsize, hsize]
      exact plays_pure _ 0
    · rw [if_neg hsize, if_neg hsize]
      exact plays_report_bind (plays_pure _ _)

theorem plays_property (a : Arena) (id : Int) (name : Bytes) :
    Plays (property id name) a (.read a (a.property? id name)) := by
  unfold property Arena.property?
  cases hr : a.get id with
  | error f => exact plays_demand_bind_stop hr
  | ok r => exact plays_demand_bind hr (plays_pure a _)

theorem plays_putProperty (a : Arena) (id : Int) (name value : Bytes) :
    Plays (putProperty id name value) a (a.putProperty id name value) := by
  unfold putProperty Arena.putProperty
  cases hr : a.get id with
  | error f => exact plays_demand_bind_stop hr
  | ok r =>
      refine plays_demand_bind hr ?_
      exact plays_change_bind (plays_pure _ _)

/-! ## Buffers with an arena -/

variable {o : Overlaid}

def onArena {α : Type} (x : Live Arena α) : Live Overlaid α :=
  within (·.arena) (fun o arena => { o with arena }) x

/-- Hangs an overlay at the end of one of the two chains. -/
def hang (before : Bool) (id : Int) : Live Overlaid Unit :=
  if before then
    within (fun o => (o.arena, o.buffer.overlays.before))
      (fun o (arena, before) => { o with arena }.withChains { o.buffer.overlays with before })
      (append id)
  else
    within (fun o => (o.arena, o.buffer.overlays.after))
      (fun o (arena, after) => { o with arena }.withChains { o.buffer.overlays with after })
      (append id)

/-- The message about a new link looks up where the overlay starts and ends. -/
def linkMessage (id : Int) (before : Bool) : List (Overlaid → Except Fault Bytes) :=
  [fun _ => .ok (Bytes.ascii "overlay "), fun _ => .ok (Bytes.decimal id),
    fun _ => .ok (Bytes.ascii " ["),
    fun o => (o.arena.get id).map fun r => Bytes.decimal r.start.place.char,
    fun _ => .ok (Bytes.ascii ", "),
    fun o => (o.arena.get id).map fun r => Bytes.decimal r.stop.place.char,
    fun _ => .ok (Bytes.ascii ") linked "),
    fun _ => .ok (Bytes.ascii (if before then "before" else "after")),
    fun _ => .ok (Bytes.ascii " center "),
    fun o => .ok (Bytes.decimal o.buffer.overlays.center)]

def link (id : Int) : Live Overlaid Unit := do
  let r ← demand (·.arena.get id)
  let before := decide (r.stop.place.char < (← look).buffer.overlays.center)
  hang before id
  message .debug (linkMessage id before)

def make (self : BufferId) (home : ArenaId) (p q : Int) (props : Properties) :
    Live Overlaid Int := do
  let o ← look
  if o.buffer.overlays.arena.any (· != home) then stop .foreignArena
  else do
    let b := o.buffer
    let mark (c : Int) : Marker := .inBuffer self b.last (b.position (Overlaid.clampChar b c))
    let id : Int := o.arena.size
    change fun o =>
      { o with
        arena := o.arena.push { start := mark (min p q), stop := mark (max p q), props } }
    change fun o => o.withChains { o.buffer.overlays with arena := some home }
    link id
    return id

def takeOff (id : Int) : Live Overlaid Unit := do
  match ← onArena (unchain (← look).buffer.overlays.before id) with
  | some before => change fun o => o.withChains { o.buffer.overlays with before }
  | none => do
    match ← onArena (unchain (← look).buffer.overlays.after id) with
    | some after => change fun o => o.withChains { o.buffer.overlays with after }
    | none => return ()

def unlink (id : Int) : Live Overlaid Unit := do
  takeOff id
  onArena (change (·.modify id Overlay.detached))
  let r ← demand (·.arena.get id)
  change fun o =>
    { o with
      buffer := { o.buffer with
        redrawAll := o.buffer.redrawAll || Overlaid.spreads r.props } }
  report (.overlayDeleted id)

def clear : Live Overlaid Unit := do
  let n ← onArena (detachChain (← look).buffer.overlays.before 0)
  change fun o => o.withChains { o.buffer.overlays with before := none }
  let n ← onArena (detachChain (← look).buffer.overlays.after n)
  change fun o => o.withChains { o.buffer.overlays with after := none }
  change fun o => o.withChains { o.buffer.overlays with center := 1 }
  if n = 0 then return () else report (.overlaysCleared n)

def chains : Live Overlaid (List Int × List Int) := do
  let before ← onArena (ids (← look).buffer.overlays.before)
  return (before, ← onArena (ids (← look).buffer.overlays.after))

def overlaysAt (p : Int) : Live Overlaid (List Int) := do
  let (before, after) ← chains
  let o ← look
  return (before ++ after).filter fun id => (o.arena.find? id).any (·.covers p)

/-- Both chains are taken down before they are dealt out again. -/
def recenter (p : Int) : Live Overlaid Unit := do
  let before ← onArena (ids (← look).buffer.overlays.before)
  change fun o => o.withChains { o.buffer.overlays with before := none }
  let after ← onArena (ids (← look).buffer.overlays.after)
  change fun o => o.withChains { o.buffer.overlays with after := none }
  let a := (← look).arena
  let (ended, rest) := (before ++ after).partition fun id => decide (a.stopChar id < p)
  let ended := ended.mergeSort fun i j => decide (a.stopChar j ≤ a.stopChar i)
  let rest := rest.mergeSort fun i j => decide (a.startChar i ≤ a.startChar j)
  onArena (change (·.relink ended))
  onArena (change (·.relink rest))
  change fun o =>
    o.withChains
      { o.buffer.overlays with before := ended.head?, after := rest.head?, center := p }
  report (.overlaysRecentered p ended.length rest.length)

theorem plays_onArena {α : Type} {x : Live Arena α} {y : Outcome Arena α}
    (hx : Plays x o.arena y) :
    Plays (onArena x) o (y.within fun arena => { o with arena }) :=
  hx.within

theorem plays_onArena_ids (o : Overlaid) (head : Option Int) :
    Plays (onArena (ids head)) o (.read o (o.arena.chain head)) :=
  (plays_ids o.arena head).within_read rfl

/-- Once an overlay is found every piece of the message about its link can be had. -/
theorem compose_linkMessage (hid : o.arena.get id = .ok r) (before : Bool) :
    compose o (linkMessage id before) =
      ((Event.overlayLinked id r.start.place.char r.stop.place.char before
        o.buffer.overlays.center).text, none) := by
  simp [linkMessage, compose, hid, Except.map, Event.text]

/-- About an overlay that is missing the message would make a difference. -/
example :
    let told (l : Level) := message .debug (linkMessage 0 true) { threshold := l, keeping := true }
      ({} : Overlaid)
    (told .trace).logger.kept =
        [⟨.fatal, Bytes.ascii "no overlay with id 0"⟩, ⟨.debug, Bytes.ascii "overlay 0 ["⟩] ∧
      (told .trace).result = .error (.unknownOverlay 0) ∧ (told .info).result = .ok () :=
  ⟨by decide +kernel, rfl, rfl⟩

/-- What hanging an overlay at the end of a chain comes to. -/
def hung (o : Overlaid) (before : Bool) (id : Int) : Outcome Overlaid Unit :=
  if before then
    (o.arena.append o.buffer.overlays.before id).within fun (arena, before) =>
      { o with arena }.withChains { o.buffer.overlays with before }
  else
    (o.arena.append o.buffer.overlays.after id).within fun (arena, after) =>
      { o with arena }.withChains { o.buffer.overlays with after }

theorem plays_hang (hid : o.arena.get id = .ok r) (before : Bool) :
    Plays (hang before id) o (hung o before id) := by
  unfold hang hung
  cases before with
  | true =>
      rw [if_pos rfl, if_pos rfl]
      exact Plays.within (plays_append hid _)
  | false =>
      rw [if_neg Bool.false_ne_true, if_neg Bool.false_ne_true]
      exact Plays.within (plays_append hid _)

theorem center_hung (o : Overlaid) (before : Bool) (id : Int) :
    (hung o before id).state.buffer.overlays.center = o.buffer.overlays.center := by
  cases before <;> rfl

theorem exists_get_hung (hid : o.arena.get id = .ok r) (before : Bool) :
    ∃ r', (hung o before id).state.arena.get id = .ok r' ∧ r'.loose = r.loose := by
  cases before with
  | true => exact exists_get_append o.arena o.buffer.overlays.before id hid
  | false => exact exists_get_append o.arena o.buffer.overlays.after id hid

/-- Linking an overlay that exists. -/
theorem link_eq (hid : o.arena.get id = .ok r) :
    let before := decide (r.stop.place.char < o.buffer.overlays.center)
    o.link id = (hung o before id).andThen fun o' _ =>
      .done o' () [.overlayLinked id r.start.place.char r.stop.place.char before
        o.buffer.overlays.center] := by
  intro before
  unfold Overlaid.link
  rw [hid]
  dsimp only
  by_cases hside : r.stop.place.char < o.buffer.overlays.center
  · have hbefore : before = true := decide_eq_true hside
    rw [if_pos hside, hbefore]
    rfl
  · have hbefore : before = false := decide_eq_false hside
    rw [if_neg hside, hbefore]
    rfl

theorem plays_link (o : Overlaid) (id : Int) : Plays (link id) o (o.link id) := by
  cases hid : o.arena.get id with
  | error f =>
      unfold link Overlaid.link
      rw [hid]
      exact plays_demand_bind_stop hid
  | ok r =>
      rw [link_eq hid]
      refine plays_demand_bind hid ?_
      apply plays_look_bind
      refine (plays_hang hid _).bind ?_
      intro _ _
      -- the overlay has the same ends as before it was hung
      obtain ⟨r', hid', hloose⟩ :=
        exists_get_hung hid (decide (r.stop.place.char < o.buffer.overlays.center))
      have htext := compose_linkMessage hid' (decide (r.stop.place.char < o.buffer.overlays.center))
      have hstart : r'.loose.start = r.loose.start := congrArg _ hloose
      have hstop : r'.loose.stop = r.loose.stop := congrArg _ hloose
      change r'.start = r.start at hstart
      change r'.stop = r.stop at hstop
      rw [center_hung, hstart, hstop] at htext
      exact plays_message rfl htext

theorem plays_make (o : Overlaid) (self : BufferId) (home : ArenaId) (p q : Int)
    (props : Properties) :
    Plays (make self home p q props) o (o.make self home p q props) := by
  apply plays_look_bind
  unfold Overlaid.make
  split
  · exact plays_stop o _
  · apply plays_change_bind
    apply plays_change_bind
    exact (plays_link _ _).bind fun _ _ => plays_pure _ _

/-! ### Taking off and clearing -/

/-- What a chain looks like when an overlay was taken off it: the arena and the head, if it did hang
there. -/
def unchained (a : Arena) : Except Fault (Option (Arena × Option Int)) →
    Outcome Arena (Option (Option Int))
  | .error f => .stop a f
  | .ok none => .done a none
  | .ok (some (a, head)) => .done a (some head)

theorem plays_unchain (hid : a.get id = .ok r) (head : Option Int) :
    Plays (unchain head id) a (unchained a (a.unchain head id)) := by
  apply plays_look_bind
  unfold Arena.unchain Arena.path
  refine (plays_search a id _ head).bind_read (fun f hf => by rw [hf]; rfl) fun path hpath => ?_
  rw [hpath]
  cases path with
  | none => exact plays_pure a none
  | some front =>
      have hnext : (a.find? id).bind (·.next) = r.next := by
        rw [Arena.find?_of_get hid]
        rfl
      show Plays _ a (unchained a (match front.getLast? with
        | none => .ok (some (a.setNext id none, (a.find? id).bind (·.next)))
        | some last => .ok (some
            ((a.setNext last ((a.find? id).bind (·.next))).setNext id none, head))))
      rw [hnext]
      refine plays_demand_bind hid ?_
      cases front.getLast? with
      | none => exact plays_change_bind (plays_pure _ _)
      | some last => exact plays_change_bind (plays_change_bind (plays_pure _ _))

theorem rechained_unchain {a' : Arena} {head head' : Option Int}
    (h : a.unchain head id = .ok (some (a', head'))) : ∃ ids, Arena.Rechained ids a a' := by
  unfold Arena.unchain at h
  cases hpath : a.path head id with
  | error f =>
      rw [hpath] at h
      cases h
  | ok path =>
      rw [hpath] at h
      cases path with
      | none => cases h
      | some front =>
          cases hlast : front.getLast? with
          | none =>
              simp only [bind, Except.bind, hlast] at h
              cases h
              exact ⟨[id], Arena.rechained_setNext (List.mem_singleton_self id) none⟩
          | some last =>
              simp only [bind, Except.bind, hlast] at h
              cases h
              exact ⟨[last, id], (Arena.rechained_setNext (by simp) _).trans
                (Arena.rechained_setNext (by simp) none)⟩

/-- The arena and the chains without an overlay, which hangs on one of them or on none. -/
def taken (o : Overlaid) (id : Int) : Except Fault (Arena × Chains) :=
  match o.arena.unchain o.buffer.overlays.before id with
  | .error f => .error f
  | .ok (some (arena, before)) => .ok (arena, { o.buffer.overlays with before })
  | .ok none =>
    match o.arena.unchain o.buffer.overlays.after id with
    | .error f => .error f
    | .ok (some (arena, after)) => .ok (arena, { o.buffer.overlays with after })
    | .ok none => .ok (o.arena, o.buffer.overlays)

theorem rechained_taken {a' : Arena} {l : Chains} (h : taken o id = .ok (a', l)) :
    ∃ ids, Arena.Rechained ids o.arena a' := by
  unfold taken at h
  split at h
  · cases h
  · cases h
    rename_i hbefore
    exact rechained_unchain hbefore
  · split at h
    · cases h
    · cases h
      rename_i hafter
      exact rechained_unchain hafter
    · cases h
      exact ⟨[], Arena.Rechained.refl [] _⟩

/-- What taking an overlay off its chain comes to. -/
def off (o : Overlaid) : Except Fault (Arena × Chains) → Outcome Overlaid Unit
  | .error f => .stop o f
  | .ok (arena, overlays) => .done ⟨arena, { o.buffer with overlays }⟩ ()

theorem plays_takeOff (hid : o.arena.get id = .ok r) :
    Plays (takeOff id) o (off o (taken o id)) := by
  apply plays_look_bind
  have hbefore := plays_onArena (plays_unchain hid o.buffer.overlays.before)
  have hafter := plays_onArena (plays_unchain hid o.buffer.overlays.after)
  unfold taken
  rcases hb : o.arena.unchain o.buffer.overlays.before id with f | _ | ⟨a, head⟩
  · rw [hb] at hbefore
    exact hbefore.andThen_stop
  · rw [hb] at hbefore
    rcases ha : o.arena.unchain o.buffer.overlays.after id with f | _ | ⟨a, head⟩ <;>
      rw [ha] at hafter
    · exact hbefore.andThen (plays_look_bind hafter.andThen_stop)
    · exact hbefore.andThen (plays_look_bind (hafter.andThen (plays_pure o ())))
    · exact hbefore.andThen (plays_look_bind (hafter.andThen (plays_change _ _)))
  · rw [hb] at hbefore
    exact hbefore.andThen (plays_change _ _)

theorem unlink_eq (o : Overlaid) (id : Int) :
    o.unlink id = match taken o id with
      | .error f => .stop o f
      | .ok (a, overlays) =>
        let spread := (a.find? id).any fun r => Overlaid.spreads r.props
        let b := { o.buffer with overlays, redrawAll := o.buffer.redrawAll || spread }
        .done ⟨a.modify id Overlay.detached, b⟩ () [.overlayDeleted id] := by
  unfold Overlaid.unlink taken
  dsimp only
  rcases hb : o.arena.unchain o.buffer.overlays.before id with f | _ | ⟨a, head⟩
  · rfl
  · rcases ha : o.arena.unchain o.buffer.overlays.after id with f | _ | ⟨a, head⟩ <;> rfl
  · rfl

/-- An overlay that exists is taken off, whichever chain it is on. -/
theorem plays_unlink (hid : o.arena.get id = .ok r) : Plays (unlink id) o (o.unlink id) := by
  have htaken := plays_takeOff hid
  rw [unlink_eq]
  rcases ht : taken o id with f | ⟨a, l⟩ <;> rw [ht] at htaken
  · exact htaken.andThen_stop
  · obtain ⟨ids, hrechained⟩ := rechained_taken ht
    obtain ⟨r', hr', -⟩ := hrechained.find? (Arena.find?_of_get hid)
    have hdetached : (a.modify id Overlay.detached).get id = .ok r'.detached := by
      apply Arena.get_of_find?
      rw [Arena.find?_modify, if_pos rfl, hr']
      rfl
    have hspread : (a.find? id).any (fun r => Overlaid.spreads r.props) =
        Overlaid.spreads r'.detached.props := by
      rw [hr']
      rfl
    dsimp only
    rw [hspread]
    exact htaken.andThen ((plays_onArena (plays_change _ _)).andThen
      (plays_demand_bind hdetached (plays_change_bind (plays_report _ _))))

theorem plays_clear (o : Overlaid) : Plays clear o o.clear := by
  apply plays_look_bind
  refine (plays_onArena (plays_detachChain _ _ _)).bind ?_
  intro n _
  apply plays_change_bind
  apply plays_look_bind
  refine (plays_onArena (plays_detachChain _ _ _)).bind ?_
  intro n _
  apply plays_change_bind
  apply plays_change_bind
  by_cases hn : n = 0
  · rw [if_pos hn, if_pos hn]
    exact plays_pure _ ()
  · rw [if_neg hn, if_neg hn]
    exact plays_report _ _

/-! ### Chains as a whole -/

theorem plays_chains (o : Overlaid) : Plays chains o (.read o o.chains) := by
  unfold Overlaid.chains Arena.chains
  apply plays_look_bind
  refine (plays_onArena_ids o _).bind_read (fun f hf => by rw [hf]; rfl) fun before hbefore => ?_
  rw [hbefore]
  apply plays_look_bind
  refine (plays_onArena_ids o _).bind_read (fun f hf => by rw [hf]; rfl) fun after hafter => ?_
  rw [hafter]
  exact plays_pure o _

theorem plays_overlaysAt (o : Overlaid) (p : Int) :
    Plays (overlaysAt p) o (.read o (o.overlaysAt p)) := by
  unfold Overlaid.overlaysAt Overlaid.linked
  refine (plays_chains o).bind_read (fun f hf => by rw [hf]; rfl) fun lists hlists => ?_
  rw [hlists]
  exact plays_look_bind (plays_pure o _)

theorem plays_recenter (o : Overlaid) (p : Int) : Plays (recenter p) o (o.recenter p) := by
  unfold Overlaid.recenter
  dsimp only
  apply plays_look_bind
  refine (plays_onArena_ids o _).bind_read (fun f hf => by rw [hf]) fun before hbefore => ?_
  rw [hbefore]
  apply plays_change_bind
  apply plays_look_bind
  -- the first chain is down when the second one is walked
  have hids : Plays (onArena (ids o.buffer.overlays.after))
      (o.withChains { o.buffer.overlays with before := none })
      (.read _ (o.arena.chain o.buffer.overlays.after)) := plays_onArena_ids _ _
  refine hids.bind_read (fun f hf => by rw [hf]) fun after hafter => ?_
  rw [hafter]
  apply plays_change_bind
  apply plays_look_bind
  exact (plays_onArena (plays_change _ _)).andThen
    ((plays_onArena (plays_change _ _)).andThen (plays_change_bind (plays_report _ _)))

end GapText.Live
