import GapText.Buffer.Convert
import GapText.Overlay.Chain

/-!
# The overlays of a buffer

Operations that need a buffer and the arena of its overlays at once. They keep the two chains of the
buffer: new overlays go to the end of the chain on their side of the center, and nothing moves from
one chain to the other until the buffer is recentered. In the drawn text the order along the chains
decides which of several overlays shows.

An arena that is not the buffer's own may be handed in. Then numbers may be met that name no record,
and an operation stops there; what it did before is done.
-/

namespace GapText

/-- A buffer, and the arena in which its overlays are looked up. -/
structure Overlaid where
  arena : Arena := {}
  buffer : Buffer := {}
deriving DecidableEq, Repr

namespace Overlaid

/-- The overlays of the two chains. -/
def chains (o : Overlaid) : Except Fault (List Int × List Int) :=
  o.arena.chains o.buffer.overlays

/-- The overlays in the order of the chains, the one before the center first. -/
def linked (o : Overlaid) : Except Fault (List Int) :=
  o.chains.map fun (before, after) => before ++ after

def withChains (o : Overlaid) (l : Chains) : Overlaid :=
  { o with buffer := { o.buffer with overlays := l } }

/-- Hangs an overlay at the end of the chain on its side of the center. -/
def link (o : Overlaid) (id : Int) : Outcome Overlaid Unit :=
  match o.arena.get id with
  | .error f => .stop o f
  | .ok r =>
    let l := o.buffer.overlays
    let lo := r.start.place.char
    let hi := r.stop.place.char
    if hi < l.center then
      ((o.arena.append l.before id).within fun (a, before) =>
        { o with arena := a }.withChains { l with before }).andThen fun o _ =>
          .done o () [.overlayLinked id lo hi true l.center]
    else
      ((o.arena.append l.after id).within fun (a, after) =>
        { o with arena := a }.withChains { l with after }).andThen fun o _ =>
          .done o () [.overlayLinked id lo hi false l.center]

/-- A place brought into the text. -/
def clampChar (b : Buffer) (c : Int) : Int := min (max c 1) b.endChar

/-- Makes an overlay between two places, given in either order and brought into the text, and links
it to the buffer. `self` and `home` are the buffer's number and the arena's. -/
def make (o : Overlaid) (self : BufferId) (home : ArenaId) (p q : Int) (props : Properties) :
    Outcome Overlaid Int :=
  if o.buffer.overlays.arena.any (· != home) then .stop o .foreignArena
  else
    let b := o.buffer
    let mark (c : Int) : Marker := .inBuffer self b.last (b.position (clampChar b c))
    let id : Int := o.arena.size
    let r : Overlay := { start := mark (min p q), stop := mark (max p q), props }
    let o := { o with arena := o.arena.push r }.withChains { b.overlays with arena := some home }
    (o.link id).andThen fun o _ => .done o id

/-- Properties whose text is drawn beside the overlay and may hold newlines. -/
def spreads (ps : Properties) : Bool :=
  (ps.get? (Bytes.ascii "before-string")).isSome || (ps.get? (Bytes.ascii "after-string")).isSome

/-- Takes an overlay of this buffer off its chain and detaches it. -/
def unlink (o : Overlaid) (id : Int) : Outcome Overlaid Unit :=
  let l := o.buffer.overlays
  let taken : Except Fault (Arena × Chains) := do
    match ← o.arena.unchain l.before id with
    | some (a, before) => return (a, { l with before })
    | none =>
      match ← o.arena.unchain l.after id with
      | some (a, after) => return (a, { l with after })
      | none => return (o.arena, l)
  match taken with
  | .error f => .stop o f
  | .ok (a, l) =>
    let spread := (a.find? id).any fun r => spreads r.props
    let b := { o.buffer with overlays := l, redrawAll := o.buffer.redrawAll || spread }
    .done ⟨a.modify id Overlay.detached, b⟩ () [.overlayDeleted id]

/-- Detaches all overlays on the chains of this buffer and puts the center at the start. -/
def clear (o : Overlaid) : Outcome Overlaid Unit :=
  let l := o.buffer.overlays
  ((o.arena.detachChain l.before 0).within fun a => { o with arena := a }).andThen fun o n =>
    let l := { l with before := none }
    let o := o.withChains l
    ((o.arena.detachChain l.after n).within fun a => { o with arena := a }).andThen fun o n =>
      .done (o.withChains { l with after := none, center := 1 }) ()
        (if n = 0 then [] else [.overlaysCleared n])

/-- The overlays that cover a place. -/
def overlaysAt (o : Overlaid) (p : Int) : Except Fault (List Int) :=
  o.linked.map (·.filter fun id => (o.arena.find? id).any (·.covers p))

/-- Puts the center at `p` and deals the overlays out again: those that end before it by falling
end, the others by rising start, and those with equal keys as they were. -/
def recenter (o : Overlaid) (p : Int) : Outcome Overlaid Unit :=
  let l := o.buffer.overlays
  match o.arena.chain l.before with
  | .error f => .stop o f
  | .ok before =>
    match o.arena.chain l.after with
    | .error f => .stop (o.withChains { l with before := none }) f
    | .ok after =>
      let a := o.arena
      let (ended, rest) := (before ++ after).partition fun id => decide (a.stopChar id < p)
      let ended := ended.mergeSort fun i j => decide (a.stopChar j ≤ a.stopChar i)
      let rest := rest.mergeSort fun i j => decide (a.startChar i ≤ a.startChar j)
      let a := (a.relink ended).relink rest
      let l := { l with before := ended.head?, after := rest.head?, center := p }
      .done ({ o with arena := a }.withChains l) ()
        [.overlaysRecentered p ended.length rest.length]

end Overlaid

end GapText
