import GapText.Overlay.Arena

/-!
# Chains of overlays

Walks along a chain and changes to it. Every walk looks records up by number and stops at the first
number that names none. On a chain that does not come back to itself a walk visits no record twice,
so it is bounded by the size of the arena.
-/

namespace GapText

namespace Arena

def chainFrom (a : Arena) : Nat → Option Int → Except Fault (List Int)
  | 0, _ => .ok []
  | _ + 1, none => .ok []
  | n + 1, some id => do
    let o ← a.get id
    return id :: (← chainFrom a n o.next)

/-- The overlays of the chain with this head, in order. -/
def chain (a : Arena) (head : Option Int) : Except Fault (List Int) :=
  a.chainFrom (a.size + 1) head

def pathFrom (a : Arena) (id : Int) :
    Nat → Option Int → Except Fault (Option (List Int))
  | 0, _ => .ok none
  | _ + 1, none => .ok none
  | n + 1, some cur =>
    if cur = id then .ok (some [])
    else do
      let o ← a.get cur
      return (← pathFrom a id n o.next).map (cur :: ·)

/-- The overlays in front of `id` on the chain with this head, if it hangs there. What comes behind
`id` is not looked at. -/
def path (a : Arena) (head : Option Int) (id : Int) :
    Except Fault (Option (List Int)) :=
  a.pathFrom id (a.size + 1) head

def setNext (a : Arena) (id : Int) (next : Option Int) : Arena :=
  a.modify id fun o => { o with next }

/-- Hangs `id` at the end of a chain. It is first taken to have nothing behind it, and stays so
when the walk to the end is stopped. -/
def append (a : Arena) (head : Option Int) (id : Int) :
    Outcome (Arena × Option Int) Unit :=
  let a := a.setNext id none
  match head with
  | none => .done (a, some id) ()
  | some first =>
    match a.chain head with
    | .error f => .stop (a, head) f
    | .ok ids => .done (a.setNext (ids.getLastD first) (some id), head) ()

/-- Takes `id` off a chain; `none` when it does not hang there. -/
def unchain (a : Arena) (head : Option Int) (id : Int) :
    Except Fault (Option (Arena × Option Int)) := do
  match ← a.path head id with
  | none => return none
  | some front =>
    let next := (a.find? id).bind (·.next)
    match front.getLast? with
    | none => return some (a.setNext id none, next)
    | some last => return some ((a.setNext last next).setNext id none, head)

/-- Detaches the overlays of a chain one after the other, on top of `n` detached before, and
counts them. -/
def detachFrom (a : Arena) : Nat → Option Int → Nat → Outcome Arena Nat
  | 0, _, n => .done a n
  | _ + 1, none, n => .done a n
  | fuel + 1, some id, n =>
    match a.get id with
    | .error f => .stop a f
    | .ok o => detachFrom (a.modify id Overlay.detached) fuel o.next (n + 1)

/-- Detaches all overlays of a chain. -/
def detachChain (a : Arena) (head : Option Int) (n : Nat) : Outcome Arena Nat :=
  a.detachFrom (a.size + 1) head n

/-- Makes a chain of the overlays in this order. -/
def relink (a : Arena) : List Int → Arena
  | [] => a
  | [id] => a.setNext id none
  | id :: next :: rest => relink (a.setNext id (some next)) (next :: rest)

/-- The bounds of an overlay as its markers remember them. -/
def startChar (a : Arena) (id : Int) : Int := ((a.find? id).getD {}).start.place.char

def stopChar (a : Arena) (id : Int) : Int := ((a.find? id).getD {}).stop.place.char

/-- Both chains of a buffer. -/
def chains (a : Arena) (l : Chains) : Except Fault (List Int × List Int) := do
  let before ← a.chain l.before
  return (before, ← a.chain l.after)

end Arena

end GapText
