import GapText.Viewer.Basic

/-!
# Keys

What each key does. The point moves by characters inside the accessible part. The message of the
last key is gone when the next one is pressed; a key without a meaning does nothing else.
-/

namespace GapText

/-- What keys can ask for. -/
inductive Action where
  | left
  | right
  /-- Deletes the overlays at the point. -/
  | deleteHere
  | deleteAll
  | recenter
  /-- Takes the next local tab width. -/
  | nextTab
  /-- Goes back to the default tab width. -/
  | resetTab
  | quit
deriving DecidableEq, Repr

namespace Action

/-- The letters are those of the ASCII code, the arrow keys have numbers above it. -/
def ofKey (key : Int) : Option Action :=
  if key = 104 ∨ key = 260 then some left
  else if key = 108 ∨ key = 261 then some right
  else if key = 120 then some deleteHere
  else if key = 88 then some deleteAll
  else if key = 114 then some recenter
  else if key = 116 then some nextTab
  else if key = 84 then some resetTab
  else if key = 113 ∨ key = 17 then some quit
  else none

end Action

namespace Viewer

open Bytes

def moveLeft (v : Viewer) : Viewer :=
  let b := v.buffer
  if b.point.char ≤ b.lower.char then v
  else v.setPoint ⟨b.point.char - 1, b.prev b.point.byte⟩

def moveRight (v : Viewer) : Viewer :=
  let b := v.buffer
  if b.upper.char ≤ b.point.char then v
  else v.setPoint ⟨b.point.char + 1, b.next b.point.byte⟩

/-- The local tab widths go round from four to eight to two. -/
def tabAfter (width : Int) : Int := if width = 8 then 2 else width * 2

/-- The overlays that cover the point. -/
def overlaysHere (v : Viewer) : List Int :=
  match v.page.overlaysAt v.buffer.point.char with
  | .ok ids => ids
  | .error _ => []

/-- Deletes overlays of the viewer's buffer; those that are detached already stay as they are. -/
def deleteOverlays (o : Overlaid) (ids : List Int) : Logged Overlaid :=
  ids.foldlM
    (fun o id =>
      if (o.arena.find? id).any Overlay.isAttached then (o.unlink id).settle else pure o) o

def say (v : Viewer) (message : Bytes) : Viewer := { v with message }

def perform (v : Viewer) : Action → Logged Viewer
  | .left => return v.moveLeft
  | .right => return v.moveRight
  | .deleteHere => do
    let ids := v.overlaysHere
    let page ← deleteOverlays v.page ids
    return { v with page }.say (ascii "deleted " ++ digits ids.length ++ ascii " overlays")
  | .deleteAll => do
    let page ← v.page.clear.settle
    return { v with page }.say (ascii "deleted all overlays")
  | .recenter => do
    let p := v.buffer.point.char
    let page ← (v.page.recenter p).settle
    return { v with page }.say (ascii "recentered at " ++ decimal p)
  | .nextTab =>
    let width := tabAfter v.localTab
    let v := { v with localTab := width }.setTabFlag 1
    return v.say (ascii "local tab-width " ++ decimal width)
  | .resetTab => return (v.setTabFlag 0).say (ascii "tab-width " ++ decimal defaultTab)
  | .quit => return { v with quitting := true }

/-- Handles one key. -/
def press (v : Viewer) (key : Int) : Logged Viewer :=
  let v := v.say []
  match Action.ofKey key with
  | some action => v.perform action
  | none => pure v

/-- The letter that quits. -/
def quitKey : Int := 113

/-- Draws and handles keys in turn until one of them quits, and counts them. When the keys are used
up `quitKey` comes. -/
def interact (v : Viewer) : List Int → Logged (Viewer × Nat)
  | [] => if v.quitting then pure (v, 0) else (·, 1) <$> v.render.press quitKey
  | key :: rest =>
    if v.quitting then pure (v, 0)
    else do
      let v ← v.render.press key
      let (v, n) ← interact v rest
      return (v, n + 1)

end Viewer

end GapText
