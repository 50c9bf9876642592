import GapText.Buffer.Edit
import GapText.Display.Render
import GapText.Files

/-!
# The viewer

A viewer shows one buffer on a screen of its own, with overlays from an arena of its own. Text is
loaded as a whole; loading again starts over. Matches of a word are marked by overlays with a face.

Since the overlays of a viewer never leave its one arena, no number on its chains is ever without a
record, and the faults of foreign arenas do not come up here.
-/

namespace GapText

structure Viewer where
  screen : Screen
  page : Overlaid
  viewport : Viewport := {}
  /-- The tab width that counts while the buffer has a local one. -/
  localTab : Int := 4
  message : Bytes := []
  quitting : Bool := false
deriving DecidableEq, Repr

namespace Viewer

/-- The tab width of a buffer that has none of its own. -/
def defaultTab : Int := 4

/-- The variables that can be local to the viewer's buffer. -/
def slots : Slots := ⟨[Bytes.ascii "tab-width"]⟩

def tabSlot : Nat := 0

/-- A viewer without text, on a screen of this size. -/
def start (rows cols : Nat) (multibyte : Bool) : Viewer where
  screen := .ofSize rows cols
  page := { buffer := { multibyte } }

def buffer (v : Viewer) : Buffer := v.page.buffer

def setBuffer (v : Viewer) (b : Buffer) : Viewer := { v with page := { v.page with buffer := b } }

def setPoint (v : Viewer) (p : Position) : Viewer := v.setBuffer (v.buffer.setPoint p)

def tabWidth (v : Viewer) : Int := if v.buffer.flags.isSet tabSlot then v.localTab else defaultTab

/-- Gives the buffer a tab width of its own, or takes it away. -/
def setTabFlag (v : Viewer) (value : Int8) : Viewer :=
  v.setBuffer { v.buffer with flags := v.buffer.flags.put slots.count tabSlot value }

/-! ## Loading -/

/-- Replaces the text, the overlays and their records. -/
def loadBytes (v : Viewer) (s : Bytes) : Logged Viewer := do
  let page ← v.page.clear.settle
  let arena ← page.arena.reclaim.settle
  let b ← page.buffer.erase
  let v := { v with page := ⟨arena, b⟩ }
  match b.insertExternal 1 s with
  | .error e => return { v with message := e.message }
  | .ok inserted => return v.setBuffer ((← inserted).setPoint .first)

/-- Loads a file; one that can not be read leaves the viewer as it is. -/
def load (v : Viewer) (t : FileTree) (path : Bytes) : Logged (Except ReadError Viewer) := do
  match ← t.read path with
  | .error e => return .error e
  | .ok s => return .ok (← v.loadBytes s)

/-! ## Marking -/

/-- Puts an overlay with the face of matches on a stretch of bytes. -/
def markBytes (o : Overlaid) (lo hi : Int) : Logged Overlaid :=
  (o.make 0 0 (o.buffer.toChar lo) (o.buffer.toChar hi)
    [(Bytes.ascii "face", Bytes.ascii "match")]).settle

/-- Marks every match of a word in the text, accessible or not, and counts them. The word is looked
for in its internal form, so that a match starts and ends between characters. -/
def markMatches (v : Viewer) (word : Bytes) : Logged (Viewer × Nat) :=
  if word.isEmpty then pure (v, 0)
  else do
    let inner := v.buffer.internalForm word
    let found := Bytes.matchesFrom inner 0 0 v.buffer.text.toList
    let page ← found.foldlM
      (fun o (i : Nat) => markBytes o (i + 1) (i + 1 + inner.length)) v.page
    Logged.report (.matchesMarked word found.length)
    return ({ v with page }, found.length)

/-! ## Drawing -/

def render (v : Viewer) : Viewer :=
  match Display.render v.tabWidth v.screen v.page v.viewport v.message with
  | .ok (screen, viewport) => { v with screen, viewport }
  | .error _ => v

end Viewer

end GapText
