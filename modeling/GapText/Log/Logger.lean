import GapText.Log.Logged

/-!
# The logger

A logger lets a record through when its level reaches the threshold; no record has level `off`, so
the threshold `off` lets nothing through. What is let through goes to the sink of the moment: it is
kept, or it goes to the standard error stream, where this model loses sight of it.
-/

namespace GapText

/-- One line of the log. -/
structure Record where
  level : Level
  text : Bytes
deriving DecidableEq, Repr

def Record.line (r : Record) : Bytes :=
  Bytes.ascii "[" ++ r.level.name ++ Bytes.ascii "] " ++ r.text

def Event.record (e : Event) : Record := ⟨e.level, e.text⟩

structure Logger where
  threshold : Level := .warn
  /-- Where records go: true keeps them, false sends them to the standard error stream. -/
  keeping : Bool := false
  /-- The records kept so far. -/
  kept : List Record := []
deriving DecidableEq, Repr

namespace Logger

def enabled (g : Logger) (l : Level) : Bool := decide (g.threshold.rank ≤ l.rank) && l != .off

/-- Offers a record to the log. -/
def write (g : Logger) (r : Record) : Logger :=
  if g.enabled r.level && g.keeping then { g with kept := g.kept ++ [r] } else g

/-- Records what an operation reported, in order. -/
def writeAll (g : Logger) (events : List Event) : Logger :=
  events.foldl (fun g e => g.write e.record) g

/-- Offers a record whose text costs something to compose. The text is composed, once, only for a
level that is enabled; the second component is what was composed. -/
def offer (g : Logger) (l : Level) (compose : Unit → Bytes) : Logger × Option Bytes :=
  if g.enabled l then
    let text := compose ()
    (g.write ⟨l, text⟩, some text)
  else (g, none)

/-- Forgets the records kept so far. -/
def drained (g : Logger) : Logger := { g with kept := [] }

end Logger

end GapText
