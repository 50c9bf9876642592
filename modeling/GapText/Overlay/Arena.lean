import GapText.Log.Logged
import GapText.Marker

/-!
# Overlays and their arena

An overlay is a stretch of a buffer between two markers, with properties. Its record is kept in an
arena under a number, the overlay's identifier; a number at which there is no record names no
overlay. A deleted overlay keeps its record, which then points nowhere; the arena is emptied in one
go when all of its records point nowhere.

The overlays of a buffer hang on two chains, whose heads the buffer keeps: the one for overlays that
end before the buffer's *center*, the other for the rest. A record names the next one of its chain.
-/

namespace GapText

/-- An arena's number among the arenas of its workspace. -/
abbrev ArenaId := Nat

/-- Properties by name, in the order in which the names came up. -/
abbrev Properties := List (Bytes × Bytes)

namespace Properties

def get? (ps : Properties) (name : Bytes) : Option Bytes := ps.lookup name

/-- Gives a property a value, in its place if it is there and at the end if not. -/
def put (name value : Bytes) : Properties → Properties
  | [] => [(name, value)]
  | (n, v) :: rest => if n = name then (n, value) :: rest else (n, v) :: put name value rest

end Properties

structure Overlay where
  start : Marker := {}
  stop : Marker := {}
  props : Properties := []
  /-- The overlay behind this one on its chain. -/
  next : Option Int := none
deriving DecidableEq, Repr, Inhabited

namespace Overlay

/-- The overlay without its place in a buffer; the properties stay. -/
def detached (o : Overlay) : Overlay := { o with start := .nowhere, stop := .nowhere, next := none }

/-- Whether the overlay belongs to a buffer, as its first marker says. -/
def isAttached (o : Overlay) : Bool := o.start.buffer.isSome

/-- Whether the character behind a place lies in the overlay. -/
def covers (o : Overlay) (p : Int) : Bool :=
  decide (o.start.place.char ≤ p ∧ p < o.stop.place.char)

end Overlay

/-- What a buffer knows of its overlays. -/
structure Chains where
  /-- The head of the chain of overlays that end before the center. -/
  before : Option Int := none
  /-- The head of the chain of all others. -/
  after : Option Int := none
  center : Int := 1
  /-- The arena that holds the records. -/
  arena : Option ArenaId := none
deriving DecidableEq, Repr

structure Arena where
  records : Array Overlay := #[]
deriving DecidableEq, Repr

namespace Arena

def size (a : Arena) : Nat := a.records.size

def contains (a : Arena) (id : Int) : Bool := decide (0 ≤ id ∧ id < a.size)

def find? (a : Arena) (id : Int) : Option Overlay :=
  if 0 ≤ id then a.records[id.toNat]? else none

/-- The record of an overlay, or the fault that there is none. -/
def get (a : Arena) (id : Int) : Except Fault Overlay :=
  match a.find? id with
  | some o => .ok o
  | none => .error (.unknownOverlay id)

/-- Changes one record; a number that names none changes nothing. -/
def modify (a : Arena) (id : Int) (f : Overlay → Overlay) : Arena :=
  if 0 ≤ id then ⟨a.records.modify id.toNat f⟩ else a

def push (a : Arena) (o : Overlay) : Arena := ⟨a.records.push o⟩

theorem find?_modify (a : Arena) (id id' : Int) (f : Overlay → Overlay) :
    (a.modify id f).find? id' = if id = id' then (a.find? id').map f else a.find? id' := by
  unfold modify find?
  by_cases h : 0 ≤ id
  · by_cases h' : 0 ≤ id'
    · have toNat_eq : id.toNat = id'.toNat ↔ id = id' := by omega
      simp only [if_pos h, if_pos h', Array.getElem?_modify, toNat_eq]
    · have ne : id ≠ id' := by omega
      simp only [if_pos h, if_neg h', if_neg ne]
  · by_cases e : id = id'
    · subst e
      simp only [if_neg h, ↓reduceIte, Option.map_none]
    · simp only [if_neg h, if_neg e]

/-- Empties the arena when no record is attached to a buffer, and tells how many went. -/
def reclaim (a : Arena) : Outcome Arena Nat :=
  if a.records.any Overlay.isAttached then .done a 0
  else .done {} a.size (if a.size = 0 then [] else [.overlaysReclaimed a.size])

/-! ## Properties -/

def property? (a : Arena) (id : Int) (name : Bytes) : Except Fault (Option Bytes) :=
  (a.get id).map (·.props.get? name)

/-- Gives a property of an overlay a value, and answers with all of its properties. -/
def putProperty (a : Arena) (id : Int) (name value : Bytes) : Outcome Arena Properties :=
  match a.get id with
  | .error f => .stop a f
  | .ok o =>
    let props := o.props.put name value
    .done (a.modify id fun o => { o with props }) props

end Arena

end GapText
