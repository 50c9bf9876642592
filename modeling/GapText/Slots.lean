import GapText.Log.Logged

/-!
# Slots and local flags

A slot table gives names to the variables that can have a value local to a buffer. A slot keeps its
index for good, and names are never used twice. Each buffer holds one flag per slot; the flags are a
list that grows when a flag is set, and a slot beyond its end reads as unset. So a slot may be
registered at any time without a visit to the buffers.
-/

namespace GapText

structure Slots where
  /-- The names in the order in which they were registered. -/
  names : List Bytes := []
deriving DecidableEq, Repr

namespace Slots

def count (t : Slots) : Nat := t.names.length

def index? (t : Slots) (name : Bytes) : Option Nat := t.names.idxOf? name

/-- Adds a slot and answers with its index. -/
def register (t : Slots) (name : Bytes) : Outcome Slots Nat :=
  if (t.index? name).isSome then .stop t (.slotTaken name)
  else .done ⟨t.names ++ [name]⟩ t.count [.slotRegistered name t.count]

def name (t : Slots) (index : Int) : Except Fault Bytes :=
  if 0 ≤ index then
    match t.names[index.toNat]? with
    | some name => .ok name
    | none => .error (.namelessSlot index)
  else .error (.namelessSlot index)

/-- The slot with this index, for a use of its flag. -/
def slot (t : Slots) (use : FlagUse) (index : Int) : Except Fault Nat :=
  if 0 ≤ index ∧ index < t.count then .ok index.toNat
  else .error (.flagOutOfRange use index t.count)

end Slots

/-- The flags of one buffer. -/
structure LocalFlags where
  values : List Int8 := []
deriving DecidableEq, Repr

namespace LocalFlags

/-- Whether a slot's flag is set, that is, not zero. -/
def isSet (f : LocalFlags) (slot : Nat) : Bool := f.values.getD slot 0 != 0

/-- Gives a slot's flag a value. Where it is missing the list first grows to `count` flags. -/
def put (f : LocalFlags) (count slot : Nat) (value : Int8) : LocalFlags :=
  if slot < f.values.length then ⟨f.values.set slot value⟩
  else ⟨(f.values ++ List.replicate (count - f.values.length) 0).set slot value⟩

/-- Whether the slot of this index has a local value. -/
def test (f : LocalFlags) (t : Slots) (index : Int) : Except Fault Bool :=
  (t.slot .test index).map f.isSet

/-- Says whether the slot of this index has a local value. -/
def assign (f : LocalFlags) (t : Slots) (index : Int) (value : Int8) :
    Except Fault LocalFlags :=
  (t.slot .assign index).map fun slot => f.put t.count slot value

end LocalFlags

end GapText
