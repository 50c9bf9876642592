import GapText.Log.Level

/-!
# What is reported

Operations do not write log text. They report *events*, each of which knows its severity and how a
record of it reads; whether a record is kept is for the logger to decide (`GapText.Log.Logger`).

A *fault* is a misuse that stops an operation: an index or an identifier that names nothing, or a
second use of something that may be used once. Every fault is reported as a fatal event as well, in
words of its own that say which value was wrong.
-/

namespace GapText

/-- The two uses of a buffer's local flags. -/
inductive FlagUse where
  | test
  | assign
deriving DecidableEq, Repr

/-- Why an operation was stopped. -/
inductive Fault where
  /-- A slot of this name is registered already. -/
  | slotTaken (name : Bytes)
  /-- No slot has this index, whose name was asked for. -/
  | namelessSlot (index : Int)
  /-- No slot has this index, whose flag was used, of the `count` that there are. -/
  | flagOutOfRange (use : FlagUse) (index : Int) (count : Nat)
  /-- No record of the arena has this number. -/
  | unknownOverlay (id : Int)
  /-- The buffer's overlays are kept in another arena. -/
  | foreignArena
deriving DecidableEq, Repr

/-- What there is to report. -/
inductive Event where
  /-- The gap grew by some bytes; its size and that of the storage are the new ones. -/
  | gapGrown (growth size capacity : Int)
  /-- The gap moved from one byte position to another. -/
  | gapMoved (source target : Int)
  | slotRegistered (name : Bytes) (index : Nat)
  /-- An overlay with these bounds was linked on one side of the center. -/
  | overlayLinked (id : Int) (start stop : Int) (before : Bool) (center : Int)
  | overlayDeleted (id : Int)
  | overlaysCleared (count : Nat)
  | overlaysReclaimed (count : Nat)
  | overlaysRecentered (center : Int) (before after : Nat)
  | matchesMarked (word : Bytes) (count : Nat)
  | fileRead (path : Bytes) (size : Nat)
  | fileRefused (message : Bytes)
  /-- The whole text could not be removed, for the reason that the message gives. -/
  | eraseRefused (message : Bytes)
  | stopped (fault : Fault)
deriving DecidableEq, Repr

open Bytes

namespace FlagUse

def name : FlagUse → Bytes
  | test => ascii "has_local_value"
  | assign => ascii "set_local_value"

end FlagUse

namespace Fault

/-- The fault as the caller is told. What is told ends at the first zero byte. -/
def message : Fault → Bytes
  | slotTaken name => ascii "per-buffer slot already registered: " ++ untilZero name
  | namelessSlot _ => ascii "slot_name called with an invalid index"
  | flagOutOfRange use _ _ => use.name ++ ascii " called with an invalid index"
  | unknownOverlay _ => ascii "invalid overlay id"
  | foreignArena => ascii "buffer is bound to a different overlay arena"

/-- The fault as the log records it. -/
def text : Fault → Bytes
  | slotTaken name => ascii "slot " ++ name ++ ascii " registered twice"
  | namelessSlot index => ascii "slot_name called with invalid index " ++ decimal index
  | flagOutOfRange use index count =>
    use.name ++ ascii " called with index " ++ decimal index ++ ascii ", slot count is "
      ++ digits count
  | unknownOverlay id => ascii "no overlay with id " ++ decimal id
  | foreignArena => ascii "make_overlay: buffer already has overlays in another arena"

end Fault

namespace Event

def level : Event → Level
  | gapGrown .. | gapMoved .. => .trace
  | slotRegistered .. | overlayLinked .. | overlayDeleted .. | overlaysCleared ..
  | overlaysReclaimed .. | overlaysRecentered .. => .debug
  | matchesMarked .. | fileRead .. => .info
  | fileRefused .. | eraseRefused .. => .error
  | stopped .. => .fatal

def text : Event → Bytes
  | gapGrown growth size capacity =>
    ascii "gap grown by " ++ decimal growth ++ ascii " to " ++ decimal size
      ++ ascii " bytes, capacity " ++ decimal capacity
  | gapMoved source target =>
    ascii "gap moved from " ++ decimal source ++ ascii " to " ++ decimal target
  | slotRegistered name index =>
    ascii "registered per-buffer slot " ++ name ++ ascii " at " ++ digits index
  | overlayLinked id start stop before center =>
    ascii "overlay " ++ decimal id ++ ascii " [" ++ decimal start ++ ascii ", " ++ decimal stop
      ++ ascii ") linked " ++ ascii (if before then "before" else "after") ++ ascii " center "
      ++ decimal center
  | overlayDeleted id => ascii "overlay " ++ decimal id ++ ascii " deleted"
  | overlaysCleared count => ascii "deleted all " ++ digits count ++ ascii " overlays of buffer"
  | overlaysReclaimed count => ascii "reclaimed " ++ digits count ++ ascii " detached overlays"
  | overlaysRecentered center before after =>
    ascii "recentered overlays at " ++ decimal center ++ ascii ": " ++ digits before
      ++ ascii " before, " ++ digits after ++ ascii " after"
  | matchesMarked word count =>
    ascii "marked " ++ digits count ++ ascii " matches of \"" ++ word ++ ascii "\""
  | fileRead path size =>
    ascii "opened file: " ++ path ++ ascii " (" ++ digits size ++ ascii " bytes)"
  | fileRefused message => message
  | eraseRefused message => ascii "erase_buffer: " ++ message
  | stopped fault => fault.text

end Event

end GapText
