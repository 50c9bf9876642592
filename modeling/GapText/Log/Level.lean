import GapText.Bytes

/-!
# Severities of log records

A severity is a rank. The first six ranks are those of records, from `trace` to `fatal`; rank six is
`off`, the threshold that lets nothing through; ranks above it are accepted but have no name.
-/

namespace GapText

structure Level where
  rank : UInt8
deriving DecidableEq, Repr, Inhabited

namespace Level

def trace : Level := ⟨0⟩
def debug : Level := ⟨1⟩
def info : Level := ⟨2⟩
def warn : Level := ⟨3⟩
def error : Level := ⟨4⟩
def fatal : Level := ⟨5⟩
def off : Level := ⟨6⟩

/-- The levels that have a name, by rank. -/
def named : List Level := [trace, debug, info, warn, error, fatal, off]

def name (l : Level) : Bytes :=
  Bytes.ascii <|
    match l.rank.toNat with
    | 0 => "TRACE"
    | 1 => "DEBUG"
    | 2 => "INFO"
    | 3 => "WARN"
    | 4 => "ERROR"
    | 5 => "FATAL"
    | 6 => "OFF"
    | _ => "?????"

/-- The level with this name, in any mixture of cases. -/
def parse? (s : Bytes) : Option Level := named.find? fun l => l.name == s.upper

end Level

end GapText
