import GapText.Log.Level

/-!
# The command line

A command line is read from left to right as a list of items: the options `-v`, `--unibyte`,
`--log FILE` and `--log-level LEVEL`, and words. A word is empty or does not start with `-`. There
are one or two words, the file and the word to mark; options may stand between and behind them, and
a later one counts.
-/

namespace GapText

/-- What a command line asks for. -/
structure Options where
  file : Bytes := []
  word : Bytes := []
  multibyte : Bool := true
  verbose : Bool := false
  logFile : Option Bytes := none
  logLevel : Option Level := none
deriving DecidableEq, Repr

namespace Options

open Bytes

/-- Why a command line is refused. -/
inductive Refusal where
  | noLogFile
  | noLevelName
  | unknownLevel (name : Bytes)
  | unknownOption (item : Bytes)
  | wordCount
deriving DecidableEq, Repr

def usage : Bytes :=
  ascii "usage: bufview [-v] [--log FILE] [--log-level LEVEL] [--unibyte] FILE [WORD]"

def Refusal.message : Refusal → Bytes
  | noLogFile => ascii "--log needs a file name"
  | noLevelName => ascii "--log-level needs a level name"
  | unknownLevel name => ascii "unknown log level: " ++ name
  | unknownOption item => ascii "unknown option: " ++ item
  | wordCount => usage

/-- Options as far as the items were read, and the outcome. -/
structure Parsed where
  options : Options
  refusal : Option Refusal
deriving DecidableEq, Repr

def isDashed (item : Bytes) : Bool := item.head? == some 45

/-- The words are counted, and take their places, only when all items fit. -/
def place (o : Options) : List Bytes → Parsed
  | [file] => ⟨{ o with file }, none⟩
  | [file, word] => ⟨{ o with file, word }, none⟩
  | _ => ⟨o, some .wordCount⟩

/-- Reads the items left to right; `words` are those that came before. -/
def parseItems (o : Options) (words : List Bytes) : List Bytes → Parsed
  | [] => o.place words
  | item :: rest =>
    if item = ascii "-v" then parseItems { o with verbose := true } words rest
    else if item = ascii "--unibyte" then parseItems { o with multibyte := false } words rest
    else if item = ascii "--log" then
      match rest with
      | [] => ⟨o, some .noLogFile⟩
      | file :: rest => parseItems { o with logFile := some file } words rest
    else if item = ascii "--log-level" then
      match rest with
      | [] => ⟨o, some .noLevelName⟩
      | name :: rest =>
        match Level.parse? name with
        | none => ⟨o, some (.unknownLevel name)⟩
        | some l => parseItems { o with logLevel := some l } words rest
    else if isDashed item then ⟨o, some (.unknownOption item)⟩
    else parseItems o (words ++ [item]) rest

/-- Reads an argument vector, whose first element is the program's own name. -/
def parse (argv : List Bytes) : Parsed := parseItems {} [] argv.tail

end Options

end GapText
