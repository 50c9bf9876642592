import GapText.Log.Logger
import GapText.Viewer.Keys
import GapText.Viewer.Options

/-!
# The command line program

Reads the file named on the command line, marks a word, and then draws and reads keys until one of
them quits. The screen is printed row by row, and every byte of standard input but a line end is a
key. The log goes to the file given for it, or nowhere.
-/

namespace GapText

namespace Program

def bytesOf (s : String) : Bytes := s.toUTF8.toList

def print (out : IO.FS.Stream) (s : Bytes) : IO Unit := do
  out.write ⟨s.toArray⟩
  out.flush

def printLine (out : IO.FS.Stream) (s : Bytes) : IO Unit := print out (s ++ [10])

/-- A logger for these options. Without a log file nothing is recorded. -/
def logger (o : Options) : Logger :=
  let level : Level := if o.verbose then .debug else ({} : Logger).threshold
  { threshold := if o.logFile.isSome then o.logLevel.getD level else .off, keeping := true }

/-- Appends what an operation reported to the log. -/
def record (log : Option IO.FS.Handle) (g : Logger) (events : List Event) : IO Unit := do
  if let some h := log then
    for r in (g.writeAll events).kept do
      h.write ⟨(r.line ++ [10]).toArray⟩
    h.flush

/-- The content of a file; what can be opened but not read is no regular file. -/
def fetch (path : String) : IO (Logged (Except ReadError Bytes)) := do
  let refuse (e : ReadError) : Logged (Except ReadError Bytes) :=
    ⟨.error e, [.fileRefused e.message]⟩
  let opened ← (IO.FS.Handle.mk path .read).toBaseIO
  match opened with
  | .error _ => return refuse (.cannotOpen (bytesOf path))
  | .ok h =>
    match ← h.readBinToEnd.toBaseIO with
    | .error _ => return refuse (.notRegular (bytesOf path))
    | .ok content =>
      let s := content.toList
      let event := Event.fileRead (bytesOf path) s.length
      return ⟨.ok s, if s.isEmpty then [] else [event]⟩

/-- Draws, waits for a key and obeys it, until the viewer quits or the keys end. -/
partial def serve (keys out : IO.FS.Stream) (log : Option IO.FS.Handle) (g : Logger) (v : Viewer) :
    IO Unit := do
  unless v.quitting do
    let v := v.render
    for line in v.screen.cells do
      printLine out (line.map (·.byte))
    let key ← keys.read 1
    let next := v.press ((key[0]?.map fun b => (b.toNat : Int)).getD Viewer.quitKey)
    record log g next.events
    serve keys out log g (if key[0]? = some 10 then v else next.value)

def openLog (o : Options) : IO (Except Bytes (Option IO.FS.Handle)) := do
  match o.logFile.map fun path => (path, String.fromUTF8? ⟨path.toArray⟩) with
  | none => return .ok none
  | some (path, name) =>
    match ← (IO.FS.Handle.mk (name.getD "") .append).toBaseIO with
    | .ok h => return .ok (some h)
    | .error _ => return .error (Bytes.ascii "can not open log file: " ++ path)

/-- Shows a file until the viewer is quit. -/
def view (o : Options) (log : Option IO.FS.Handle) : IO UInt32 := do
  let g := logger o
  let err ← IO.getStderr
  let file ← fetch ((String.fromUTF8? ⟨o.file.toArray⟩).getD "")
  record log g file.events
  match file.value with
  | .error e =>
    printLine err e.message
    return 1
  | .ok s =>
    let loaded := (Viewer.start 24 80 o.multibyte).loadBytes s
    let marked := loaded.value.markMatches o.word
    record log g (loaded.events ++ marked.events)
    serve (← IO.getStdin) (← IO.getStdout) log g marked.value.1
    return 0

/-- Exits with two when the command line is refused, and with one when a file is. -/
def run (args : List String) : IO UInt32 := do
  let p := Options.parse ([] :: args.map bytesOf)
  let err ← IO.getStderr
  match p.refusal with
  | some r =>
    printLine err r.message
    return 2
  | none =>
    match ← openLog p.options with
    | .error message =>
      printLine err message
      return 1
    | .ok log => view p.options log

end Program

end GapText

def main (args : List String) : IO UInt32 := GapText.Program.run args
