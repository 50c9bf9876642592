import GapText.Log.Logged

/-!
# Files and reading them

A tree of files is a list of what lies at which path, a path being the list of names from the root,
together with the directory that relative paths start from. Only regular files can be read.

A path is followed name by name. Every step, also one to `.`, to `..` or behind a slash at the end,
starts in a directory; so `a/` is no way to a file `a`. The root is its own parent.
-/

namespace GapText

namespace FileTree

inductive Entry where
  | file (content : Bytes)
  | directory
  | device
deriving DecidableEq, Repr

end FileTree

structure FileTree where
  /-- The current directory. -/
  here : List Bytes := []
  /-- What lies where. The root needs no entry. -/
  entries : List (List Bytes × FileTree.Entry) := []
deriving DecidableEq, Repr

namespace FileTree

def slash : UInt8 := 47

/-- The names that a path consists of. -/
def names (path : Bytes) : List Bytes :=
  path.foldr
    (fun b acc =>
      match acc with
      | [] => [[b]]
      | name :: rest => if b = slash then [] :: name :: rest else (b :: name) :: rest)
    [[]]

def entry? (t : FileTree) (place : List Bytes) : Option Entry :=
  if place.isEmpty then some .directory else t.entries.lookup place

/-- One step along a path. -/
def step (t : FileTree) (place : List Bytes) (name : Bytes) : Option (List Bytes) :=
  if t.entry? place = some .directory then
    if name = [] ∨ name = Bytes.ascii "." then some place
    else if name = Bytes.ascii ".." then some place.dropLast
    else if (t.entry? (place ++ [name])).isSome then some (place ++ [name])
    else none
  else none

/-- The longest path that can be followed. -/
def maxPath : Nat := 4095

/-- The longest name that something can have. -/
def maxName : Nat := 255

/-- A path as a place to start from and the names to follow from there. It starts at the root behind
a slash, else in the current directory. A zero byte ends it; neither an empty path nor one that is
too long can be followed. -/
def route? (t : FileTree) (path : Bytes) : Option (List Bytes × List Bytes) :=
  let path := Bytes.untilZero path
  if path = [] ∨ maxPath < path.length then none
  else some (if path.head? = some slash then [] else t.here, names path)

/-- What a path leads to. -/
def find? (t : FileTree) (path : Bytes) : Option Entry := do
  let (start, names) ← t.route? path
  t.entry? (← names.foldlM t.step start)

/-! ## Making directories and files -/

/-- The place of something new, or old, of this name: in a directory, and with a name that is not
too long. -/
def place? (t : FileTree) (above : List Bytes) (name : Bytes) : Option (List Bytes) :=
  match t.step above name with
  | some place => some place
  | none =>
    if t.entry? above = some .directory ∧ name.length ≤ maxName then some (above ++ [name])
    else none

/-- Follows names and makes a directory wherever there is nothing yet, as far as possible. -/
def makeAlong (t : FileTree) (place : List Bytes) : List Bytes → FileTree
  | [] => t
  | name :: rest =>
    match t.place? place name with
    | none => t
    | some next =>
      if (t.entry? next).isSome then t.makeAlong next rest
      else makeAlong { t with entries := t.entries ++ [(next, .directory)] } next rest

/-- Makes the directories that a path leads through. -/
def addDirectory (t : FileTree) (path : Bytes) : FileTree :=
  match t.route? path with
  | none => t
  | some (start, names) => t.makeAlong start names

/-- Puts a file at the end of a path, in place of the file that is there. A path that does not lead
into a directory, or that leads to one, is not written to. -/
def addFile (t : FileTree) (path content : Bytes) : FileTree :=
  let place : Option (List Bytes) := do
    let (start, names) ← t.route? path
    t.place? (← names.dropLast.foldlM t.step start) (← names.getLast?)
  match place with
  | none => t
  | some place =>
    if t.entry? place = some .directory then t
    else { t with entries := (place, .file content) :: t.entries }

end FileTree

/-- Why a file was not read. -/
inductive ReadError where
  | cannotOpen (path : Bytes)
  | notRegular (path : Bytes)
deriving DecidableEq, Repr

def ReadError.message : ReadError → Bytes
  | cannotOpen path => Bytes.ascii "can not open file: " ++ path
  | notRegular path => Bytes.ascii "not a regular file: " ++ path

/-- What is said of a file that was read. -/
def openedMessage (path : Bytes) : Bytes := Bytes.ascii "opened file: " ++ path

/-- The content of a file. Only a file that is not empty is reported as read. -/
def FileTree.read (t : FileTree) (path : Bytes) : Logged (Except ReadError Bytes) :=
  let refuse (e : ReadError) : Logged (Except ReadError Bytes) :=
    ⟨.error e, [.fileRefused e.message]⟩
  match t.find? path with
  | none => refuse (.cannotOpen path)
  | some (.file content) => do
    Logged.reportIf (content ≠ []) (.fileRead path content.length)
    return .ok content
  | some _ => refuse (.notRegular path)

end GapText
