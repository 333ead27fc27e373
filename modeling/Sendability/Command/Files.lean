/-
  Reading files.

  The command line takes files through a `FileReader`, which answers for each
  path, given as octets, with the octets there or the reason why there are none.
  `FileTree` is a working directory held in memory, and `FileTree.read` answers
  for it as an operating system would: a component of a file is no directory, a
  directory cannot be read, and names and paths have a greatest length.
-/
import Sendability.Command.Path
import Sendability.Table
import Sendability.Text.Utf8

namespace Sendability.Command

/-- Why a file could not be read. -/
inductive FileFault where
  | notFound
  | notDirectory
  | isDirectory
  | nameTooLong
  /-- Any other reason, with its number and text. -/
  | other (number : Nat) (reason : Text)
  deriving DecidableEq, Inhabited

namespace FileFault

/-- The number of a reason. -/
def number : FileFault → Nat
  | .notFound => 2
  | .notDirectory => 20
  | .isDirectory => 21
  | .nameTooLong => 36
  | .other n _ => n

/-- The words for a reason. -/
def reason : FileFault → Text
  | .notFound => "No such file or directory"
  | .notDirectory => "Not a directory"
  | .isDirectory => "Is a directory"
  | .nameTooLong => "File name too long"
  | .other _ r => r

/-- The text of a fault at a path. -/
def message (f : FileFault) (path : Text) : Text :=
  "[Errno " ++ Text.ofInt f.number ++ "] " ++ f.reason ++ ": " ++ Text.quoted path

end FileFault

/-- Answers for a path with the octets of the file there. -/
abbrev FileReader := List UInt8 → Except FileFault (List UInt8)

/-- What stands at a place of a directory tree. -/
inductive Entry where
  | file (octets : List UInt8)
  | directory
  deriving DecidableEq, Inhabited

/-- A name in a directory, as octets. -/
abbrev FileName := List UInt8

/-- A working directory: what stands under each list of names. -/
structure FileTree where
  entries : Table (List FileName) Entry := {}
  deriving Inhabited

namespace FileTree

/-- The octet between the names of a path. -/
def slash : UInt8 := 0x2f

/-- The name of the directory that holds a directory. -/
def parent : FileName := [0x2e, 0x2e]

/-- The name of a directory within itself. -/
def self : FileName := [0x2e]

/-- The names along a path. -/
def namesOf (path : List UInt8) : List FileName :=
  (stretches slash path).filter fun name => name ≠ [] && name ≠ self

/-- The greatest number of octets in a component. -/
def maxName : Nat := 255

/-- The greatest number of octets in a path. -/
def maxPath : Nat := 4095

/-- Goes into a directory, which is made when it is not there, or out of one. -/
def enter (place : Table (List FileName) Entry × List FileName) (name : FileName) :
    Table (List FileName) Entry × List FileName :=
  let (entries, here) := place
  if name = parent then (entries, here.dropLast)
  else
    let there := here ++ [name]
    (if entries.contains there then entries else entries.insert there .directory, there)

/-- Adds an entry and the directories on the way to it. -/
def add (t : FileTree) (path : List UInt8) (e : Entry) : FileTree :=
  let names := namesOf path
  let (entries, here) := names.dropLast.foldl enter (t.entries, [])
  match names.getLast? with
  | some name => ⟨entries.insert (here ++ [name]) e⟩
  | none => t

/-- A place in the tree, or so many levels above it. -/
inductive Place where
  | inside (names : List FileName)
  | above (levels : Nat)
  deriving DecidableEq, Inhabited

/-- Goes along some names. Nothing but directories is known above the working
    directory. -/
def walk (t : FileTree) : Place → List FileName → Except FileFault Place
  | p, [] => .ok p
  | .above n, name :: rest =>
    if name = parent then t.walk (.above (n + 1)) rest
    else if maxName < name.length then .error .nameTooLong
    else .error .notFound
  | .inside here, name :: rest =>
    match t.entries.get? here with
    | some (.file _) => .error .notDirectory
    | _ =>
      if name = parent then
        t.walk (if here.isEmpty then .above 1 else .inside here.dropLast) rest
      else if maxName < name.length then .error .nameTooLong
      else if t.entries.contains (here ++ [name]) then t.walk (.inside (here ++ [name])) rest
      else .error .notFound

/-- Reads a file of the tree. -/
def read (t : FileTree) : FileReader := fun path =>
  if maxPath < path.length then .error .nameTooLong
  else do
    match ← t.walk (if path.head? = some slash then .above 0 else .inside []) (namesOf path) with
    | .above _ => .error .isDirectory
    | .inside here =>
      match t.entries.get? here with
      | some (.file octets) => .ok octets
      | _ => .error .isDirectory

end FileTree

end Sendability.Command
