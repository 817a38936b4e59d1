import FlatCircuit.Command.Run

/-! Workspaces kept in memory: the bytes of the standard input, the working directory, other directories, and files
with their bytes. A place is the list of the names that lead to it from the root, and the root leads up to itself. -/

namespace FlatCircuit.Command

abbrev Place := List String

structure Workspace where
  input : ByteArray
  here : Place
  directories : List Place
  files : List (Place × ByteArray)

namespace Workspace

variable (w : Workspace)

def isDirectory (place : Place) : Bool :=
  place.isPrefixOf w.here || w.directories.any (place.isPrefixOf ·) ||
    w.files.any fun (file, _) => place.isPrefixOf file && place ≠ file

def walk (start : Place) : List String → Option Place
  | [] => some start
  | step :: steps =>
    if !w.isDirectory start then none
    else if step = "" ∨ step = "." then walk start steps
    else if step = ".." then walk start.dropLast steps
    else walk (start ++ [step]) steps

def steps (path : String) : List String :=
  (path.toList.splitOn '/').map .ofList

def place? (path : String) : Option Place :=
  w.walk (if path.toList.head? = some '/' then [] else w.here) (steps path)

def readFile (path : String) : Option ByteArray := do
  w.files.lookup (← w.place? path)

def put (place : Place) (bytes : ByteArray) : Workspace :=
  { w with files := (place, bytes) :: w.files.filter (·.1 ≠ place) }

def writeFile (path content : String) : Option Workspace := do
  let place ← w.place? path
  if w.isDirectory place then none else some (w.put place content.toUTF8)

def holds (place : Place) (bytes : ByteArray) : Bool :=
  (w.files.lookup place).any (·.data = bytes.data)

def changes (later : Workspace) : List (Place × ByteArray) :=
  later.files.filter fun (place, bytes) => !w.holds place bytes

def host : Host (StateM Workspace) where
  readInput := return (← get).input
  readFile path := return (← get).readFile path
  writeFile path content := do
    match (← get).writeFile path content with
    | some later =>
      set later
      return true
    | none => return false

def run (limit : DigitLimit) (args : List String) : Ending × Workspace :=
  (Command.run host limit args).run w

end Workspace

end FlatCircuit.Command
