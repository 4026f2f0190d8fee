import MicroAsm.Files.Access
import MicroAsm.Files.Path

/-!
# Files in memory

A tree of files below a working directory. A place in the tree is the list of names on the way to
it from there.
-/

namespace MicroAsm

/-- The names on the way to a file or directory. -/
abbrev Place := List String

/-- Files and directories below a working directory. -/
structure FileTree where
  directories : List Place := []
  files : List (Place × List UInt8) := []
deriving DecidableEq, Repr, Inhabited

/-- What a path leads to. -/
inductive Spot where
  | directory (place : Place)
  | file (place : Place) (contents : List UInt8)
  /-- A name that is free in its directory. -/
  | vacant (place : Place)
deriving DecidableEq, Repr

namespace FileTree

def file? (t : FileTree) (place : Place) : Option (List UInt8) :=
  t.files.lookup place

/-- The root of all paths that start with a slash. -/
def rootPlace : Place := ["/"]

/-- The place is a directory. The working directory and those above it always are. -/
def isDirectory (t : FileTree) (place : Place) : Bool :=
  place.all (· == "..") || place == rootPlace || t.directories.contains place

/-- The directory above one. -/
def above (place : Place) : Place :=
  if place.all (· == "..") then place ++ [".."]
  else if place == rootPlace then place
  else place.dropLast

def put (t : FileTree) (place : Place) (contents : List UInt8) : FileTree :=
  { t with files := (place, contents) :: t.files.filter (·.1 != place) }

def erase (t : FileTree) (place : Place) : FileTree :=
  { t with files := t.files.filter (·.1 != place) }

/-- Adds a file, with the directories on the way to it. -/
def addFile (t : FileTree) (path : String) (contents : List UInt8) : FileTree :=
  let place := (Path.parts path).filter (! Path.isIdle ·)
  let way := (List.range place.length).map fun n => place.take n
  { t.put place contents with
    directories := t.directories ++ way.filter fun p => !p.isEmpty && !t.directories.contains p }

/-- The names of the files in a directory, in order. -/
def names (t : FileTree) (directory : Place) : List String :=
  (t.files.filterMap fun (place, _) =>
    if place.dropLast = directory then place.getLast? else none).mergeSort (· ≤ ·)

def nameLimit : Nat := 255

def pathLimit : Nat := 4095

/-- Checks that a path can be followed at all. -/
def checkPath (path : String) : Except SystemError Unit :=
  if path.toList.contains '\x00' then .error .nulInPath
  else if path.isEmpty then .error .notFound
  else if pathLimit < path.utf8ByteSize then .error .nameTooLong
  else .ok ()

/-- Goes into directories by name. -/
def enter (t : FileTree) : Place → List String → Except SystemError Place
  | place, [] => .ok place
  | place, part :: rest =>
    if Path.isIdle part then t.enter place rest
    else if part = ".." then t.enter (above place) rest
    else if nameLimit < part.utf8ByteSize then .error .nameTooLong
    else if t.isDirectory (place ++ [part]) then t.enter (place ++ [part]) rest
    else if (t.file? (place ++ [part])).isSome then .error .notDirectory
    else .error .notFound

/-- What a name leads to in a directory. -/
def spotIn (t : FileTree) (place : Place) (part : String) : Except SystemError Spot :=
  if Path.isIdle part then .ok (.directory place)
  else if part = ".." then .ok (.directory (above place))
  else if nameLimit < part.utf8ByteSize then .error .nameTooLong
  else if t.isDirectory (place ++ [part]) then .ok (.directory (place ++ [part]))
  else
    match t.file? (place ++ [part]) with
    | some contents => .ok (.file (place ++ [part]) contents)
    | none => .ok (.vacant (place ++ [part]))

def startPlace (path : String) : Place :=
  if Path.isAbsolute path then rootPlace else []

/-- What a path leads to. -/
def locate (t : FileTree) (path : String) : Except SystemError Spot := do
  checkPath path
  let parts := Path.parts path
  let place ← t.enter (startPlace path) parts.dropLast
  t.spotIn place (parts.getLast?.getD "")

def isFile (t : FileTree) (path : String) : Bool :=
  match t.locate path with
  | .ok (.file _ _) => true
  | _ => false

/-- The contents of the file that a path leads to. -/
def read (t : FileTree) (path : String) : Except SystemError (List UInt8) := do
  match ← t.locate path with
  | .file _ contents => .ok contents
  | .directory _ => .error .isDirectory
  | .vacant _ => .error .notFound

/-- The directory and the name that a path to be written to has, the slashes behind it left out. -/
def target (t : FileTree) (path : String) : Except SystemError (Place × String) := do
  checkPath path
  let named := ((Path.parts path).reverse.dropWhile (· == "")).reverse
  let place ← t.enter (startPlace path) named.dropLast
  return (place, named.getLast?.getD "")

/-- Makes the file that a path leads to. -/
def create (t : FileTree) (path : String) (contents : List UInt8) :
    Except SystemError FileTree := do
  let (place, name) ← t.target path
  if Path.endsInSlash path then .error .isDirectory
  else
    match ← t.spotIn place name with
    | .directory _ => .error .isDirectory
    | .file place _ => .ok (t.put place contents)
    | .vacant place => .ok (t.put place contents)

def rename (t : FileTree) (source path : String) : Except SystemError FileTree := do
  match ← t.locate source with
  | .file origin contents =>
    let (place, name) ← t.target path
    if Path.isIdle name || name == ".." then .error .busy
    else if Path.endsInSlash path then .error .notDirectory
    else
      match ← t.spotIn place name with
      | .directory _ => .error .isDirectory
      | .file place _ => .ok ((t.erase origin).put place contents)
      | .vacant place => .ok ((t.erase origin).put place contents)
  | _ => .error .notFound

def remove (t : FileTree) (path : String) : FileTree :=
  match t.locate path with
  | .ok (.file place _) => t.erase place
  | _ => t

/-- Takes over a changed tree, or leaves it as it is. -/
def apply (change : FileTree → Except SystemError FileTree) :
    StateM FileTree (Except SystemError Unit) := fun t =>
  match change t with
  | .ok t => (.ok (), t)
  | .error e => (.error e, t)

def access : FileAccess (StateM FileTree) where
  isFile path := fun t => (t.isFile path, t)
  read path := fun t => (t.read path, t)
  create path contents := apply (·.create path contents)
  rename source path := apply (·.rename source path)
  remove path := fun t => ((), t.remove path)

end FileTree

end MicroAsm
