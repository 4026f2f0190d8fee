/-!
# Paths

A path is a text of names with slashes between them. Empty names and `.` mean the directory they
stand in.
-/

namespace MicroAsm.Path

/-- Splits a text at slashes: the first part, and those after it. -/
def split : List Char → List Char × List (List Char)
  | [] => ([], [])
  | c :: cs =>
    let (first, others) := split cs
    if c = '/' then ([], first :: others) else (c :: first, others)

/-- The parts of a path between its slashes. -/
def parts (path : String) : List String :=
  let (first, others) := split path.toList
  (first :: others).map String.ofList

/-- The path starts at the root of all paths. -/
def isAbsolute (path : String) : Bool := path.toList.head? == some '/'

/-- The path ends with a slash, as only a directory can. -/
def endsInSlash (path : String) : Bool := path.toList.getLast? == some '/'

/-- The part names no entry of a directory. -/
def isIdle (part : String) : Bool := part == "" || part == "."

/-- The parts up to the last one that is not idle. -/
def significant (path : String) : List String :=
  ((parts path).reverse.dropWhile isIdle).reverse

/-- The name of the file that a path leads to. -/
def fileName? (path : String) : Option String :=
  match (significant path).getLast? with
  | some ".." => none
  | name => name

/-- The name of a file up to its last dot. A dot in front belongs to the name. -/
def stem (name : String) : String :=
  let cs := name.toList
  let front := ((cs.reverse.dropWhile (· != '.')).drop 1).reverse
  if front.isEmpty then name else String.ofList front

/-- The path to a file beside the one that a path leads to. -/
def sibling (path name : String) : String :=
  match fileName? path with
  | some _ => "/".intercalate ((significant path).dropLast ++ [name])
  | none =>
    if path.isEmpty || endsInSlash path then path ++ name else path ++ "/" ++ name

/-- The path to the file that takes new contents before they replace those of a path. -/
def temporary (path : String) : String :=
  sibling path ("." ++ (fileName? path).getD "" ++ ".tmp")

end MicroAsm.Path
