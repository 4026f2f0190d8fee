/-!
# Access to files

The operations on files that a command needs, for any place where files can be: the machine, or a
tree of files in memory.
-/

namespace MicroAsm

/-- Why an operation on a file fails. -/
inductive SystemError where
  | notFound
  | permissionDenied
  | busy
  | notDirectory
  | isDirectory
  | nameTooLong
  /-- A path with a character that ends it too early. -/
  | nulInPath
  | other (text : String)
deriving DecidableEq, Repr

/-- The text of a failure, as the operating system has it. -/
def SystemError.text : SystemError → String
  | notFound => "No such file or directory (os error 2)"
  | permissionDenied => "Permission denied (os error 13)"
  | busy => "Device or resource busy (os error 16)"
  | notDirectory => "Not a directory (os error 20)"
  | isDirectory => "Is a directory (os error 21)"
  | nameTooLong => "File name too long (os error 36)"
  | nulInPath => "file name contained an unexpected NUL byte"
  | other text => text

structure FileAccess (m : Type → Type) where
  /-- A path leads to a file. -/
  isFile : String → m Bool
  /-- The contents of a file. -/
  read : String → m (Except SystemError (List UInt8))
  /-- Makes a file with the given contents, or replaces those of a file. -/
  create : String → List UInt8 → m (Except SystemError Unit)
  /-- Moves a file to another path, over the file there. -/
  rename : String → String → m (Except SystemError Unit)
  /-- Removes a file, if there is one. -/
  remove : String → m Unit

end MicroAsm
