import MicroAsm.CommandLine.Run
import MicroAsm.Toml.Document

/-!
# The command

Runs the assembler on the files of the machine.
-/

namespace MicroAsm.Main

/-- A failure that the machine reports. -/
def systemError (e : IO.Error) : SystemError :=
  match e with
  | .noFileOrDirectory _ _ _ => .notFound
  | .permissionDenied _ _ _ => .permissionDenied
  | .resourceBusy _ _ => .busy
  | .inappropriateType _ 20 _ => .notDirectory
  | .inappropriateType _ 21 _ => .isDirectory
  | e => .other (toString e)

/-- The result of an action, or the failure that the machine reports. -/
def attempt {α : Type} (action : IO α) : IO (Except SystemError α) := do
  try
    return .ok (← action)
  catch e =>
    return .error (systemError e)

def files : FileAccess IO where
  isFile path := do
    match ← attempt (IO.FS.readBinFile path) with
    | .ok _ => return true
    | .error _ => return false
  read path := attempt do
    return (← IO.FS.readBinFile path).data.toList
  create path contents := attempt (IO.FS.writeBinFile path ⟨contents.toArray⟩)
  rename source path := attempt (IO.FS.rename source path)
  remove path := do
    let _ ← attempt (IO.FS.removeFile path)

def standardInput : IO (List UInt8) := do
  let bytes ← (← IO.getStdin).readBinToEnd
  return bytes.data.toList

end MicroAsm.Main

def main (words : List String) : IO UInt32 := do
  match MicroAsm.Options.ofWords {} words with
  | .error e =>
    IO.eprint ("error: " ++ e.text ++ "\n")
    return 2
  | .ok options =>
    let outcome ← MicroAsm.CommandLine.run MicroAsm.Toml.read MicroAsm.Main.files
      MicroAsm.Main.standardInput options
    IO.print outcome.stdout
    IO.eprint outcome.stderr
    return UInt32.ofNat outcome.code
