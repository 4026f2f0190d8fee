import MicroAsm.Files.Access
import MicroAsm.Files.Path
import MicroAsm.Object.File

/-!
# Saving and loading object code

An image is written to a temporary file beside the one it is meant for, which then takes its
place, so the file holds either what it held before or the whole image.
-/

namespace MicroAsm

/-- Why an image cannot be saved or loaded. -/
inductive StoreError where
  | system (e : SystemError)
  | format (e : ObjectFileError)
deriving DecidableEq, Repr

def StoreError.text : StoreError → String
  | system e => e.text
  | format e => e.text

namespace ObjectCode

variable {m : Type → Type} [Monad m]

/-- Writes an image to a temporary file and moves that to a path. An image that cannot be written as
a whole leaves the part in front of the failure in the temporary file. -/
def replaceFile (files : FileAccess m) (temporary path : String) (o : ObjectCode) :
    m (Except StoreError Unit) := do
  match ← files.create temporary (ObjectFile.written o) with
  | .error e => return .error (.system e)
  | .ok () =>
    match ObjectFile.write o with
    | .error e => return .error (.format e)
    | .ok _ =>
      match ← files.rename temporary path with
      | .error e => return .error (.system e)
      | .ok () => return .ok ()

/-- Saves an image. If that fails, the temporary file is removed. -/
def save (files : FileAccess m) (path : String) (o : ObjectCode) : m (Except StoreError Unit) := do
  let temporary := Path.temporary path
  match ← o.replaceFile files temporary path with
  | .error e =>
    files.remove temporary
    return .error e
  | .ok () => return .ok ()

def load (files : FileAccess m) (path : String) : m (Except StoreError ObjectCode) := do
  match ← files.read path with
  | .error e => return .error (.system e)
  | .ok bytes =>
    match ObjectFile.read bytes with
    | .error e => return .error (.format e)
    | .ok o => return .ok o

end ObjectCode

end MicroAsm
