import MicroAsm.Assembler
import MicroAsm.CommandLine.Options
import MicroAsm.Disassembly
import MicroAsm.Object.Store

/-!
# Running the command

Assembles a source into an object file, or disassembles an object file, and says what to print
and which status to end with.
-/

namespace MicroAsm

/-- How a run ends. -/
structure Outcome where
  code : Nat
  stdout : String := ""
  stderr : String := ""
deriving DecidableEq, Repr

namespace CommandLine

/-- Causes with their numbers, one a line. -/
def numberedCauses : Nat → List String → String
  | _, [] => ""
  | n, cause :: rest => "    " ++ toString n ++ ": " ++ cause ++ "\n" ++ numberedCauses (n + 1) rest

/-- The text of a failure with its causes. -/
def failureText (message : String) (causes : List String) : String :=
  "Error: " ++ message ++ "\n" ++
    match causes with
    | [] => ""
    | [cause] => "\nCaused by:\n    " ++ cause ++ "\n"
    | causes => "\nCaused by:\n" ++ numberedCauses 0 causes

/-- The end of a run that fails after something was printed. -/
def failed (stdout stderr message : String) (causes : List String) : Outcome :=
  { code := 1, stdout, stderr := stderr ++ failureText message causes }

/-- The causes of a failure to save or load, from the outer to the inner one. -/
def storeCauses : StoreError → List String
  | .system e => [e.text, e.text]
  | .format e => [e.text]

/-- The status for a number of errors. -/
def exitCode (errors : Nat) : Nat := min errors 255

def messageLine (m : Message) : String :=
  (match m.severity with
    | .warning => "warning: "
    | .error | .exception => "error: ") ++ m.shown ++ "\n"

def messageText (log : Log) : String :=
  String.join (log.messages.toList.map messageLine)

/-- The configuration with what the options say over it, or what is wrong with them. -/
def adjust (o : Options) (c : Config) : Except String Config := do
  let c ←
    match o.cpu with
    | none => .ok c
    | some name =>
      match Cpu.ofName? name with
      | some cpu => .ok { c with cpu }
      | none => .error (Cpu.unknownText name)
  match o.warnings with
  | none => .ok c
  | some value =>
    if Text.lowerAscii value = "error" then .ok { c with warningsAsErrors := true }
    else .error "The '-W' flag can only be used as '-Werror'"

/-- The name of the module of a run. -/
def moduleName (o : Options) (c : Config) : Option String :=
  c.moduleName.or ((o.file.bind Path.fileName?).map fun name => Text.upper (Path.stem name))

variable {m : Type → Type} [Monad m]

/-- The configuration with a name: a built-in one, or the one in a file. -/
def configuration (read : Toml.DocumentReader) (files : FileAccess m) (id : String) :
    m (Except ConfigError Config) := do
  match Config.builtin? id with
  | some c => return .ok c
  | none =>
    if ← files.isFile id then
      match ← files.read id with
      | .error e => return .error (.unreadable id e.text)
      | .ok bytes =>
        match Text.ofUtf8? bytes with
        | some text => return Config.parse read text
        | none => return .error (.unreadable id notTextReason)
    else return .error (.noSuchConfiguration id)

def disassemble (files : FileAccess m) (o : Options) (c : Config) : m Outcome := do
  match o.file with
  | none => return failed "" "" "An object file is required for disassembling" []
  | some file =>
    match ← ObjectCode.load files file with
    | .error e =>
      return failed "" "" ("Could not read object file '" ++ file ++ "'") (storeCauses e)
    | .ok object => return { code := 0, stdout := Disassembly.text c.cpu object }

/-- Writes the listing where it was asked for: what there is to print, or the failure. -/
def writeListing (files : FileAccess m) (o : Options) (a : Assembled) :
    m (Except (String × SystemError) String) := do
  match o.listing with
  | none => return .ok ""
  | some "-" => return .ok a.listing
  | some path =>
    match ← files.create path (Text.utf8 a.listing) with
    | .ok () => return .ok ""
    | .error e => return .error (path, e)

/-- Writes out what was assembled. The object file is only written if there are no errors. -/
def writeResults (files : FileAccess m) (o : Options) (a : Assembled) : m Outcome := do
  let stderr := messageText a.log
  match ← writeListing files o a with
  | .error (path, e) =>
    return failed "" stderr ("Could not create listing file '" ++ path ++ "'") [e.text]
  | .ok stdout =>
    if a.succeeded then
      let out := o.out.getD "out.obj"
      match ← a.program.object.save files out with
      | .error e =>
        return failed stdout stderr ("Could not write object file '" ++ out ++ "'") (storeCauses e)
      | .ok () => return { code := 0, stdout, stderr }
    else return { code := exitCode a.failures, stdout, stderr }

def assembleBytes (files : FileAccess m) (o : Options) (c : Config) (bytes : List UInt8) :
    m Outcome :=
  match c.assembleBytes (moduleName o c) bytes with
  | .error e => return { code := 1, stderr := "error: " ++ e.text ++ "\n" }
  | .ok a => writeResults files o a

/-- Assembles the file of the options, or the standard input. -/
def assembleInput (files : FileAccess m) (stdin : m (List UInt8)) (o : Options) (c : Config) :
    m Outcome := do
  match o.file with
  | none => assembleBytes files o c (← stdin)
  | some file =>
    if ← files.isFile file then
      match ← files.read file with
      | .error e => return failed "" "" e.text []
      | .ok bytes => assembleBytes files o c bytes
    else return failed "" "" "Input file must be a valid file" []

def run (read : Toml.DocumentReader) (files : FileAccess m) (stdin : m (List UInt8))
    (o : Options) : m Outcome := do
  match ← configuration read files (o.config.getD "intel8080") with
  | .error e => return { code := 1, stderr := "error: " ++ e.text ++ "\n" }
  | .ok c =>
    match adjust o c with
    | .error message => return failed "" "" message []
    | .ok c =>
      if o.disassemble then disassemble files o c else assembleInput files stdin o c

end CommandLine

end MicroAsm
