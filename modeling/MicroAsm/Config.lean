import MicroAsm.Listing.Basic
import MicroAsm.Toml.Basic

/-!
# Configurations

The settings of an assembler, from a built-in configuration or from a TOML document. A document
has the sections `assembler` and `listing`; whatever it leaves out keeps its default. How the text
of a document is read is left to a reader that is given.
-/

namespace MicroAsm

structure Config where
  /-- The processor until the source selects one. -/
  cpu : Cpu := .intel8080
  moduleName : Option String := none
  warningsAsErrors : Bool := false
  listing : Columns := {}
deriving DecidableEq, Repr, Inhabited

inductive ConfigError where
  /-- The text is no TOML document. -/
  | malformed (reason : String)
  | unknownSection (name : String)
  | notSection (name : String)
  | unknownKey (key : String)
  | notString (key : String)
  | notBoolean (key : String)
  | notNumber (key : String)
  | notPositive (key : String)
  | unknownCpu (name : String)
  | emptyModule
  | noSuchConfiguration (id : String)
  | unreadable (id reason : String)
deriving DecidableEq, Repr

def ConfigError.text : ConfigError → String
  | malformed reason => "bad configuration: " ++ reason
  | unknownSection name => "unknown section '" ++ name ++ "'"
  | notSection name => "'" ++ name ++ "' must be a section"
  | unknownKey key => "unknown key '" ++ key ++ "'"
  | notString key => "'" ++ key ++ "' must be a string"
  | notBoolean key => "'" ++ key ++ "' must be a boolean"
  | notNumber key => "'" ++ key ++ "' must be a number"
  | notPositive key => "'" ++ key ++ "' must be a positive number"
  | unknownCpu name => Cpu.unknownText name
  | emptyModule => "'assembler.module' cannot be empty"
  | noSuchConfiguration id => "'" ++ id ++ "' is neither a built-in configuration nor a file"
  | unreadable id reason => "could not read '" ++ id ++ "': " ++ reason

namespace Config

/-- The built-in configuration with this name. -/
def builtin? : String → Option Config
  | "intel8080" => some {}
  | "intel8085" => some { cpu := .intel8085 }
  | _ => none

/-- A value that has to be a string. -/
def stringValue (key : String) : Toml.Value → Except ConfigError String
  | .string s => .ok s
  | _ => .error (.notString key)

/-- A value that has to be a boolean. -/
def booleanValue (key : String) : Toml.Value → Except ConfigError Bool
  | .boolean b => .ok b
  | _ => .error (.notBoolean key)

/-- A value that has to be a column. -/
def columnValue (key : String) : Toml.Value → Except ConfigError Nat
  | .integer n => if 0 ≤ n then .ok n.toNat else .error (.notPositive key)
  | _ => .error (.notNumber key)

/-- Takes over an entry of the section `assembler`. -/
def withAssemblerEntry (c : Config) (entry : String × Toml.Value) : Except ConfigError Config :=
  match entry with
  | ("cpu", v) => do
    let name ← stringValue "assembler.cpu" v
    match Cpu.ofName? name with
    | some cpu => .ok { c with cpu }
    | none => .error (.unknownCpu name)
  | ("module", v) => do
    let name ← stringValue "assembler.module" v
    if name.isEmpty then .error .emptyModule else .ok { c with moduleName := some name }
  | ("warnings_as_errors", v) => do
    let b ← booleanValue "assembler.warnings_as_errors" v
    return { c with warningsAsErrors := b }
  | (key, _) => .error (.unknownKey ("assembler." ++ key))

/-- Takes over an entry of the section `listing`. -/
def withListingEntry (c : Columns) (entry : String × Toml.Value) : Except ConfigError Columns :=
  match entry with
  | ("address", v) => do return { c with address := ← columnValue "listing.address" v }
  | ("label", v) => do return { c with label := ← columnValue "listing.label" v }
  | ("mnemonic", v) => do return { c with mnemonic := ← columnValue "listing.mnemonic" v }
  | ("comment", v) => do return { c with comment := ← columnValue "listing.comment" v }
  | (key, _) => .error (.unknownKey ("listing." ++ key))

/-- The entries of a section, none if it is missing. -/
def sectionEntries (t : Toml.Table) (name : String) : Except ConfigError Toml.Table :=
  match t.lookup name with
  | some (.table entries) => .ok entries
  | some _ => .error (.notSection name)
  | none => .ok []

/-- Checks that a section is known. -/
def checkSection (entry : String × Toml.Value) : Except ConfigError Unit :=
  if entry.1 = "assembler" ∨ entry.1 = "listing" then .ok ()
  else .error (.unknownSection entry.1)

def ofTable (t : Toml.Table) : Except ConfigError Config := do
  t.forM checkSection
  let assembler ← sectionEntries t "assembler"
  let c ← assembler.foldlM withAssemblerEntry {}
  let listing ← sectionEntries t "listing"
  let columns ← listing.foldlM withListingEntry c.listing
  return { c with listing := columns }

def parse (read : Toml.DocumentReader) (text : String) : Except ConfigError Config :=
  match read text with
  | .ok t => ofTable t
  | .error reason => .error (.malformed reason)

end Config

end MicroAsm
