import MicroAsm.Config
import MicroAsm.Text.Utf8

/-!
# The assembler

From the bytes of a source to a program, its messages and its listing, with the settings of a
configuration.
-/

namespace MicroAsm

/-- What assembling with a configuration gives. -/
structure Assembled where
  source : String
  program : Program
  log : Log
  columns : Columns
deriving DecidableEq, Repr

namespace Assembled

/-- How many messages stand against the use of the object code. -/
def failures (a : Assembled) : Nat := a.log.failures

/-- The object code can be used. -/
def succeeded (a : Assembled) : Bool := a.failures == 0

def listing (a : Assembled) : String :=
  Listing.render a.columns a.source a.program a.log

end Assembled

/-- Why a source cannot be read. -/
inductive SourceError where
  | notText
  | unreadable (reason : String)
deriving DecidableEq, Repr

/-- The complaint about bytes that are no text. -/
def notTextReason : String := "stream did not contain valid UTF-8"

def SourceError.text : SourceError → String
  | notText => "could not read source: " ++ notTextReason
  | unreadable reason => "could not read source: " ++ reason

namespace Config

/-- Assembles a source. The module is called as the caller says, or as the configuration says. -/
def assemble (c : Config) (moduleName : Option String) (source : String) : Assembled :=
  let name := (moduleName.or c.moduleName).getD Program.defaultModule
  let (program, log) := MicroAsm.assemble c.cpu name source
  { source
    program
    log := if c.warningsAsErrors then log.promoteWarnings else log
    columns := c.listing }

def assembleBytes (c : Config) (moduleName : Option String) (bytes : List UInt8) :
    Except SourceError Assembled :=
  match Text.ofUtf8? bytes with
  | some source => .ok (c.assemble moduleName source)
  | none => .error .notText

end Config

end MicroAsm
