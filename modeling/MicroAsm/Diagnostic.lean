import MicroAsm.Location

/-!
# Diagnostics

Messages about a unit and the log that collects them. A log keeps every message in the order of
its report and a count for each severity.
-/

namespace MicroAsm

/-- How bad a message is. -/
inductive Severity where
  | warning
  | error
  /-- A failure that is no fault of the source. -/
  | exception
deriving DecidableEq, Repr, Inhabited

/-- The name of a severity, as listings show it. -/
def Severity.name : Severity → String
  | warning => "Warning"
  | error => "Error"
  | exception => "Exception"

/-- Something to tell about a unit. -/
structure Message where
  severity : Severity
  /-- No place at all for a message about the unit as a whole. -/
  location : Location
  text : String
deriving DecidableEq, Repr, Inhabited

namespace Message

/-- The message is about the unit as a whole. -/
def isGlobal (m : Message) : Bool := m.location.isNone

/-- The message with its place in front. -/
def shown (m : Message) : String :=
  if m.isGlobal then m.text else m.location.text ++ " - " ++ m.text

end Message

/-- The text of a complaint that one thing was expected and another found. -/
def expectedText (expected found : String) : String :=
  if found.isEmpty then "Expected " ++ expected else "Expected " ++ expected ++ ": " ++ found

/-- Messages in the order of their report, with their counts. -/
structure Log where
  messages : Array Message := #[]
  errors : Nat := 0
  warnings : Nat := 0
  exceptions : Nat := 0
deriving DecidableEq, Repr, Inhabited

namespace Log

def report (log : Log) (m : Message) : Log :=
  let log := { log with messages := log.messages.push m }
  match m.severity with
  | .warning => { log with warnings := log.warnings + 1 }
  | .error => { log with errors := log.errors + 1 }
  | .exception => { log with exceptions := log.exceptions + 1 }

def reportAll (log : Log) (ms : List Message) : Log :=
  ms.foldl report log

def error (log : Log) (location : Location) (text : String) : Log :=
  log.report ⟨.error, location, text⟩

def warning (log : Log) (location : Location) (text : String) : Log :=
  log.report ⟨.warning, location, text⟩

/-- Reports a warning about the unit as a whole. -/
def globalWarning (log : Log) (text : String) : Log :=
  log.report ⟨.warning, .none, text⟩

/-- Reports a failure that is no fault of the source. -/
def exception (log : Log) (text : String) : Log :=
  log.report ⟨.exception, .none, text⟩

/-- Reports that one thing was expected and another found. -/
def syntaxError (log : Log) (location : Location) (expected found : String) : Log :=
  log.error location (expectedText expected found)

/-- The messages about a line. -/
def onLine (log : Log) (line : Nat) : List Message :=
  log.messages.toList.filter (·.location.line == line)

/-- The messages about the unit as a whole. -/
def global (log : Log) : List Message :=
  log.messages.toList.filter (·.isGlobal)

/-- A warning made an error. -/
def promoted (m : Message) : Message :=
  if m.severity = .warning then { m with severity := .error } else m

def promoteWarnings (log : Log) : Log :=
  { log with
    messages := log.messages.map promoted
    errors := log.errors + log.warnings
    warnings := 0 }

/-- How many messages stand against the use of the result. -/
def failures (log : Log) : Nat :=
  log.errors + log.exceptions

end Log

end MicroAsm
