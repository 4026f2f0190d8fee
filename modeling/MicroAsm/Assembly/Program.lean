import MicroAsm.Assembly.Step

/-!
# Programs

Resolving the values that wait for symbols, and everything that assembling a source gives.
-/

namespace MicroAsm

/-- What the last pass changes: the code and the messages. -/
structure Patching where
  code : Segment
  log : Log
deriving DecidableEq, Repr

namespace Patching

/-- Writes a value that has been waiting into the code. -/
def write (p : Patching) (index : Nat) (bytes : List UInt8) (location : Location) : Patching :=
  match p.code.patch? index bytes with
  | some code => { p with code }
  | none => { p with log := p.log.exception ("fixup out of bounds at " ++ location.text) }

/-- Gives an operand the value it has been waiting for. -/
def resolveOperand (p : Patching) (symbols : SymbolTable) (place : Placement) (o : OperandNode) :
    OperandNode × Patching :=
  match o.deferred with
  | none => (o, p)
  | some d =>
    match d.expr.eval symbols place.address with
    | .error name =>
      ({ o with deferred := none },
        { p with log := p.log.report (undefinedSymbol name o.node.location) })
    | .ok n =>
      let (word, messages) := checkRange d.width.bits n o.node.location
      let p := { p with log := p.log.reportAll messages }
      ({ node := { o.node with kind := o.node.kind.resolved word }, deferred := none },
        p.write (place.start + d.offset) (d.width.bytesOf word) o.node.location)

/-- Gives operands of a line their values, one after the other. -/
def resolveOperands (p : Patching) (symbols : SymbolTable) (place : Placement) :
    List OperandNode → List OperandNode × Patching
  | [] => ([], p)
  | o :: os =>
    let (o, p) := p.resolveOperand symbols place o
    let (os, p) := p.resolveOperands symbols place os
    (o :: os, p)

/-- Gives the operands of recorded lines their values, one line after the other. -/
def resolveRecords (p : Patching) (symbols : SymbolTable) : List Record → List Record × Patching
  | [] => ([], p)
  | .remnant r :: rest =>
    let (rest, p) := p.resolveRecords symbols rest
    (.remnant r :: rest, p)
  | .line l :: rest =>
    let (operands, p) := p.resolveOperands symbols l.place l.operands
    let (rest, p) := p.resolveRecords symbols rest
    (.line { l with operands } :: rest, p)

end Patching

inductive TreeError where
  | noStatements
deriving DecidableEq, Repr

def TreeError.text : TreeError → String
  | noStatements => "no statements have been parsed"

/-- What assembling a source gives, apart from messages. -/
structure Program where
  records : List Record := []
  object : ObjectCode
  symbols : SymbolTable := {}
  /-- The processor selected at the end. -/
  cpu : Cpu
deriving DecidableEq, Repr

namespace Program

/-- The name of a module that was given none. -/
def defaultModule : String := "MAIN"

/-- The program before anything was read. -/
def initial (cpu : Cpu) (moduleName : String) : Program :=
  { object := .ofModule moduleName, cpu }

/-- The lines that were accepted. -/
def lines (p : Program) : List Line :=
  p.records.filterMap Record.line?

/-- How many values still wait for symbols. -/
def waiting (p : Program) : Nat :=
  (p.lines.flatMap Line.deferred).length

/-- The syntax tree, if there is a line. -/
def tree (p : Program) : Except TreeError SyntaxTree :=
  let t := SyntaxTree.ofRecords p.records
  match t.root with
  | some _ => .ok t
  | none => .error .noStatements

end Program

/-- Resolves the values that wait, and gives the program of a module with the messages. -/
def Assembly.finish (a : Assembly) (moduleName : String) : Program × Log :=
  let (records, p) := Patching.resolveRecords ⟨a.code, a.log⟩ a.symbols a.records.toList
  ({ records
     object := (ObjectCode.ofModule moduleName).put .code p.code
     symbols := a.symbols
     cpu := a.cpu },
   p.log)

/-- Assembles a source, with its messages after those of a log. -/
def assembleInto (log : Log) (cpu : Cpu) (moduleName source : String) : Program × Log :=
  (({ cpu, log } : Assembly).run (SourceLine.ofText source)).finish moduleName

def assemble (cpu : Cpu) (moduleName source : String) : Program × Log :=
  assembleInto {} cpu moduleName source

end MicroAsm
