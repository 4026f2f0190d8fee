import MicroAsm.Assembly.Operand
import MicroAsm.Statement.Reader
import MicroAsm.Text.Hex

/-!
# Assembling line by line

The state of an assembly and what a line does to it. Labels get the address of their line at once;
values that need later symbols are left to the pass after the last line.
-/

namespace MicroAsm

/-- The state between two lines. -/
structure Assembly where
  cpu : Cpu := .intel8080
  symbols : SymbolTable := {}
  /-- The code so far. -/
  code : Segment := { name := SegmentId.code.defaultName }
  records : Array Record := #[]
  log : Log := {}
  /-- An END has been accepted. -/
  ended : Bool := false
deriving DecidableEq, Repr, Inhabited

namespace Assembly

def report (a : Assembly) (ms : List Message) : Assembly :=
  { a with log := a.log.reportAll ms }

def error (a : Assembly) (location : Location) (text : String) : Assembly :=
  a.report [⟨.error, location, text⟩]

def record (a : Assembly) (r : Record) : Assembly :=
  { a with records := a.records.push r }

/-- Puts bytes into the code. It is an error to go past the last address of the machine, but the
bytes are put there all the same. -/
def emit (a : Assembly) (bytes : List UInt8) (location : Location) : Assembly :=
  let a :=
    if a.code.endAddress + bytes.length > 0x10000 then
      a.error location "Location counter out of range"
    else a
  { a with code := a.code.append bytes }

/-- Takes over what changing the symbols gives, or reports what is wrong at a place. -/
def withSymbols (a : Assembly) (result : Except SymbolError SymbolTable) (location : Location) :
    Assembly :=
  match result with
  | .ok symbols => { a with symbols }
  | .error e => a.error location e.text

/-- Gives the label of a line a value. -/
def defineLabel (a : Assembly) (label : Option Token) (value : UInt16) : Assembly :=
  match label with
  | none => a
  | some t => a.withSymbols (a.symbols.add t.value value .label) t.location

/-- Moves the location counter. An empty segment is given its first address; after that the
counter only moves forward, over zeros. -/
def moveTo (a : Assembly) (target : UInt16) (location : Location) : Assembly :=
  if a.code.size = 0 then { a with code := { a.code with offset := target } }
  else if a.code.locationCounter ≤ target then
    a.emit (List.replicate (target.toNat - a.code.locationCounter.toNat) 0) location
  else
    a.error location
      ("Cannot move the location counter backwards to " ++ Text.hex 4 target)

/-- Gives the label of an assignment its value. -/
def assign (a : Assembly) (how : Assignment) (location : Location) (label : Option Token)
    (value : Option UInt16) : Assembly :=
  match label, value with
  | none, _ => a.error location ("Missing label for " ++ how.keyword)
  | some _, none => a
  | some t, some v =>
    match how with
    | .equ => a.withSymbols (a.symbols.add t.value v .equ) t.location
    | .set => a.withSymbols (a.symbols.assign t.value v) t.location

/-- Puts what a statement comes to into the code. -/
def put (a : Assembly) (e : Emission) (location : Location) : Assembly :=
  let a := a.report e.messages
  if e.emits then a.emit e.bytes location else a

end Assembly

def Assignment.nodeKind : Assignment → NodeKind
  | equ => .equ
  | set => .set

def Width.directive (w : Width) (location : Location) : Node :=
  match w with
  | byte => ⟨.db, "DB", location⟩
  | word => ⟨.dw, "DW", location⟩

def Assignment.directive (how : Assignment) (location : Location) : Node :=
  ⟨how.nodeKind, how.keyword, location⟩

/-- The node of a move of the location counter. -/
def orgDirective (location : Location) : Node :=
  ⟨.org, "ORG", location⟩

def Instruction.node (i : Instruction) (location : Location) : Node :=
  ⟨.opcode, i.mnemonic, location⟩

def labelNode (t : Token) : Node :=
  ⟨.label, t.value, t.location⟩

def commentNode (t : Token) : Node :=
  ⟨.comment, t.value, t.location⟩

namespace Assembly

/-- Does what a statement says on a line with the address `here`, and gives its nodes. -/
def execute (a : Assembly) (here : UInt16) (label : Option Token) (statement : Statement) :
    Assembly × Node × List OperandNode :=
  match statement with
  | .empty location => (a.defineLabel label here, ⟨.empty, "", location⟩, [])
  | .cpu location name =>
    let a := a.defineLabel label here
    let a :=
      match Cpu.ofName? name.value with
      | some cpu => { a with cpu }
      | none => a.error name.location (Cpu.unknownText name.value)
    (a, ⟨.cpu, name.value, location⟩, [])
  | .endUnit location =>
    ({ a.defineLabel label here with ended := true }, ⟨.endUnit, "END", location⟩, [])
  | .org location origin =>
    let (value, messages) := origin.evaluate a.symbols here
    let a := a.report messages
    let a :=
      match value with
      | some target => a.moveTo target origin.location
      | none => a
    (a.defineLabel label a.code.locationCounter, orgDirective location,
      [{ node := origin.node here .address value }])
  | .assign how location v =>
    let (value, messages) := v.evaluate a.symbols here
    ((a.report messages).assign how location label value, how.directive location,
      [{ node := v.node here .word value }])
  | .data width location items =>
    let a := a.defineLabel label here
    let e := Item.emissions a.symbols here width 0 items
    (a.put e location, width.directive location, e.operands)
  | .instruction i location arguments =>
    let a := a.defineLabel label here
    let e := i.emission location (arguments.map (Argument.settle a.symbols here))
    (a.put e location, i.node location, e.operands)

/-- The place of a line between two states. -/
def placement (before after : Assembly) (statement : Node) : Placement :=
  if statement.kind = .org then
    { address := after.code.locationCounter, start := after.code.size, size := 0 }
  else
    { address := after.code.offset + UInt16.ofNat before.code.size
      start := before.code.size
      size := after.code.size - before.code.size }

/-- Takes in a line that could be read. -/
def accept (a : Assembly) (location : Location) (label : Option Token) (statement : Statement)
    (comment : Option Token) : Assembly :=
  let (after, node, operands) := a.execute a.code.locationCounter label statement
  after.record <| .line
    { place := a.placement after node
      location
      label := label.map labelNode
      statement := node
      operands
      comment := comment.map commentNode }

/-- Looks at what could be read of a statement, for the complaints there are about it. -/
def examine (a : Assembly) (here : UInt16) (label : Option Token) (fragment : Fragment) :
    Assembly × Option Node × List Node :=
  match fragment with
  | .nothing => (a.defineLabel label here, none, [])
  | .org location => (a, some (orgDirective location), [])
  | .assign how location => (a, some (how.directive location), [])
  | .data width location items =>
    let a := a.defineLabel label here
    let e := Item.emissions a.symbols here width 0 items
    (a.report e.messages, some (width.directive location), e.operands.map OperandNode.node)
  | .instruction i location arguments =>
    let a := a.defineLabel label here
    let operands := arguments.map (Argument.settle a.symbols here)
    (a.report (operands.flatMap Settled.messages), some (i.node location),
      operands.map Settled.node)

/-- Turns down a line that could not be read. Its label may be defined all the same. -/
def reject (a : Assembly) (label : Option Token) (fragment : Fragment) (failure : Failure) :
    Assembly :=
  let (a, statement, operands) := a.examine a.code.locationCounter label fragment
  let a := a.record (.remnant ⟨label.map labelNode, statement, operands⟩)
  a.report [failure.message]

/-- Takes a physical line. A blank line does nothing. -/
def step (a : Assembly) (line : SourceLine) : Assembly :=
  match line.body with
  | [] => a
  | first :: _ =>
    match line.read a.cpu with
    | .accepted label statement comment => a.accept first.location label statement comment
    | .rejected label fragment failure => a.reject label fragment failure

/-- Warns about the first token after the end that is no comment. -/
def warnAfterEnd (a : Assembly) (lines : List SourceLine) : Assembly :=
  match (lines.flatMap SourceLine.body).find? (·.kind ≠ .comment) with
  | some t => a.report [⟨.warning, t.location, "Text after END is ignored"⟩]
  | none => a

/-- Takes physical lines up to the end of the unit. -/
def run (a : Assembly) : List SourceLine → Assembly
  | [] => a
  | line :: lines => if a.ended then a.warnAfterEnd (line :: lines) else (a.step line).run lines

end Assembly

end MicroAsm
