import MicroAsm.Parser.Operand

/-!
# Parsing statements

    line := [label] statement [comment]
    label := identifier ":" | identifier, before EQU or SET

A statement is taken token by token up to its end, and only then does what it says: it selects a
processor, ends the unit, moves the location counter, gives its label a value or puts bytes into
the object code. A label that stands in front of any other statement is defined before that
statement is looked at.
-/

namespace MicroAsm

namespace Parser

/-! ### Directives -/

/-- Selects the processor with a name, or reports that there is none. -/
def selectCpu (p : Parser) (name : Token) : Parser :=
  match Cpu.ofName? name.value with
  | some cpu => { p with cpu }
  | none => p.report ⟨.error, name.location, Cpu.unknownText name.value⟩

def parseCpu : Parse Nat := do
  let t ← token
  advance
  let name ← token
  if name.kind = .identifier ∨ name.kind = .number then
    advance
    expectEnd
    modify (·.selectCpu name)
    addNode ⟨.cpu, name.value, t.location⟩
  else missing TokenKind.identifier.name

def parseEnd : Parse Nat := do
  let t ← token
  advance
  expectEnd
  modify fun p => { p with ended := true }
  addNode ⟨.endUnit, "END", t.location⟩

/-- Moves the location counter. An empty segment is given its first address; after that the
counter only moves forward, over zeros. -/
def moveTo (p : Parser) (target : UInt16) (location : Location) : Parser :=
  if p.segmentSize = 0 then
    { p with object := p.object.modify p.segment (·.setOffset target) }
  else if p.locationCounter ≤ target then
    p.emit (List.replicate (target.toNat - p.locationCounter.toNat) 0) location
  else
    p.report ⟨.error, location,
      "Cannot move the location counter backwards to " ++ Text.hex 4 target⟩

/-- Takes the expression of a directive and makes it the child of its node, with its value. -/
def parseOnlyValue (parent : Nat) (kind : OperandKind) : Parse (Value × Option UInt16) := do
  let v ← parseExpr
  expectEnd
  let value ← evaluateNow v
  let child ← addValueNode v kind value
  appendChild parent child
  return (v, value)

/-- Takes a move of the location counter. Its label gets the address that is reached. -/
def parseOrg (label : Option Token) : Parse Nat := do
  let t ← token
  let node ← addNode (orgDirective t.location)
  advance
  let (v, value) ← parseOnlyValue node .address
  modify fun p =>
    match value with
    | some target => p.moveTo target v.location
    | none => p
  modify fun p => p.defineLabel label p.locationCounter
  return node

/-- Gives the label of an assignment its value. -/
def assign (p : Parser) (how : Assignment) (location : Location) (label : Option Token)
    (value : Option UInt16) : Parser :=
  match label, value with
  | none, _ => p.report ⟨.error, location, "Missing label for " ++ how.keyword⟩
  | some _, none => p
  | some t, some v =>
    match how with
    | .equ => p.withSymbols (p.symbols.add t.value v .equ) t.location
    | .set => p.withSymbols (p.symbols.assign t.value v) t.location

/-- Takes an assignment to the label of the line. -/
def parseAssignment (label : Option Token) (how : Assignment) : Parse Nat := do
  let t ← token
  let node ← addNode (how.directive t.location)
  advance
  let (_, value) ← parseOnlyValue node .word
  modify (·.assign how t.location label value)
  return node

/-- Takes a list of data. -/
def parseData (width : Width) : Parse Nat := do
  let t ← token
  let node ← addNode (width.directive t.location)
  advance
  let (bytes, pending) ← parseItems width node 0
  expectEnd
  modify fun p => (p.emit bytes t.location).addFixups p.segmentSize pending
  return node

/-! ### Instructions -/

/-- Marks an operand as wrong. -/
def blame (p : Parser) (operand : Option ParsedOperand) : Parser :=
  match operand with
  | none => p
  | some o =>
    { p with tree := p.tree.modify o.node fun n => { n with kind := n.kind.invalidated } }

/-- Puts an instruction into the object code. Wrong operands still take the room of the instruction,
unless their combination is no instruction at all. -/
def emitInstruction (p : Parser) (i : Instruction) (location : Location)
    (operands : List ParsedOperand) : Parser :=
  let zeros := List.replicate i.family.size 0
  if operands.all ParsedOperand.valid then
    match i.encode (operands.map ParsedOperand.operand) with
    | .ok bytes =>
      -- The value of an instruction comes right after its code byte.
      let pending := (operands.filterMap ParsedOperand.pending).map ({ · with offset := 1 })
      (p.emit bytes location).addFixups p.segmentSize pending
    | .error e =>
      let operand := e.operand.bind (operands[·]?)
      let p := (p.blame operand).report
        ⟨.error, (operand.map ParsedOperand.location).getD location, e.fault.text⟩
      if e.fault.isIncorrectOpcode then p else p.emit zeros location
  else p.emit zeros location

/-- Takes an instruction with the operands that it has on the selected processor. -/
def parseOpcode : Parse Nat := do
  let t ← token
  let p ← get
  match p.cpu.lookup t.value with
  | .otherCpu _ => missing "Opcode"
  | .unknown => throw ⟨t.location, .unknownMnemonic t.value⟩
  | .supported i =>
    let node ← addNode (i.node t.location)
    advance
    let operands ← parseOperands node i.family.operands
    expectEnd
    modify (·.emitInstruction i t.location operands)
    return node

/-! ### Lines -/

/-- Takes the label of a line, if there is one: its token and the number of its node. -/
def parseLabel : Parse (Option (Token × Nat)) := do
  let t ← token
  if t.kind = .identifier then
    let next ← peek
    match next.kind with
    | .colon =>
      let node ← addNode (labelNode t)
      advance
      advance
      return some (t, node)
    | .equ | .set =>
      let node ← addNode (labelNode t)
      advance
      return some (t, node)
    | _ => return none
  else return none

/-- Takes a statement that does not say what its label stands for. -/
def parsePlainStatement : Parse Nat := do
  let t ← token
  match t.kind with
  | .endOfLine | .endOfFile | .comment => addNode ⟨.empty, "", t.location⟩
  | .cpu => parseCpu
  | .endUnit => parseEnd
  | .db => parseData .byte
  | .dw => parseData .word
  | .identifier => parseOpcode
  | _ => missing "Opcode"

/-- Takes the statement of a line with the given label. -/
def parseStatement (label : Option Token) : Parse Nat := do
  let t ← token
  match t.kind with
  | .equ => parseAssignment label .equ
  | .set => parseAssignment label .set
  | .org => parseOrg label
  | _ =>
    modify fun p => p.defineLabel label p.lineAddress
    parsePlainStatement

/-- Takes the comment of a line, if there is one. -/
def parseComment : Parse (List Nat) := do
  let t ← token
  if t.kind = .comment then
    let node ← addNode (commentNode t)
    advance
    return [node]
  else return []

/-- Takes a line up to its end, and gives the numbers of its nodes. -/
def parseStatementLine : Parse (List Nat) := do
  let label ← parseLabel
  let statement ← parseStatement (label.map Prod.fst)
  let comment ← parseComment
  let t ← token
  if t.kind.endsLine then return (label.map Prod.snd).toList ++ statement :: comment
  else missing TokenKind.endOfLine.name

/-! ### Moving forward -/

theorem cursor_withSymbols (p : Parser) (result : Except SymbolError SymbolTable)
    (location : Location) : (p.withSymbols result location).cursor = p.cursor := by
  cases result <;> rfl

@[simp] theorem cursor_defineLabel (p : Parser) (label : Option Token) (value : UInt16) :
    (p.defineLabel label value).cursor = p.cursor := by
  cases label with
  | none => rfl
  | some t => exact cursor_withSymbols p _ _

@[simp] theorem cursor_emit (p : Parser) (bytes : List UInt8) (location : Location) :
    (p.emit bytes location).cursor = p.cursor := by
  rw [emit]
  split
  · rfl
  · split <;> rfl

theorem cursor_selectCpu (p : Parser) (name : Token) : (p.selectCpu name).cursor = p.cursor := by
  rw [selectCpu]
  split <;> rfl

theorem cursor_moveTo (p : Parser) (target : UInt16) (location : Location) :
    (p.moveTo target location).cursor = p.cursor := by
  rw [moveTo]
  split
  · rfl
  · split
    · exact cursor_emit p _ _
    · rfl

theorem cursor_assign (p : Parser) (how : Assignment) (location : Location)
    (label : Option Token) (value : Option UInt16) :
    (p.assign how location label value).cursor = p.cursor := by
  unfold assign
  split
  · rfl
  · rfl
  · split <;> exact cursor_withSymbols p _ _

theorem cursor_emitInstruction (p : Parser) (i : Instruction) (location : Location)
    (operands : List ParsedOperand) :
    (p.emitInstruction i location operands).cursor = p.cursor := by
  have hblame : ∀ o, (p.blame o).cursor = p.cursor := by
    intro o
    cases o <;> rfl
  rw [emitInstruction]
  split
  · split
    · exact cursor_emit p _ _
    · split
      · exact hblame _
      · exact (cursor_emit _ _ _).trans (hblame _)
  · exact cursor_emit p _ _

theorem forward_parseCpu : Forward parseCpu := by
  refine forward_token.bind fun t => forward_advance.bind fun _ => forward_token.bind fun name => ?_
  split
  · refine forward_advance.bind fun _ => forward_expectEnd.bind fun _ => ?_
    exact (forward_modify (cursor_selectCpu · name)).bind fun _ => forward_addNode _
  · exact forward_missing _

theorem forward_parseEnd : Forward parseEnd := by
  refine forward_token.bind fun t => forward_advance.bind fun _ => ?_
  refine forward_expectEnd.bind fun _ => Forward.bind ?_ fun _ => forward_addNode _
  exact forward_modify fun _ => rfl

theorem forward_parseOnlyValue (parent : Nat) (kind : OperandKind) :
    Forward (parseOnlyValue parent kind) := by
  refine forward_parseExpr.bind fun v => forward_expectEnd.bind fun _ => ?_
  refine (forward_evaluateNow v).bind fun value => (forward_addValueNode _ _ _).bind fun child => ?_
  exact (forward_appendChild _ _).bind fun _ => forward_pure _

theorem forward_parseOrg (label : Option Token) : Forward (parseOrg label) := by
  refine forward_token.bind fun t => (forward_addNode _).bind fun node => ?_
  refine forward_advance.bind fun _ => (forward_parseOnlyValue _ _).bind fun v => ?_
  refine Forward.bind ?_ fun _ => Forward.bind ?_ fun _ => forward_pure node
  · refine forward_modify fun p => ?_
    split
    · exact cursor_moveTo p _ _
    · rfl
  · exact forward_modify fun p => cursor_defineLabel p _ _

theorem forward_parseAssignment (label : Option Token) (how : Assignment) :
    Forward (parseAssignment label how) := by
  refine forward_token.bind fun t => (forward_addNode _).bind fun node => ?_
  refine forward_advance.bind fun _ => (forward_parseOnlyValue _ _).bind fun v => ?_
  exact (forward_modify (cursor_assign · _ _ _ _)).bind fun _ => forward_pure node

theorem forward_parseData (width : Width) : Forward (parseData width) := by
  refine forward_token.bind fun t => (forward_addNode _).bind fun node => ?_
  refine forward_advance.bind fun _ => (forward_parseItems _ _ _).bind fun result => ?_
  refine forward_expectEnd.bind fun _ => Forward.bind ?_ fun _ => forward_pure node
  exact forward_modify fun p => cursor_emit p _ _

theorem forward_parseOperand (parent : Nat) (kind : OperandKind) :
    Forward (parseOperand parent kind) := by
  have hregister : Forward (parseRegister kind) := by
    refine forward_token.bind fun t => ?_
    split
    · exact (forward_addOperand _).bind fun o => forward_advance.bind fun _ => forward_pure o
    · exact forward_missing _
  refine Forward.bind ?_ fun o => (forward_appendChild _ _).bind fun _ => forward_pure o
  unfold parseArgument
  split
  · exact hregister
  · exact hregister
  · exact forward_parseValue kind

theorem forward_parseOperands (parent : Nat) (kinds : List OperandKind) :
    Forward (parseOperands parent kinds) := by
  fun_induction parseOperands parent kinds with
  | case1 => exact forward_pure []
  | case2 kind => exact (forward_parseOperand _ _).bind fun o => forward_pure _
  | case3 kind kinds _ ih =>
    refine (forward_parseOperand _ _).bind fun o => (forward_expect _).bind fun _ => ?_
    exact ih.bind fun os => forward_pure _

theorem forward_parseOpcode : Forward parseOpcode := by
  refine forward_token.bind fun t => forward_get.bind fun p => ?_
  split
  · exact forward_missing _
  · exact forward_throw _
  · refine (forward_addNode _).bind fun node => forward_advance.bind fun _ => ?_
    refine (forward_parseOperands _ _).bind fun operands => forward_expectEnd.bind fun _ => ?_
    exact (forward_modify (cursor_emitInstruction · _ _ _)).bind fun _ => forward_pure node

theorem forward_parseLabel : Forward parseLabel := by
  refine forward_token.bind fun t => ?_
  split
  · refine forward_peek.bind fun next => ?_
    split
    · refine (forward_addNode _).bind fun node => forward_advance.bind fun _ => ?_
      exact forward_advance.bind fun _ => forward_pure _
    · exact (forward_addNode _).bind fun node => forward_advance.bind fun _ => forward_pure _
    · exact (forward_addNode _).bind fun node => forward_advance.bind fun _ => forward_pure _
    · exact forward_pure none
  · exact forward_pure none

theorem forward_parsePlainStatement : Forward parsePlainStatement := by
  refine forward_token.bind fun t => ?_
  split
  · exact forward_addNode _
  · exact forward_addNode _
  · exact forward_addNode _
  · exact forward_parseCpu
  · exact forward_parseEnd
  · exact forward_parseData _
  · exact forward_parseData _
  · exact forward_parseOpcode
  · exact forward_missing _

theorem forward_parseStatement (label : Option Token) : Forward (parseStatement label) := by
  refine forward_token.bind fun t => ?_
  split
  · exact forward_parseAssignment label _
  · exact forward_parseAssignment label _
  · exact forward_parseOrg label
  · refine Forward.bind ?_ fun _ => forward_parsePlainStatement
    exact forward_modify fun p => cursor_defineLabel p _ _

theorem forward_parseStatementLine : Forward parseStatementLine := by
  refine forward_parseLabel.bind fun label => (forward_parseStatement _).bind fun statement => ?_
  refine Forward.bind ?_ fun comment => forward_token.bind fun t => ?_
  · refine forward_token.bind fun t => ?_
    split
    · exact (forward_addNode _).bind fun node => forward_advance.bind fun _ => forward_pure _
    · exact forward_pure []
  · split
    · exact forward_pure _
    · exact forward_missing _

end Parser

end MicroAsm
