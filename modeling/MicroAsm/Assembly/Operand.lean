import MicroAsm.Assembly.Record
import MicroAsm.Statement.Basic

/-!
# Operands

What operands come to on their line: the nodes they make, the bytes they give, and what there is
to complain about. A value with a symbol that is not defined yet gives zeros and waits; a value
that does not fit is reported and gives zero too, so the size of a statement never depends on
values.
-/

namespace MicroAsm

/-- The complaint about a value that does not fit. -/
def outOfRange (bits : Nat) (v : Int) (location : Location) : Message :=
  ⟨.error, location, outOfRangeText bits v⟩

/-- The complaint about a symbol without a value. -/
def undefinedSymbol (name : String) (location : Location) : Message :=
  ⟨.error, location, (SymbolError.undefined name).text⟩

/-- A number in the given number of bits, or zero and a complaint. -/
def checkRange (bits : Nat) (v : Int) (location : Location) : UInt16 × List Message :=
  if fits bits v then (wordOfInt v, []) else (0, [outOfRange bits v location])

/-- The size of a value of this kind. -/
def OperandKind.width : OperandKind → Width
  | byte => .byte
  | _ => .word

/-- The kind of node that tells most about an expression. -/
def Expr.nodeKind (e : Expr) (here : UInt16) (kind : OperandKind) (value : Option UInt16) :
    NodeKind :=
  if e.literal?.isSome then
    match kind with
    | .byte => .data8 (value.getD 0).toUInt8
    | _ => .data16 (value.getD 0)
  else if e.isLocationCounter then .locationCounter here
  else if e.symbol?.isSome then
    match kind with
    | .address => .refAddress value
    | _ => .refData value
  else .expression e

def Value.node (v : Value) (here : UInt16) (kind : OperandKind) (value : Option UInt16) : Node :=
  ⟨v.expr.nodeKind here kind value, v.text, v.location⟩

/-- The value of an expression that cannot wait, or none and a complaint. -/
def Value.evaluate (v : Value) (symbols : SymbolTable) (here : UInt16) :
    Option UInt16 × List Message :=
  match v.expr.eval symbols here with
  | .ok n =>
    if fits 16 n then (some (wordOfInt n), []) else (none, [outOfRange 16 n v.location])
  | .error name => (none, [undefinedSymbol name v.location])

/-- What a value comes to that may wait for its symbols. -/
structure SettledValue where
  node : Node
  /-- Zero for a value that does not fit or has to wait. -/
  word : UInt16
  /-- The expression of a value that has to wait. -/
  waiting : Option Expr := none
  messages : List Message := []
deriving DecidableEq, Repr

/-- What a value comes to. -/
def Value.settle (symbols : SymbolTable) (here : UInt16) (kind : OperandKind) (v : Value) :
    SettledValue :=
  match v.expr.eval symbols here with
  | .ok n =>
    let (word, messages) := checkRange kind.width.bits n v.location
    { node := v.node here kind (some word), word, messages }
  | .error _ => { node := v.node here kind none, word := 0, waiting := some v.expr }

/-- An operand of an instruction, ready to be encoded. -/
structure Settled where
  node : Node
  operand : Operand
  /-- The size and the expression of a value that has to wait. -/
  waiting : Option (Width × Expr) := none
  /-- False if the instruction cannot be encoded with it. -/
  usable : Bool := true
  messages : List Message := []
deriving DecidableEq, Repr

/-- The code of a register pair in any set. -/
def pairCode? (name : String) : Option UInt8 :=
  (codeIn? (PairSet.sp.names ++ PairSet.psw.names) name).map (· % 4)

def settleRegister (kind : OperandKind) (t : Token) : Settled :=
  let nodeKind : NodeKind :=
    match kind with
    | .register => .register8 (registerCode? t.value)
    | _ => .register16 (pairCode? t.value)
  { node := ⟨nodeKind, t.value, t.location⟩, operand := .register t.value }

/-- What a restart code comes to. It decides about the opcode, so it cannot wait. -/
def settleRestart (symbols : SymbolTable) (here : UInt16) (v : Value) : Settled :=
  match v.expr.eval symbols here with
  | .ok n =>
    let code := if fits 3 n then some (wordOfInt n).toUInt8 else none
    { node := ⟨.restartCode code, v.text, v.location⟩, operand := .value n }
  | .error name =>
    { node := ⟨.undefinedOperand, v.text, v.location⟩, operand := .value 0, usable := false,
      messages := [undefinedSymbol name v.location] }

/-- What an operand of an instruction comes to. -/
def Argument.settle (symbols : SymbolTable) (here : UInt16) : Argument → Settled
  | register kind t => settleRegister kind t
  | value .restartCode v => settleRestart symbols here v
  | value kind v =>
    let s := v.settle symbols here kind
    { node := s.node
      operand := .value s.word.toNat
      waiting := s.waiting.map (kind.width, ·)
      messages := s.messages }

/-- What a statement puts into the code. -/
structure Emission where
  operands : List OperandNode
  bytes : List UInt8
  messages : List Message
  /-- False if the statement leaves the code alone. -/
  emits : Bool := true
deriving DecidableEq, Repr

/-- Marks an operand as wrong. -/
def invalidate (position : Option Nat) (operands : List OperandNode) : List OperandNode :=
  match position with
  | none => operands
  | some i => operands.modify i fun o =>
      { o with node := { o.node with kind := o.node.kind.invalidated } }

/-- The place to blame for an encoding error. -/
def EncodingError.location (e : EncodingError) (operands : List Settled) (default : Location) :
    Location :=
  ((e.operand.bind (operands[·]?)).map (·.node.location)).getD default

/-- The combination of operands stands for no instruction at all. -/
def EncodingFault.isIncorrectOpcode : EncodingFault → Bool
  | incorrectOpcode _ => true
  | _ => false

/-- What an instruction puts into the code. Wrong operands still take the room of the instruction,
unless their combination is no instruction at all. -/
def Instruction.emission (i : Instruction) (location : Location) (operands : List Settled) :
    Emission :=
  let messages := operands.flatMap Settled.messages
  let zeros := List.replicate i.family.size 0
  let nodes := operands.map fun o => ({ node := o.node } : OperandNode)
  if operands.all Settled.usable then
    match i.encode (operands.map Settled.operand) with
    | .ok bytes =>
      -- The value of an instruction comes right after its code byte.
      { operands := operands.map fun o =>
          { node := o.node, deferred := o.waiting.map fun (width, expr) => ⟨1, width, expr⟩ }
        bytes
        messages }
    | .error e =>
      { operands := invalidate e.operand nodes
        bytes := if e.fault.isIncorrectOpcode then [] else zeros
        messages := messages ++ [⟨.error, e.location operands location, e.fault.text⟩]
        emits := !e.fault.isIncorrectOpcode }
  else { operands := nodes, bytes := zeros, messages }

/-- The characters of a string without its quotes. -/
def stringBody (t : Token) : List Char :=
  (t.value.toList.drop 1).dropLast

/-- What the characters of a string put into the code. The first node has the text of the whole
string. -/
def stringEmission (t : Token) : (text : String) → List Char → Emission
  | _, [] => ⟨[], [], [], true⟩
  | text, c :: cs =>
    let checked := checkRange 8 c.toNat t.location
    let rest := stringEmission t "" cs
    { operands := { node := ⟨.data8 checked.1.toUInt8, text, t.location⟩ } :: rest.operands
      bytes := checked.1.toUInt8 :: rest.bytes
      messages := checked.2 ++ rest.messages }

/-- The kind of operand that a data directive takes. -/
def Width.operandKind : Width → OperandKind
  | byte => .byte
  | word => .word

/-- What an item of data puts into the code, `offset` bytes from the start of its line. -/
def Item.emission (symbols : SymbolTable) (here : UInt16) (width : Width) (offset : Nat) :
    Item → Emission
  | string t => stringEmission t t.value (stringBody t)
  | value v =>
    let s := v.settle symbols here width.operandKind
    { operands := [{ node := s.node, deferred := s.waiting.map (⟨offset, width, ·⟩) }]
      bytes := width.bytesOf s.word
      messages := s.messages }

/-- What a list of data puts into the code, `offset` bytes from the start of its line. -/
def Item.emissions (symbols : SymbolTable) (here : UInt16) (width : Width) :
    (offset : Nat) → List Item → Emission
  | _, [] => ⟨[], [], [], true⟩
  | offset, item :: items =>
    let first := item.emission symbols here width offset
    let rest := Item.emissions symbols here width (offset + first.bytes.length) items
    { operands := first.operands ++ rest.operands
      bytes := first.bytes ++ rest.bytes
      messages := first.messages ++ rest.messages }

end MicroAsm
