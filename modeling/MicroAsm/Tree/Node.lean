import MicroAsm.Expr
import MicroAsm.Object.Basic

/-!
# Nodes

What the nodes of a syntax tree hold.
-/

namespace MicroAsm

/-- Where the bytes of a line went. -/
structure Placement where
  segment : SegmentId := .code
  /-- The address of the line. -/
  address : UInt16 := 0
  /-- The index of its first byte in the segment. -/
  start : Nat := 0
  /-- How many bytes it has. -/
  size : Nat := 0
deriving DecidableEq, Repr, Inhabited

/-- What a node stands for. -/
inductive NodeKind where
  /-- The root, with the lines below it. -/
  | tree
  /-- A line: an optional label, a statement and an optional comment. -/
  | line (place : Placement)
  | comment
  | label
  /-- The statement of a line that has none. -/
  | empty
  | cpu
  | org
  | endUnit
  | equ
  | set
  | db
  | dw
  /-- An instruction, with its operands below it. -/
  | opcode
  /-- A register, without a code if the instruction cannot take it. -/
  | register8 (code : Option UInt8)
  | register16 (code : Option UInt8)
  | expression (expr : Expr)
  /-- The location counter, with the value it has on the line. -/
  | locationCounter (value : UInt16)
  /-- A symbol used as an address, without a value as long as it has none. -/
  | refAddress (value : Option UInt16)
  | refData (value : Option UInt16)
  | data8 (value : UInt8)
  | data16 (value : UInt16)
  /-- A restart code, none if it is out of range. -/
  | restartCode (code : Option UInt8)
  /-- An operand without the value that it needs at once. -/
  | undefinedOperand
deriving DecidableEq, Repr, Inhabited

namespace NodeKind

def name : NodeKind → String
  | tree => "Tree"
  | line _ => "StatementLine"
  | comment => "Comment"
  | label => "Label"
  | empty => "Empty"
  | cpu => "CPU"
  | org => "ORG"
  | endUnit => "END"
  | equ => "EQU"
  | set => "SET"
  | db => "DB"
  | dw => "DW"
  | opcode => "Opcode"
  | register8 _ => "Register8"
  | register16 _ => "Register16"
  | expression _ => "Expression"
  | locationCounter _ => "LocCounter"
  | refAddress _ => "RefAddress"
  | refData _ => "RefData"
  | data8 _ => "Data8"
  | data16 _ => "Data16"
  | restartCode _ => "RSTCode"
  | undefinedOperand => "UndefinedOperand"

/-- The kind marks an operand that cannot be used. -/
def isInvalid : NodeKind → Bool
  | register8 none | register16 none | restartCode none | undefinedOperand => true
  | _ => false

/-- The kind of an operand that turned out to be wrong. -/
def invalidated : NodeKind → NodeKind
  | register8 _ => register8 none
  | register16 _ => register16 none
  | restartCode _ => restartCode none
  | kind => kind

/-- The kind of a reference that has got its value. -/
def resolved (value : UInt16) : NodeKind → NodeKind
  | refAddress _ => refAddress (some value)
  | refData _ => refData (some value)
  | kind => kind

end NodeKind

/-- A node of a syntax tree. -/
structure Node where
  kind : NodeKind
  text : String
  location : Location
deriving DecidableEq, Repr, Inhabited

/-- A statement as a source would have it, with single blanks and no blank after commas. -/
def Node.statementText (head : Node) (operands : List Node) : String :=
  match head.kind with
  | .empty => ""
  | .cpu => head.kind.name ++ " " ++ head.text
  | kind =>
    let name := if kind = .opcode then head.text else kind.name
    match (operands.map Node.text).filter (! ·.isEmpty) with
    | [] => name
    | texts => name ++ " " ++ ",".intercalate texts

end MicroAsm
