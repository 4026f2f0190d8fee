import MicroAsm.Diagnostic
import MicroAsm.Expr
import MicroAsm.Instruction.Encoding
import MicroAsm.Token.Basic

/-!
# Statements

What a line of a source says, and what is left of a line that cannot be read.
-/

namespace MicroAsm

/-- An expression with its text and its place in the source. -/
structure Value where
  expr : Expr
  /-- The tokens of the expression without blanks between them. -/
  text : String
  location : Location
deriving DecidableEq, Repr, Inhabited

/-- An item of a list of data. -/
inductive Item where
  /-- A string that stands for its characters. -/
  | string (token : Token)
  | value (v : Value)
deriving DecidableEq, Repr

/-- An operand of an instruction as it is written. -/
inductive Argument where
  | register (kind : OperandKind) (token : Token)
  | value (kind : OperandKind) (v : Value)
deriving DecidableEq, Repr

/-- The two ways to give a name a value. -/
inductive Assignment where
  /-- Once and for all. -/
  | equ
  /-- Until the next time. -/
  | set
deriving DecidableEq, Repr

def Assignment.keyword : Assignment → String
  | equ => "EQU"
  | set => "SET"

/-- What a line says. The location is that of its directive or mnemonic. -/
inductive Statement where
  /-- Nothing, up to the comment or the end of the line. -/
  | empty (location : Location)
  | cpu (location : Location) (name : Token)
  | endUnit (location : Location)
  | org (location : Location) (origin : Value)
  | assign (how : Assignment) (location : Location) (v : Value)
  | data (width : Width) (location : Location) (items : List Item)
  | instruction (i : Instruction) (location : Location) (arguments : List Argument)
deriving DecidableEq, Repr

/-- What was read of the statement of a line before it went wrong. -/
inductive Fragment where
  | nothing
  | org (location : Location)
  | assign (how : Assignment) (location : Location)
  | data (width : Width) (location : Location) (items : List Item)
  | instruction (i : Instruction) (location : Location) (arguments : List Argument)
deriving DecidableEq, Repr

/-- What is wrong with a line that cannot be read. -/
inductive SyntaxFault where
  | expected (what found : String)
  | unknownMnemonic (mnemonic : String)
  | invalidNumber (text : String)
deriving DecidableEq, Repr

def SyntaxFault.text : SyntaxFault → String
  | expected what found => expectedText what found
  | unknownMnemonic mnemonic => unknownMnemonicText mnemonic
  | invalidNumber text => "Invalid number: " ++ text

/-- A fault and the place of the token that shows it. -/
structure Failure where
  location : Location
  fault : SyntaxFault
deriving DecidableEq, Repr

def Failure.message (f : Failure) : Message :=
  ⟨.error, f.location, f.fault.text⟩

/-- What reading a line gives. -/
inductive LineReading where
  | accepted (label : Option Token) (statement : Statement) (comment : Option Token)
  | rejected (label : Option Token) (fragment : Fragment) (failure : Failure)
deriving DecidableEq, Repr

end MicroAsm
