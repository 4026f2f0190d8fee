import MicroAsm.Text.AsciiCase

/-!
# Instructions

Processors, registers and the shapes that instructions have. The shape of an instruction says
which operands it takes, how they are packed and how many bytes they make.
-/

namespace MicroAsm

inductive Cpu where
  | intel8080
  | intel8085
deriving DecidableEq, Repr, Inhabited

namespace Cpu

def name : Cpu → String
  | intel8080 => "Intel8080"
  | intel8085 => "Intel8085"

/-- The processor called so, in letters of any case. No letter outside ASCII has a letter of these
names as its small form. -/
def ofName? (s : String) : Option Cpu :=
  match Text.lowerAscii s with
  | "intel8080" => some intel8080
  | "i8080" => some intel8080
  | "8080" => some intel8080
  | "intel8085" => some intel8085
  | "i8085" => some intel8085
  | "8085" => some intel8085
  | _ => none

/-- The complaint about a name that no processor has. -/
def unknownText (s : String) : String := "Unknown CPU: " ++ s

end Cpu

/-- The place of a name in a list of names, in letters of any case. -/
def codeIn? (names : List String) (name : String) : Option UInt8 :=
  (names.findIdx? (Text.eqIgnoringCase · name)).map UInt8.ofNat

/-- The 8-bit registers in the order of their codes. `M` is the memory cell that `H` and `L`
point to. -/
def registerNames : List String := ["B", "C", "D", "E", "H", "L", "M", "A"]

/-- The code of the memory cell. -/
def memoryCode : UInt8 := 6

def registerCode? (name : String) : Option UInt8 :=
  codeIn? registerNames name

/-- The register pairs that an instruction can take. -/
inductive PairSet where
  /-- With the stack pointer. -/
  | sp
  /-- With the status word, for the stack. -/
  | psw
  /-- Only those that can point to memory. -/
  | bd
deriving DecidableEq, Repr, Inhabited

/-- The names of the pairs in the order of their codes. -/
def PairSet.names : PairSet → List String
  | sp => ["B", "D", "H", "SP"]
  | psw => ["B", "D", "H", "PSW"]
  | bd => ["B", "D"]

def PairSet.code? (pairs : PairSet) (name : String) : Option UInt8 :=
  codeIn? pairs.names name

/-- What an operand has to be. -/
inductive OperandKind where
  | register
  | pair
  | byte
  | word
  | address
  | restartCode
deriving DecidableEq, Repr, Inhabited

namespace OperandKind

/-- The name of an operand kind, as messages show it. -/
def name : OperandKind → String
  | register => "Register"
  | pair => "Register pair"
  | byte => "Value"
  | word => "Value"
  | address => "Address"
  | restartCode => "RST code"

end OperandKind

/-- The shapes of instructions. -/
inductive Family where
  | implied
  | registerRegister
  | registerByte
  | pairWord (pairs : PairSet)
  /-- The register code stands `shift` bits from the right. -/
  | register (shift : UInt8)
  | pair (pairs : PairSet)
  | address
  | byte
  /-- A restart code from zero to seven. -/
  | restart
deriving DecidableEq, Repr, Inhabited

namespace Family

/-- How many bytes an instruction of this shape makes. -/
def size : Family → Nat
  | implied | registerRegister | register _ | pair _ | restart => 1
  | registerByte | byte => 2
  | pairWord _ | address => 3

def text : Family → String
  | implied => "no operands"
  | registerRegister => "two registers"
  | registerByte => "register and 8-bit value"
  | pairWord _ => "register pair and 16-bit value"
  | register _ => "register"
  | pair _ => "register pair"
  | address => "address"
  | byte => "8-bit value"
  | restart => "restart code"

def operands : Family → List OperandKind
  | implied => []
  | registerRegister => [.register, .register]
  | registerByte => [.register, .byte]
  | pairWord _ => [.pair, .word]
  | register _ => [.register]
  | pair _ => [.pair]
  | address => [.address]
  | byte => [.byte]
  | restart => [.restartCode]

end Family

/-- An instruction with its base code, into which register codes are set. -/
structure Instruction where
  mnemonic : String
  opcode : UInt8
  family : Family
deriving DecidableEq, Repr, Inhabited

end MicroAsm
