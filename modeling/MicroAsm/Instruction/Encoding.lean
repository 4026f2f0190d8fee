import MicroAsm.Instruction.Table
import MicroAsm.Word

/-!
# Encoding

The bytes of an instruction with given operands, or what is wrong with them.
-/

namespace MicroAsm

/-- An operand handed to the encoder. -/
inductive Operand where
  | register (name : String)
  | value (v : Int)
deriving DecidableEq, Repr

/-- What can be wrong with an instruction. Names are in capitals. -/
inductive EncodingFault where
  | invalidDestination (name : String)
  | invalidSource (name : String)
  | invalidRegister (name : String)
  | invalidPair (name : String) (expected : PairSet)
  /-- The operands are fine, but stand for no instruction together. -/
  | incorrectOpcode (text : String)
  | invalidRestartCode (n : Int)
  | outOfRange (bits : Nat) (v : Int)
  /-- The operands do not have the shape of the instruction. -/
  | mismatch (family : Family)
  | unknownMnemonic (mnemonic : String)
deriving DecidableEq, Repr

/-- The complaint about a word that is no mnemonic. -/
def unknownMnemonicText (mnemonic : String) : String :=
  "Unknown mnemonic: " ++ mnemonic

/-- A fault, with the place of the operand to blame if there is one. -/
structure EncodingError where
  fault : EncodingFault
  operand : Option Nat
deriving DecidableEq, Repr

def EncodingFault.text : EncodingFault → String
  | invalidDestination name => "Invalid destination register: " ++ name
  | invalidSource name => "Invalid source register: " ++ name
  | invalidRegister name => "Invalid register: " ++ name
  | invalidPair name expected =>
    "Invalid register pair: " ++ name ++ ", expected one of " ++ ", ".intercalate expected.names
  | incorrectOpcode text => "Incorrect opcode: " ++ text
  | invalidRestartCode n => "Invalid RST code: " ++ toString n
  | outOfRange bits v => outOfRangeText bits v
  | mismatch family => "Expected " ++ family.text
  | unknownMnemonic mnemonic => unknownMnemonicText mnemonic

namespace Operand

def registerCode (op : Operand) (family : Family) (position : Nat)
    (fault : String → EncodingFault) : Except EncodingError UInt8 :=
  match op with
  | register name =>
    match registerCode? name with
    | some code => .ok code
    | none => .error ⟨fault (Text.upper name), some position⟩
  | value _ => .error ⟨.mismatch family, some position⟩

def pairCode (op : Operand) (family : Family) (position : Nat) (pairs : PairSet) :
    Except EncodingError UInt8 :=
  match op with
  | register name =>
    match pairs.code? name with
    | some code => .ok code
    | none => .error ⟨.invalidPair (Text.upper name) pairs, some position⟩
  | value _ => .error ⟨.mismatch family, some position⟩

/-- The word of a value operand that has to fit in the given number of bits. -/
def word (op : Operand) (family : Family) (position bits : Nat) : Except EncodingError UInt16 :=
  match op with
  | value v => if fits bits v then .ok (wordOfInt v) else .error ⟨.outOfRange bits v, some position⟩
  | register _ => .error ⟨.mismatch family, some position⟩

def restartCode (op : Operand) (family : Family) (position : Nat) : Except EncodingError UInt8 :=
  match op with
  | value v =>
    if fits 3 v then .ok (wordOfInt v).toUInt8
    else .error ⟨.invalidRestartCode v, some position⟩
  | register _ => .error ⟨.mismatch family, some position⟩

end Operand

def Instruction.encode (i : Instruction) (operands : List Operand) :
    Except EncodingError (List UInt8) :=
  match i.family, operands with
  | .implied, [] => .ok [i.opcode]
  | .registerRegister, [d, s] => do
    let dst ← d.registerCode i.family 0 .invalidDestination
    let src ← s.registerCode i.family 1 .invalidSource
    -- The code of memory to memory belongs to another instruction.
    if dst = memoryCode ∧ src = memoryCode then
      .error ⟨.incorrectOpcode (i.mnemonic ++ " M,M"), none⟩
    else
      .ok [i.opcode ||| (dst <<< 3) ||| src]
  | .registerByte, [r, b] => do
    let reg ← r.registerCode i.family 0 .invalidRegister
    let v ← b.word i.family 1 8
    .ok [i.opcode ||| (reg <<< 3), v.toUInt8]
  | .pairWord pairs, [p, w] => do
    let pair ← p.pairCode i.family 0 pairs
    let v ← w.word i.family 1 16
    .ok ((i.opcode ||| (pair <<< 4)) :: wordBytes v)
  | .register shift, [r] => do
    let reg ← r.registerCode i.family 0 .invalidRegister
    .ok [i.opcode ||| (reg <<< shift)]
  | .pair pairs, [p] => do
    let pair ← p.pairCode i.family 0 pairs
    .ok [i.opcode ||| (pair <<< 4)]
  | .address, [a] => do
    let v ← a.word i.family 0 16
    .ok (i.opcode :: wordBytes v)
  | .byte, [b] => do
    let v ← b.word i.family 0 8
    .ok [i.opcode, v.toUInt8]
  | .restart, [n] => do
    let code ← n.restartCode i.family 0
    .ok [i.opcode ||| (code <<< 3)]
  | family, _ => .error ⟨.mismatch family, none⟩

/-- The bytes of the instruction that a processor knows by this mnemonic. -/
def Cpu.encode (cpu : Cpu) (mnemonic : String) (operands : List Operand) :
    Except EncodingError (List UInt8) :=
  match cpu.instruction? mnemonic with
  | some instruction => instruction.encode operands
  | none => .error ⟨.unknownMnemonic mnemonic, none⟩

end MicroAsm
