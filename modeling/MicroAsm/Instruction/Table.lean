import MicroAsm.Instruction.Basic
import MicroAsm.Text.Capital

/-!
# Instruction sets

The instructions of each processor, and looking one up by its mnemonic in letters of any case.
-/

namespace MicroAsm

/-- The instructions that both processors have. -/
def commonInstructions : List Instruction :=
  [⟨"MOV", 0x40, .registerRegister⟩, ⟨"MVI", 0x06, .registerByte⟩, ⟨"LXI", 0x01, .pairWord .sp⟩,
   ⟨"INR", 0x04, .register 3⟩, ⟨"DCR", 0x05, .register 3⟩, ⟨"ADD", 0x80, .register 0⟩,
   ⟨"ADC", 0x88, .register 0⟩, ⟨"SUB", 0x90, .register 0⟩, ⟨"SBB", 0x98, .register 0⟩,
   ⟨"ANA", 0xA0, .register 0⟩, ⟨"XRA", 0xA8, .register 0⟩, ⟨"ORA", 0xB0, .register 0⟩,
   ⟨"CMP", 0xB8, .register 0⟩, ⟨"PUSH", 0xC5, .pair .psw⟩, ⟨"POP", 0xC1, .pair .psw⟩,
   ⟨"DAD", 0x09, .pair .sp⟩, ⟨"INX", 0x03, .pair .sp⟩, ⟨"DCX", 0x0B, .pair .sp⟩,
   ⟨"LDAX", 0x0A, .pair .bd⟩, ⟨"STAX", 0x02, .pair .bd⟩, ⟨"JMP", 0xC3, .address⟩,
   ⟨"JNZ", 0xC2, .address⟩, ⟨"JZ", 0xCA, .address⟩, ⟨"JNC", 0xD2, .address⟩,
   ⟨"JC", 0xDA, .address⟩, ⟨"JPO", 0xE2, .address⟩, ⟨"JPE", 0xEA, .address⟩,
   ⟨"JP", 0xF2, .address⟩, ⟨"JM", 0xFA, .address⟩, ⟨"CALL", 0xCD, .address⟩,
   ⟨"CNZ", 0xC4, .address⟩, ⟨"CZ", 0xCC, .address⟩, ⟨"CNC", 0xD4, .address⟩,
   ⟨"CC", 0xDC, .address⟩, ⟨"CPO", 0xE4, .address⟩, ⟨"CPE", 0xEC, .address⟩,
   ⟨"CP", 0xF4, .address⟩, ⟨"CM", 0xFC, .address⟩, ⟨"STA", 0x32, .address⟩,
   ⟨"LDA", 0x3A, .address⟩, ⟨"SHLD", 0x22, .address⟩, ⟨"LHLD", 0x2A, .address⟩,
   ⟨"ADI", 0xC6, .byte⟩, ⟨"ACI", 0xCE, .byte⟩, ⟨"SUI", 0xD6, .byte⟩, ⟨"SBI", 0xDE, .byte⟩,
   ⟨"ANI", 0xE6, .byte⟩, ⟨"XRI", 0xEE, .byte⟩, ⟨"ORI", 0xF6, .byte⟩, ⟨"CPI", 0xFE, .byte⟩,
   ⟨"IN", 0xDB, .byte⟩, ⟨"OUT", 0xD3, .byte⟩, ⟨"RST", 0xC7, .restart⟩, ⟨"NOP", 0x00, .implied⟩,
   ⟨"HLT", 0x76, .implied⟩, ⟨"RLC", 0x07, .implied⟩, ⟨"RRC", 0x0F, .implied⟩,
   ⟨"RAL", 0x17, .implied⟩, ⟨"RAR", 0x1F, .implied⟩, ⟨"DAA", 0x27, .implied⟩,
   ⟨"CMA", 0x2F, .implied⟩, ⟨"STC", 0x37, .implied⟩, ⟨"CMC", 0x3F, .implied⟩,
   ⟨"RET", 0xC9, .implied⟩, ⟨"RNZ", 0xC0, .implied⟩, ⟨"RZ", 0xC8, .implied⟩,
   ⟨"RNC", 0xD0, .implied⟩, ⟨"RC", 0xD8, .implied⟩, ⟨"RPO", 0xE0, .implied⟩,
   ⟨"RPE", 0xE8, .implied⟩, ⟨"RP", 0xF0, .implied⟩, ⟨"RM", 0xF8, .implied⟩,
   ⟨"PCHL", 0xE9, .implied⟩, ⟨"SPHL", 0xF9, .implied⟩, ⟨"XCHG", 0xEB, .implied⟩,
   ⟨"XTHL", 0xE3, .implied⟩, ⟨"DI", 0xF3, .implied⟩, ⟨"EI", 0xFB, .implied⟩]

/-- The instructions that only the 8085 has. -/
def extraInstructions : List Instruction :=
  [⟨"RIM", 0x20, .implied⟩, ⟨"SIM", 0x30, .implied⟩]

/-- The instruction with this mnemonic in capitals. -/
def Instruction.named? (instructions : List Instruction) (mnemonic : String) :
    Option Instruction :=
  instructions.find? (·.mnemonic == mnemonic)

/-- What is known of a mnemonic. -/
inductive Lookup where
  | supported (instruction : Instruction)
  /-- Only the given processor has it. -/
  | otherCpu (cpu : Cpu)
  | unknown
deriving DecidableEq, Repr

namespace Cpu

def instructions : Cpu → List Instruction
  | intel8080 => commonInstructions
  | intel8085 => commonInstructions ++ extraInstructions

/-- The instruction with this mnemonic in letters of any case. -/
def instruction? (cpu : Cpu) (mnemonic : String) : Option Instruction :=
  Instruction.named? cpu.instructions (Text.upper mnemonic)

/-- What a processor knows of a mnemonic. -/
def lookup (cpu : Cpu) (mnemonic : String) : Lookup :=
  match cpu.instruction? mnemonic with
  | some instruction => .supported instruction
  | none =>
    match intel8085.instruction? mnemonic with
    | some _ => .otherCpu .intel8085
    | none => .unknown

end Cpu

end MicroAsm
