import MicroAsm.Instruction.Encoding
import MicroAsm.Text.Hex

/-!
# Decoding

What the code bytes of a processor stand for, and the text of the instruction in front of a
sequence of bytes.
-/

namespace MicroAsm

/-- What a code byte stands for. -/
structure Form where
  mnemonic : String
  /-- The operands that the code byte holds. -/
  registers : String
  family : Family
deriving DecidableEq, Repr, Inhabited

/-- The names with their codes. -/
def coded (names : List String) : List (UInt8 × String) :=
  names.zipIdx.map fun (name, code) => (UInt8.ofNat code, name)

/-- The code bytes of an instruction with the operands they hold. -/
def Instruction.codes (i : Instruction) : List (UInt8 × String) :=
  match i.family with
  | .implied | .address | .byte => [(i.opcode, "")]
  | .registerRegister =>
    (coded registerNames).flatMap fun (dst, d) =>
      (coded registerNames).filterMap fun (src, s) =>
        if dst = memoryCode ∧ src = memoryCode then none
        else some (i.opcode ||| (dst <<< 3) ||| src, d ++ "," ++ s)
  | .registerByte => (coded registerNames).map fun (code, r) => (i.opcode ||| (code <<< 3), r)
  | .register shift =>
    (coded registerNames).map fun (code, r) => (i.opcode ||| (code <<< shift), r)
  | .pair pairs | .pairWord pairs =>
    (coded pairs.names).map fun (code, p) => (i.opcode ||| (code <<< 4), p)
  | .restart =>
    (coded ["0", "1", "2", "3", "4", "5", "6", "7"]).map fun (code, n) =>
      (i.opcode ||| (code <<< 3), n)

/-- The code bytes of an instruction with what they stand for. -/
def Instruction.forms (i : Instruction) : List (UInt8 × Form) :=
  i.codes.map fun (code, registers) => (code, ⟨i.mnemonic, registers, i.family⟩)

/-- An instruction read from bytes. -/
structure Decoded where
  mnemonic : String
  /-- The instruction as a source would have it. -/
  text : String
  /-- How many bytes it takes. -/
  size : Nat
deriving DecidableEq, Repr

/-- The operands of a form in a source, with the value that follows the code byte. -/
def Form.text (form : Form) (value : Option String) : String :=
  match (form.registers :: value.toList).filter (! ·.isEmpty) with
  | [] => form.mnemonic
  | operands => form.mnemonic ++ " " ++ ",".intercalate operands

/-- The value after the code byte of an instruction of the given size, if all its bytes are
there. -/
def immediate? (size : Nat) (bytes : List UInt8) : Option (Option String) :=
  match size, bytes with
  | 2, b :: _ => some (some (Text.hexLiteral 2 b.toUInt16))
  | 2, _ => none
  | 3, low :: high :: _ => some (some (Text.hexLiteral 4 (wordOf low high)))
  | 3, _ => none
  | _, _ => some none

namespace Cpu

/-- What the code bytes of a processor stand for. -/
def forms : Cpu → List (UInt8 × Form)
  | intel8080 => commonInstructions.flatMap Instruction.forms
  | intel8085 => commonInstructions.flatMap Instruction.forms ++
      extraInstructions.flatMap Instruction.forms

def form? (cpu : Cpu) (code : UInt8) : Option Form :=
  cpu.forms.lookup code

/-- The instruction in front of some bytes, if its code is known and all its bytes are there. -/
def decode (cpu : Cpu) (bytes : List UInt8) : Option Decoded :=
  match bytes with
  | [] => none
  | code :: rest =>
    match cpu.form? code with
    | none => none
    | some form =>
      match immediate? form.family.size rest with
      | none => none
      | some value => some ⟨form.mnemonic, form.text value, form.family.size⟩

end Cpu

end MicroAsm
