import MicroAsm.Proofs.Symbol
import MicroAsm.Proofs.Word
import MicroAsm.Assembly.Program

/-!
# The reference encoder

What a line stands for when all symbols have their values: the encoder looks at a line once, with a
finished symbol table, and knows nothing of values that wait. A code byte is a sum of the opcode
and the codes of its operands at their places; a value is written in base 256, the low digit first.
-/

namespace MicroAsm

namespace Reference

variable (symbols : SymbolTable) (here : UInt16)

/-- A number in base 256 with as many digits as the width has bytes, the low one first. -/
def digits : Width → Int → Option (List UInt8)
  | .byte, n => if 0 ≤ n ∧ n < 256 then some [UInt8.ofNat n.toNat] else none
  | .word, n =>
    if 0 ≤ n ∧ n < 256 * 256 then
      some [UInt8.ofNat (n.toNat % 256), UInt8.ofNat (n.toNat / 256)]
    else none

/-- The number that an expression stands for. -/
def number (v : Value) : Option Int :=
  (v.expr.eval symbols here).toOption

/-- The bytes of a value. -/
def value (width : Width) (v : Value) : Option (List UInt8) :=
  (number symbols here v).bind (digits width)

/-- The byte of a character. -/
def character (c : Char) : Option UInt8 :=
  if c.toNat < 256 then some (UInt8.ofNat c.toNat) else none

/-- The bytes of an item of data: one for each character of a string, or those of a value. -/
def item (width : Width) : Item → Option (List UInt8)
  | .string t => (stringBody t).mapM character
  | .value v => value symbols here width v

/-- The bytes of a list of data. -/
def data (width : Width) (items : List Item) : Option (List UInt8) :=
  (items.mapM (item symbols here width)).map List.flatten

/-- The code byte of an instruction whose operands have these codes at their places. -/
def codeByte (i : Instruction) (codes : Nat) : UInt8 :=
  UInt8.ofNat (i.opcode.toNat + codes)

/-- The bytes of an instruction. -/
def instruction (i : Instruction) (arguments : List Argument) : Option (List UInt8) :=
  match i.family, arguments with
  | .implied, [] => some [i.opcode]
  | .registerRegister, [.register _ d, .register _ s] => do
    let dst ← registerCode? d.value
    let src ← registerCode? s.value
    if dst = memoryCode ∧ src = memoryCode then none
    else some [codeByte i (8 * dst.toNat + src.toNat)]
  | .registerByte, [.register _ r, .value _ v] => do
    let code ← registerCode? r.value
    let bytes ← value symbols here .byte v
    some (codeByte i (8 * code.toNat) :: bytes)
  | .pairWord pairs, [.register _ p, .value _ v] => do
    let code ← pairs.code? p.value
    let bytes ← value symbols here .word v
    some (codeByte i (16 * code.toNat) :: bytes)
  | .register shift, [.register _ r] => do
    let code ← registerCode? r.value
    some [codeByte i ((1 <<< shift.toNat) * code.toNat)]
  | .pair pairs, [.register _ p] => do
    let code ← pairs.code? p.value
    some [codeByte i (16 * code.toNat)]
  | .address, [.value _ v] => do
    let bytes ← value symbols here .word v
    some (i.opcode :: bytes)
  | .byte, [.value _ v] => do
    let bytes ← value symbols here .byte v
    some (i.opcode :: bytes)
  | .restart, [.value _ v] => do
    let n ← number symbols here v
    if 0 ≤ n ∧ n ≤ 7 then some [codeByte i (8 * n.toNat)] else none
  | _, _ => none

/-- The bytes of a statement. Only data and instructions have any. -/
def statement : Statement → Option (List UInt8)
  | .data width _ items => data symbols here width items
  | .instruction i _ arguments => instruction symbols here i arguments
  | _ => some []

/-- The bytes of a line at the address `here`, read with the instructions of a processor. -/
def line (cpu : Cpu) (l : SourceLine) : Option (List UInt8) :=
  match l.read cpu with
  | .accepted _ s _ => statement symbols here s
  | .rejected _ _ _ => none

/-- The processor in force after a line: the one it selects, if it is accepted and selects any. -/
def cpuAfterLine (cpu : Cpu) (l : SourceLine) : Cpu :=
  match l.read cpu with
  | .accepted _ (.cpu _ name) _ => (Cpu.ofName? name.value).getD cpu
  | _ => cpu

/-- The processor in force after some lines. -/
def cpuAfter (cpu : Cpu) (lines : List SourceLine) : Cpu :=
  lines.foldl cpuAfterLine cpu

end Reference

end MicroAsm
