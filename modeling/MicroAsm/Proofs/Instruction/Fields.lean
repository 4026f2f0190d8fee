import Mathlib.Algebra.Group.Nat.Defs
import MicroAsm.Assembly.Operand
import MicroAsm.Proofs.Instruction.Packing

/-!
# Where operands stand in bytes

The value of an operand can be read off the bytes of its line: a register or a restart code off
some bits of the code byte, any other value off a byte or a word. The nodes of a tree hold these
values, too, and a node agrees with the bytes if both say the same.
-/

namespace MicroAsm

/-- Where the value of an operand stands in the bytes of its line. -/
inductive Field where
  /-- Bits of the first byte, `shift` bits from the right. -/
  | bits (shift count : Nat)
  | byte (offset : Nat)
  /-- Two bytes, the low one first. -/
  | word (offset : Nat)
deriving DecidableEq, Repr

/-- The value in a field. -/
def Field.read (bytes : List UInt8) : Field → Option Nat
  | bits shift count => bytes[0]?.map fun b => b.toNat / 2 ^ shift % 2 ^ count
  | byte offset => bytes[offset]?.map UInt8.toNat
  | word offset =>
    bytes[offset]?.bind fun low => bytes[offset + 1]?.map fun high => low.toNat + 256 * high.toNat

/-- The field of a value that starts at an offset. -/
def Width.field : Width → (offset : Nat) → Field
  | byte, offset => .byte offset
  | word, offset => .word offset

/-- The fields of values one behind the other. -/
def Width.fields (width : Width) : (offset count : Nat) → List Field
  | _, 0 => []
  | offset, count + 1 => width.field offset :: width.fields (offset + width.size) count

/-- The fields of the operands of an instruction. -/
def Family.fields : Family → List Field
  | implied => []
  | registerRegister => [.bits 3 3, .bits 0 3]
  | registerByte => [.bits 3 3, .byte 1]
  | pairWord _ => [.bits 4 2, .word 1]
  | register shift => [.bits shift.toNat 3]
  | pair _ => [.bits 4 2]
  | address => [.word 1]
  | byte => [.byte 1]
  | restart => [.bits 3 3]

/-- The value that a node is there to hold, none inside if it is missing. -/
def NodeKind.held? : NodeKind → Option (Option Nat)
  | register8 code | register16 code | restartCode code => some (code.map UInt8.toNat)
  | locationCounter value | data16 value => some (some value.toNat)
  | data8 value => some (some value.toNat)
  | refAddress value | refData value => some (value.map UInt16.toNat)
  | _ => none

/-- The node can be used, and if it is there to hold a value, it holds the one in the field. -/
def NodeKind.Agrees (bytes : List UInt8) (kind : NodeKind) (field : Field) : Prop :=
  kind.isInvalid = false ∧ ∀ value ∈ kind.held?, ∃ n, value = some n ∧ field.read bytes = some n

lemma Width.fields_add (width : Width) (offset m n : Nat) :
    width.fields offset (m + n) =
      width.fields offset m ++ width.fields (offset + m * width.size) n := by
  induction m generalizing offset with
  | zero => simp [fields]
  | succ m ih =>
    rw [Nat.succ_add, fields, fields, ih, List.cons_append, Nat.succ_mul, Nat.add_assoc,
      Nat.add_comm width.size]

/-- A word that fits is read back from its bytes, wherever they stand. -/
lemma Width.read_field {width : Width} {v : UInt16} (h : v.toNat < 1 <<< width.bits)
    (front rest : List UInt8) :
    (width.field front.length).read (front ++ width.bytesOf v ++ rest) = some v.toNat := by
  cases width with
  | byte =>
    have hbyte : v.toNat % 256 = v.toNat := Nat.mod_eq_of_lt h
    simp [field, Field.read, bytesOf, hbyte]
  | word =>
    have hword := congrArg UInt16.toNat (wordOf_bytes v)
    rw [toNat_wordOf] at hword
    simp only [field, Field.read, bytesOf, wordBytes, List.append_assoc, List.cons_append,
      List.nil_append]
    rw [List.getElem?_append_right (Nat.le_refl _),
      List.getElem?_append_right (Nat.le_add_right _ 1), Nat.sub_self, Nat.add_sub_cancel_left]
    exact congrArg some hword

/-! ### Codes in code bytes -/

variable {cpu : Cpu} {i : Instruction}

/-- The code of one operand is read back from the code byte. -/
lemma Instruction.read_codeByte (hi : i ∈ cpu.instructions) {shift : UInt8} {count k : Nat}
    (hfield : i.family.field? = some (shift, count)) (hk : k < count) (rest : List UInt8)
    {field : Field} (hhead : i.family.fields.head? = some field) :
    field.read (Reference.codeByte i ((1 <<< shift.toNat) * k) :: rest) = some k := by
  have htable : ∀ i ∈ Cpu.intel8085.instructions, ∀ place ∈ i.family.field?, ∀ k < place.2,
      ∀ field ∈ i.family.fields.head?,
        field.read [Reference.codeByte i ((1 <<< place.1.toNat) * k)] = some k := by
    decide +kernel
  have hread := htable i (cpu.instructions_subset hi) _ hfield k hk _ hhead
  -- Only the first byte counts, as there is no other to read a value from.
  cases field with
  | bits shift' bits => exact hread
  | byte offset =>
    cases offset with
    | zero => exact hread
    | succ offset => cases hread
  | word offset =>
    cases offset with
    | zero => cases hread
    | succ offset => cases hread

/-- The code of a name is read back from the code byte. -/
lemma Instruction.read_code (hi : i ∈ cpu.instructions) {shift code : UInt8}
    {names : List String} {name : String}
    (hfield : i.family.field? = some (shift, names.length)) (hlength : names.length ≤ 8)
    (hcode : codeIn? names name = some code) (rest : List UInt8) {field : Field}
    (hhead : i.family.fields.head? = some field) :
    field.read (Reference.codeByte i ((1 <<< shift.toNat) * code.toNat) :: rest) =
      some code.toNat := by
  obtain ⟨k, hk, rfl⟩ := codeIn?_eq_some hcode
  have hsize : 8 < UInt8.size := by decide
  rw [UInt8.toNat_ofNat_of_lt' (by omega)]
  exact Instruction.read_codeByte hi hfield hk rest hhead

/-- The codes of two registers are read back from the code byte. -/
lemma Instruction.read_registers (hi : i ∈ cpu.instructions)
    (hfamily : i.family = .registerRegister) {d s : String} {dst src : UInt8}
    (hdst : registerCode? d = some dst) (hsrc : registerCode? s = some src) :
    (Field.bits 3 3).read [Reference.codeByte i (8 * dst.toNat + src.toNat)] = some dst.toNat ∧
      (Field.bits 0 3).read [Reference.codeByte i (8 * dst.toNat + src.toNat)] =
        some src.toNat := by
  have htable : ∀ i ∈ Cpu.intel8085.instructions, i.family = .registerRegister →
      ∀ k < 8, ∀ k' < 8,
        (Field.bits 3 3).read [Reference.codeByte i (8 * k + k')] = some k ∧
          (Field.bits 0 3).read [Reference.codeByte i (8 * k + k')] = some k' := by
    decide +kernel
  obtain ⟨k, hk, rfl⟩ := codeIn?_eq_some hdst
  obtain ⟨k', hk', rfl⟩ := codeIn?_eq_some hsrc
  have hlength : registerNames.length = 8 := rfl
  have hsize : 8 < UInt8.size := by decide
  rw [hlength] at hk hk'
  rw [UInt8.toNat_ofNat_of_lt' (by omega), UInt8.toNat_ofNat_of_lt' (by omega)]
  exact htable i (cpu.instructions_subset hi) hfamily k hk k' hk'

/-- The node of a pair has the code that the instruction is encoded with. -/
lemma pairCode?_of_code? {pairs : PairSet} {name : String} {code : UInt8}
    (h : pairs.code? name = some code) : pairCode? name = some code := by
  have hsame : pairs.code? name = none ∨ pairCode? name = pairs.code? name := by
    -- The sets differ in their last name only, so it does not matter where a name is found first.
    cases pairs with
    | sp | psw | bd =>
      simp only [PairSet.code?, pairCode?, codeIn?, PairSet.names, List.cons_append,
        List.nil_append, List.findIdx?_cons, List.findIdx?_nil]
      generalize Text.eqIgnoringCase "B" name = isB
      generalize Text.eqIgnoringCase "D" name = isD
      generalize Text.eqIgnoringCase "H" name = isH
      generalize Text.eqIgnoringCase "SP" name = isSp
      generalize Text.eqIgnoringCase "PSW" name = isPsw
      revert isB isD isH isSp isPsw
      decide
  rcases hsame with hnone | hsame
  · rw [hnone] at h
    cases h
  · exact hsame.trans h

end MicroAsm
