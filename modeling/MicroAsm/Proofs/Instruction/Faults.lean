import MicroAsm.Proofs.Instruction.Decoding
import MicroAsm.Proofs.Statement.Reading

/-!
# What can be wrong with an instruction

The operands of a line have the kinds that the instruction asks for, and their values have been
made to fit. So encoding it fails for a register, a pair or a restart code that is not there, or
for a combination that stands for no instruction, and for nothing else. If it succeeds, the
instruction has the size of its shape.
-/

namespace MicroAsm

/-- The fault is one of operands that are of the right kind and in range. -/
def EncodingFault.blamesOperands : EncodingFault → Bool
  | invalidDestination _ | invalidSource _ | invalidRegister _ | invalidPair _ _
  | incorrectOpcode _ | invalidRestartCode _ => true
  | outOfRange _ _ | mismatch _ | unknownMnemonic _ => false

def EncodingError.BlamesOperands (e : EncodingError) : Prop :=
  e.fault.blamesOperands = true

namespace Operand

/-- The operand is of the given kind, and its value fits. A restart code need not. -/
def Fills (kind : OperandKind) (op : Operand) : Prop :=
  match kind with
  | .register | .pair => ∃ name, op = .register name
  | .byte | .word | .address => ∃ v, op = .value v ∧ fits kind.width.bits v = true
  | .restartCode => ∃ v, op = .value v

variable {family : Family} {position : Nat}

lemma yields_registerCode {fault : String → EncodingFault}
    (hfault : ∀ name, (fault name).blamesOperands = true) (name : String) :
    Yields (fun _ => True) EncodingError.BlamesOperands
      ((register name).registerCode family position fault) := by
  rw [registerCode]
  split
  · trivial
  · exact hfault _

lemma yields_pairCode (pairs : PairSet) (name : String) :
    Yields (fun _ => True) EncodingError.BlamesOperands
      ((register name).pairCode family position pairs) := by
  rw [pairCode]
  split
  · trivial
  · exact rfl

/-- A value that fits is never wrong. -/
lemma yields_word {bits : Nat} {v : Int} (hfits : fits bits v = true) :
    Yields (fun _ => True) EncodingError.BlamesOperands
      ((value v).word family position bits) := by
  rw [word, if_pos hfits]
  trivial

lemma yields_restartCode (v : Int) :
    Yields (fun _ => True) EncodingError.BlamesOperands
      ((value v).restartCode family position) := by
  rw [restartCode]
  split
  · trivial
  · exact rfl

end Operand

/-- With operands of the right kinds an instruction has the size of its shape, or the operands are
to blame. -/
lemma Instruction.yields_encode {i : Instruction} {operands : List Operand}
    (hfills : List.Forall₂ Operand.Fills i.family.operands operands) :
    Yields (fun bytes => bytes.length = i.family.size) EncodingError.BlamesOperands
      (i.encode operands) := by
  rw [encode.eq_def]
  cases hfamily : i.family with
  | implied =>
    rw [hfamily] at hfills
    cases hfills
    exact rfl
  | registerRegister =>
    rw [hfamily] at hfills
    obtain _ | ⟨⟨d, rfl⟩, _ | ⟨⟨s, rfl⟩, _ | _⟩⟩ := hfills
    refine (Operand.yields_registerCode (fun _ => rfl) d).bind fun dst _ => ?_
    refine (Operand.yields_registerCode (fun _ => rfl) s).bind fun src _ => ?_
    -- Both are registers, so they can only be wrong together.
    split
    · exact rfl
    · exact rfl
  | registerByte =>
    rw [hfamily] at hfills
    obtain _ | ⟨⟨r, rfl⟩, _ | ⟨⟨v, rfl, hfits⟩, _ | _⟩⟩ := hfills
    refine (Operand.yields_registerCode (fun _ => rfl) r).bind fun reg _ => ?_
    exact (Operand.yields_word hfits).bind fun w _ => rfl
  | pairWord pairs =>
    rw [hfamily] at hfills
    obtain _ | ⟨⟨p, rfl⟩, _ | ⟨⟨v, rfl, hfits⟩, _ | _⟩⟩ := hfills
    refine (Operand.yields_pairCode pairs p).bind fun pair _ => ?_
    exact (Operand.yields_word hfits).bind fun w _ => rfl
  | register shift =>
    rw [hfamily] at hfills
    obtain _ | ⟨⟨r, rfl⟩, _ | _⟩ := hfills
    exact (Operand.yields_registerCode (fun _ => rfl) r).bind fun reg _ => rfl
  | pair pairs =>
    rw [hfamily] at hfills
    obtain _ | ⟨⟨p, rfl⟩, _ | _⟩ := hfills
    exact (Operand.yields_pairCode pairs p).bind fun pair _ => rfl
  | address | byte =>
    rw [hfamily] at hfills
    obtain _ | ⟨⟨v, rfl, hfits⟩, _ | _⟩ := hfills
    exact (Operand.yields_word hfits).bind fun w _ => rfl
  | restart =>
    rw [hfamily] at hfills
    obtain _ | ⟨⟨v, rfl⟩, _ | _⟩ := hfills
    exact (Operand.yields_restartCode v).bind fun code _ => rfl

/-- A processor finds its instructions by their mnemonics. -/
lemma Cpu.encode_mnemonic {cpu : Cpu} {i : Instruction} (hi : i ∈ cpu.instructions)
    (operands : List Operand) : cpu.encode i.mnemonic operands = i.encode operands := by
  have hlookup := lookup_mnemonic hi
  rw [lookup] at hlookup
  split at hlookup
  · rename_i i' hfound
    cases hlookup
    rw [encode, hfound]
  · split at hlookup <;> cases hlookup

/-! ### Operands of a line -/

lemma fits_zero (bits : Nat) : fits bits (0 : UInt16).toNat = true := by
  refine fits_toNat ?_
  rw [Nat.one_shiftLeft]
  exact Nat.two_pow_pos bits

/-- A value is made to fit: zero stands for one that does not. -/
lemma fits_checkRange {bits : Nat} (hbits : bits ≤ 16) (v : Int) (location : Location) :
    fits bits (checkRange bits v location).1.toNat = true := by
  rw [checkRange]
  split
  · rename_i hfits
    rw [toNat_wordOfInt hbits hfits]
    exact hfits
  · exact fits_zero _

lemma Value.fits_settle (symbols : SymbolTable) (here : UInt16) (kind : OperandKind) (v : Value) :
    fits kind.width.bits (v.settle symbols here kind).word.toNat = true := by
  rw [Value.settle]
  split
  · exact fits_checkRange (Width.bits_le _) _ _
  · exact fits_zero _

/-- What an argument comes to is of its kind. -/
lemma Argument.HasKind.fills {kind : OperandKind} {argument : Argument}
    (h : argument.HasKind kind) (symbols : SymbolTable) (here : UInt16) :
    (argument.settle symbols here).operand.Fills kind := by
  cases kind with
  | register | pair =>
    obtain ⟨t, rfl⟩ := h
    exact ⟨t.value, rfl⟩
  | byte | word | address =>
    obtain ⟨v, rfl⟩ := h
    exact ⟨_, rfl, v.fits_settle symbols here _⟩
  | restartCode =>
    obtain ⟨v, rfl⟩ := h
    simp only [Argument.settle, settleRestart]
    split
    · exact ⟨_, rfl⟩
    · exact ⟨_, rfl⟩

/-- On a line an instruction has the size of its shape, or the operands are to blame. -/
lemma Instruction.yields_settle {i : Instruction} {arguments : List Argument}
    (hkinds : List.Forall₂ Argument.HasKind i.family.operands arguments) (symbols : SymbolTable)
    (here : UInt16) :
    Yields (fun bytes => bytes.length = i.family.size) EncodingError.BlamesOperands
      (i.encode ((arguments.map (Argument.settle symbols here)).map Settled.operand)) := by
  refine Instruction.yields_encode ?_
  rw [List.forall₂_map_right_iff, List.forall₂_map_right_iff]
  refine hkinds.imp ?_
  intro kind argument hkind
  exact hkind.fills symbols here

end MicroAsm
