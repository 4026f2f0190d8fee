import Mathlib.Algebra.GroupWithZero.Nat
import MicroAsm.Proofs.Assembly.Placing
import MicroAsm.Proofs.Instruction.Faults

/-!
# The room of a line

How many bytes a line takes can be read off its tokens and the processor in force. An instruction
takes the size of its shape whatever its operands come to: valid or not, out of range or not known
yet. Only a move from memory to memory takes none, since it is no instruction at all. A string
takes one byte for each character, and every other item of data the size of a value.
-/

namespace MicroAsm

/-! ### The room of a statement -/

/-- How many bytes an item of data takes. -/
def Item.room (width : Width) : Item → Nat
  | string t => (stringBody t).length
  | value _ => width.size

/-- The argument names the memory cell. -/
def Argument.isMemory : Argument → Bool
  | register _ t => Text.eqIgnoringCase "M" t.value
  | value _ _ => false

/-- A move from memory to memory, which is the only instruction that is none. -/
def Instruction.movesMemory (i : Instruction) (arguments : List Argument) : Bool :=
  i.mnemonic == "MOV" && arguments.all Argument.isMemory

/-- How many bytes a statement takes, whatever its values are. -/
def Statement.room : Statement → Nat
  | .data width _ items => (items.map (Item.room width)).sum
  | .instruction i _ arguments => if i.movesMemory arguments then 0 else i.family.size
  | _ => 0

/-- How many bytes a line takes with the instructions of a processor. -/
def SourceLine.room (cpu : Cpu) (line : SourceLine) : Nat :=
  match line.read cpu with
  | .accepted _ statement _ => statement.room
  | .rejected _ _ _ => 0

/-- How many bytes of an emission go into the code. -/
def Emission.room (e : Emission) : Nat :=
  if e.emits then e.bytes.length else 0

lemma length_stringEmission (t : Token) (text : String) (cs : List Char) :
    (stringEmission t text cs).bytes.length = cs.length := by
  induction cs generalizing text with
  | nil => rfl
  | cons c cs ih => simp [stringEmission, ih]

lemma Item.length_emission (symbols : SymbolTable) (here : UInt16) (width : Width) (offset : Nat)
    (item : Item) : (item.emission symbols here width offset).bytes.length = item.room width := by
  cases item with
  | string t => exact length_stringEmission _ _ _
  | value v => exact Width.length_bytesOf _ _

lemma Item.room_emissions (symbols : SymbolTable) (here : UInt16) (width : Width) (offset : Nat)
    (items : List Item) :
    (Item.emissions symbols here width offset items).room = (items.map (Item.room width)).sum := by
  rw [Emission.room, if_pos (Assembly.emits_emissions _ _ _ _ _)]
  induction items generalizing offset with
  | nil => rfl
  | cons item items ih => simp [emissions, item.length_emission, ih]

/-- The memory cell is the register of its code. -/
lemma registerCode?_eq_memoryCode_iff {name : String} :
    registerCode? name = some memoryCode ↔ Text.eqIgnoringCase "M" name = true := by
  constructor
  · intro h
    obtain ⟨k, hk, hcode⟩ := Option.map_eq_some_iff.mp h
    obtain ⟨hlt, hname, -⟩ := List.findIdx?_eq_some_iff_getElem.mp hk
    have hsix : ∀ k < 8, UInt8.ofNat k = memoryCode → k = 6 := by decide
    obtain rfl := hsix k hlt hcode
    exact hname
  · intro h
    have hname : name.toList.map Char.toLower = ['m'] := by
      rw [Text.eqIgnoringCase, beq_iff_eq] at h
      rw [← h]
      rfl
    simp only [registerCode?, codeIn?, Text.eqIgnoringCase, hname]
    decide

lemma Argument.isMemory_iff {kind : OperandKind} {t : Token} :
    (Argument.register kind t).isMemory = true ↔ registerCode? t.value = some memoryCode :=
  registerCode?_eq_memoryCode_iff.symm

lemma Instruction.mnemonic_eq_iff {cpu : Cpu} {i : Instruction} (hi : i ∈ cpu.instructions) :
    i.mnemonic = "MOV" ↔ i.family = .registerRegister := by
  have htable : ∀ i ∈ Cpu.intel8085.instructions,
      i.mnemonic = "MOV" ↔ i.family = .registerRegister := by
    decide +kernel
  exact htable i (cpu.instructions_subset hi)

/-! ### The room of an instruction -/

/-- The error is not that the operands stand for no instruction together. -/
def EncodingError.KeepsRoom (e : EncodingError) : Prop :=
  e.fault.isIncorrectOpcode = false

namespace Operand

variable {family : Family} {position : Nat} (op : Operand)

lemma keepsRoom_registerCode {fault : String → EncodingFault}
    (hfault : ∀ name, (fault name).isIncorrectOpcode = false) :
    Yields (fun code => ∃ name, op = .register name ∧ registerCode? name = some code)
      EncodingError.KeepsRoom (op.registerCode family position fault) := by
  cases op with
  | register name =>
    rw [registerCode]
    split
    · rename_i code hcode
      exact ⟨name, rfl, hcode⟩
    · exact hfault _
  | value v => exact rfl

lemma keepsRoom_pairCode (pairs : PairSet) :
    Yields (fun _ => True) EncodingError.KeepsRoom (op.pairCode family position pairs) := by
  cases op with
  | register name =>
    rw [pairCode]
    split
    · trivial
    · exact rfl
  | value v => exact rfl

lemma keepsRoom_word (bits : Nat) :
    Yields (fun _ => True) EncodingError.KeepsRoom (op.word family position bits) := by
  cases op with
  | register name => exact rfl
  | value v =>
    rw [word]
    split
    · trivial
    · exact rfl

lemma keepsRoom_restartCode :
    Yields (fun _ => True) EncodingError.KeepsRoom (op.restartCode family position) := by
  cases op with
  | register name => exact rfl
  | value v =>
    rw [restartCode]
    split
    · trivial
    · exact rfl

end Operand

/-- Two operands that name the memory cell stand for no instruction together. -/
def MemoryOperands (operands : List Operand) : Prop :=
  ∃ d s, operands = [.register d, .register s] ∧ registerCode? d = some memoryCode ∧
    registerCode? s = some memoryCode

/-- Only a move from memory to memory stands for no instruction. -/
lemma Instruction.keepsRoom_encode {i : Instruction} {operands : List Operand}
    (h : ¬(i.family = .registerRegister ∧ MemoryOperands operands)) :
    Yields (fun _ => True) EncodingError.KeepsRoom (i.encode operands) := by
  have hregister := fun (op : Operand) (position : Nat) => @Operand.keepsRoom_registerCode
    i.family position op .invalidRegister (fun _ => rfl)
  rw [encode.eq_def]
  split
  · trivial
  · rename_i d s hfamily
    refine (Operand.keepsRoom_registerCode d (fun _ => rfl)).bind ?_
    rintro dst ⟨dname, rfl, hdst⟩
    refine (Operand.keepsRoom_registerCode s (fun _ => rfl)).bind ?_
    rintro src ⟨sname, rfl, hsrc⟩
    by_cases hmemory : dst = memoryCode ∧ src = memoryCode
    · obtain ⟨rfl, rfl⟩ := hmemory
      exact absurd ⟨hfamily, dname, sname, rfl, hdst, hsrc⟩ h
    · rw [if_neg hmemory]
      trivial
  · exact (hregister _ 0).bind fun _ _ => (Operand.keepsRoom_word _ 8).bind fun _ _ => trivial
  · exact (Operand.keepsRoom_pairCode _ _).bind fun _ _ =>
      (Operand.keepsRoom_word _ 16).bind fun _ _ => trivial
  · exact (hregister _ 0).bind fun _ _ => trivial
  · exact (Operand.keepsRoom_pairCode _ _).bind fun _ _ => trivial
  · exact (Operand.keepsRoom_word _ 16).bind fun _ _ => trivial
  · exact (Operand.keepsRoom_word _ 8).bind fun _ _ => trivial
  · exact (Operand.keepsRoom_restartCode _).bind fun _ _ => trivial
  · exact rfl

lemma Instruction.encode_memoryOperands {i : Instruction} {operands : List Operand}
    (hfamily : i.family = .registerRegister) (h : MemoryOperands operands) :
    i.encode operands = .error ⟨.incorrectOpcode (i.mnemonic ++ " M,M"), none⟩ := by
  obtain ⟨d, s, rfl, hdst, hsrc⟩ := h
  rw [encode.eq_def, hfamily]
  simp only [Operand.registerCode, hdst, hsrc]
  rfl

/-- A move from memory to memory has two operands that name the memory cell. -/
lemma Instruction.movesMemory_iff {cpu : Cpu} {i : Instruction} {arguments : List Argument}
    (hi : i ∈ cpu.instructions)
    (hkinds : List.Forall₂ Argument.HasKind i.family.operands arguments) (symbols : SymbolTable)
    (here : UInt16) :
    i.movesMemory arguments = true ↔ i.family = .registerRegister ∧
      MemoryOperands ((arguments.map (Argument.settle symbols here)).map Settled.operand) := by
  rw [movesMemory, Bool.and_eq_true, beq_iff_eq, mnemonic_eq_iff hi]
  refine and_congr_right fun hfamily => ?_
  rw [hfamily] at hkinds
  obtain _ | ⟨⟨d, rfl⟩, _ | ⟨⟨s, rfl⟩, _ | _⟩⟩ := hkinds
  have hoperands : (([.register .register d, .register .register s] : List Argument).map
      (Argument.settle symbols here)).map Settled.operand =
        [.register d.value, .register s.value] := rfl
  rw [hoperands, List.all_eq_true, List.forall_mem_cons, List.forall_mem_singleton,
    Argument.isMemory_iff, Argument.isMemory_iff]
  constructor
  · rintro ⟨hd, hs⟩
    exact ⟨d.value, s.value, rfl, hd, hs⟩
  · rintro ⟨dname, sname, heq, hd, hs⟩
    cases heq
    exact ⟨hd, hs⟩

/-- The registers of a move can always be handed to the encoder. -/
lemma Argument.usable_of_registers {arguments : List Argument}
    (hkinds : List.Forall₂ Argument.HasKind [.register, .register] arguments)
    (symbols : SymbolTable) (here : UInt16) :
    (arguments.map (Argument.settle symbols here)).all Settled.usable = true := by
  obtain _ | ⟨⟨d, rfl⟩, _ | ⟨⟨s, rfl⟩, _ | _⟩⟩ := hkinds
  rfl

/-- An instruction takes the room of its shape, whatever its operands come to. -/
lemma Instruction.room_emission {cpu : Cpu} {i : Instruction} {arguments : List Argument}
    (hi : i ∈ cpu.instructions)
    (hkinds : List.Forall₂ Argument.HasKind i.family.operands arguments) (location : Location)
    (symbols : SymbolTable) (here : UInt16) :
    (i.emission location (arguments.map (Argument.settle symbols here))).room =
      (Statement.instruction i location arguments).room := by
  have hiff := movesMemory_iff hi hkinds symbols here
  rw [Statement.room, emission]
  by_cases hmoves : i.movesMemory arguments = true
  · obtain ⟨hfamily, hmemory⟩ := hiff.mp hmoves
    rw [hfamily] at hkinds
    rw [if_pos hmoves, if_pos (Argument.usable_of_registers hkinds symbols here),
      encode_memoryOperands hfamily hmemory]
    rfl
  · have hkeeps := keepsRoom_encode (mt hiff.mpr hmoves)
    rw [if_neg hmoves]
    split
    · split
      · rename_i bytes hencode
        exact (yields_settle hkinds symbols here).of_ok hencode
      · rename_i e hencode
        have hfault : e.fault.isIncorrectOpcode = false := hkeeps.of_error hencode
        simp [Emission.room, hfault]
    · exact List.length_replicate

end MicroAsm
