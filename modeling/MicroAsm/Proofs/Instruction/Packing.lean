import MicroAsm.Proofs.Assembly.Reference
import MicroAsm.Proofs.Outcome

/-!
# Operands in code bytes

For each shape of an instruction, when its operands can be encoded, and what bytes they give.

The bits of an opcode in which the code of an operand stands are zero in every instruction of the
table. So setting the code into them is the same as adding it at its place.
-/

namespace MicroAsm

/-! ### Operands that can be encoded -/

namespace Operand

variable {family : Family} {position : Nat} {name : String} {code : UInt8}

lemma registerCode_eq_ok_iff {fault : String → EncodingFault} :
    (register name).registerCode family position fault = .ok code ↔
      registerCode? name = some code := by
  rw [registerCode]
  cases registerCode? name <;> simp

lemma pairCode_eq_ok_iff {pairs : PairSet} :
    (register name).pairCode family position pairs = .ok code ↔ pairs.code? name = some code := by
  rw [pairCode]
  cases pairs.code? name <;> simp

/-- A word that is encoded stays as it is. -/
lemma word_eq_ok_iff {v w : UInt16} {bits : Nat} :
    (value v.toNat).word family position bits = .ok w ↔ fits bits v.toNat = true ∧ w = v := by
  rw [word]
  split
  · simp [*, wordOfInt_toNat, eq_comm]
  · simp [*]

lemma restartCode_eq_ok_iff {n : Int} :
    (value n).restartCode family position = .ok code ↔
      fits 3 n = true ∧ code = UInt8.ofNat n.toNat := by
  rw [restartCode]
  split
  · simp [*, wordOfInt, UInt16.toUInt8_ofNat', eq_comm]
  · simp [*]

end Operand

namespace Instruction

variable {i : Instruction} {bytes : List UInt8} {pairs : PairSet} {name : String} {n : UInt16}

lemma encode_implied_iff (h : i.family = .implied) :
    i.encode [] = .ok bytes ↔ bytes = [i.opcode] := by
  rw [encode.eq_def, h]
  simp only [Except.ok.injEq, @eq_comm _ bytes]

lemma encode_registerRegister_iff (h : i.family = .registerRegister) {d s : String} :
    i.encode [.register d, .register s] = .ok bytes ↔
      ∃ dst src, registerCode? d = some dst ∧ registerCode? s = some src ∧
        ¬(dst = memoryCode ∧ src = memoryCode) ∧
        bytes = [i.opcode ||| (dst <<< 3) ||| src] := by
  rw [encode.eq_def, h]
  simp only [bind_eq_ok_iff, Operand.registerCode_eq_ok_iff]
  constructor
  · rintro ⟨dst, hdst, src, hsrc, hbytes⟩
    by_cases hmemory : dst = memoryCode ∧ src = memoryCode
    · rw [if_pos hmemory] at hbytes
      cases hbytes
    · rw [if_neg hmemory] at hbytes
      cases hbytes
      exact ⟨dst, src, hdst, hsrc, hmemory, rfl⟩
  · rintro ⟨dst, src, hdst, hsrc, hmemory, rfl⟩
    exact ⟨dst, hdst, src, hsrc, if_neg hmemory⟩

lemma encode_registerByte_iff (h : i.family = .registerByte) :
    i.encode [.register name, .value n.toNat] = .ok bytes ↔
      ∃ code, registerCode? name = some code ∧ fits 8 n.toNat = true ∧
        bytes = [i.opcode ||| (code <<< 3), n.toUInt8] := by
  rw [encode.eq_def, h]
  simp only [bind_eq_ok_iff, Operand.registerCode_eq_ok_iff, Operand.word_eq_ok_iff,
    Except.ok.injEq]
  constructor
  · rintro ⟨code, hcode, _, ⟨hfits, rfl⟩, rfl⟩
    exact ⟨code, hcode, hfits, rfl⟩
  · rintro ⟨code, hcode, hfits, rfl⟩
    exact ⟨code, hcode, n, ⟨hfits, rfl⟩, rfl⟩

lemma encode_pairWord_iff (h : i.family = .pairWord pairs) :
    i.encode [.register name, .value n.toNat] = .ok bytes ↔
      ∃ code, pairs.code? name = some code ∧
        bytes = (i.opcode ||| (code <<< 4)) :: wordBytes n := by
  rw [encode.eq_def, h]
  simp only [bind_eq_ok_iff, Operand.pairCode_eq_ok_iff, Operand.word_eq_ok_iff,
    Except.ok.injEq]
  constructor
  · rintro ⟨code, hcode, _, ⟨-, rfl⟩, rfl⟩
    exact ⟨code, hcode, rfl⟩
  · rintro ⟨code, hcode, rfl⟩
    exact ⟨code, hcode, n, ⟨fits_toNat n.toNat_lt, rfl⟩, rfl⟩

lemma encode_register_iff {shift : UInt8} (h : i.family = .register shift) :
    i.encode [.register name] = .ok bytes ↔
      ∃ code, registerCode? name = some code ∧ bytes = [i.opcode ||| (code <<< shift)] := by
  rw [encode.eq_def, h]
  simp only [bind_eq_ok_iff, Operand.registerCode_eq_ok_iff, Except.ok.injEq,
    @eq_comm _ bytes]

lemma encode_pair_iff (h : i.family = .pair pairs) :
    i.encode [.register name] = .ok bytes ↔
      ∃ code, pairs.code? name = some code ∧ bytes = [i.opcode ||| (code <<< 4)] := by
  rw [encode.eq_def, h]
  simp only [bind_eq_ok_iff, Operand.pairCode_eq_ok_iff, Except.ok.injEq,
    @eq_comm _ bytes]

lemma encode_address_iff (h : i.family = .address) :
    i.encode [.value n.toNat] = .ok bytes ↔ bytes = i.opcode :: wordBytes n := by
  rw [encode.eq_def, h]
  simp only [bind_eq_ok_iff, Operand.word_eq_ok_iff, Except.ok.injEq]
  constructor
  · rintro ⟨_, ⟨-, rfl⟩, rfl⟩
    rfl
  · rintro rfl
    exact ⟨n, ⟨fits_toNat n.toNat_lt, rfl⟩, rfl⟩

lemma encode_byte_iff (h : i.family = .byte) :
    i.encode [.value n.toNat] = .ok bytes ↔
      fits 8 n.toNat = true ∧ bytes = [i.opcode, n.toUInt8] := by
  rw [encode.eq_def, h]
  simp only [bind_eq_ok_iff, Operand.word_eq_ok_iff, Except.ok.injEq]
  constructor
  · rintro ⟨_, ⟨hfits, rfl⟩, rfl⟩
    exact ⟨hfits, rfl⟩
  · rintro ⟨hfits, rfl⟩
    exact ⟨n, ⟨hfits, rfl⟩, rfl⟩

lemma encode_restart_iff (h : i.family = .restart) {v : Int} :
    i.encode [.value v] = .ok bytes ↔
      fits 3 v = true ∧ bytes = [i.opcode ||| (UInt8.ofNat v.toNat <<< 3)] := by
  rw [encode.eq_def, h]
  simp only [bind_eq_ok_iff, Operand.restartCode_eq_ok_iff, Except.ok.injEq]
  constructor
  · rintro ⟨_, ⟨hfits, rfl⟩, rfl⟩
    exact ⟨hfits, rfl⟩
  · rintro ⟨hfits, rfl⟩
    exact ⟨_, ⟨hfits, rfl⟩, rfl⟩

end Instruction

/-! ### Code bytes -/

/-- A code is the place of its name. -/
lemma codeIn?_eq_some {names : List String} {name : String} {code : UInt8}
    (h : codeIn? names name = some code) : ∃ k < names.length, code = UInt8.ofNat k := by
  obtain ⟨k, hfound, rfl⟩ := Option.map_eq_some_iff.mp h
  exact ⟨k, (List.findIdx?_eq_some_iff_findIdx_eq.mp hfound).1, rfl⟩

/-- How far from the right the one code in the opcode of a shape stands, and how many codes there
are. -/
def Family.field? : Family → Option (UInt8 × Nat)
  | registerByte => some (3, registerNames.length)
  | pairWord pairs | pair pairs => some (4, pairs.names.length)
  | register shift => some (shift, registerNames.length)
  | restart => some (3, 8)
  | _ => none

lemma Cpu.instructions_subset (cpu : Cpu) : cpu.instructions ⊆ Cpu.intel8085.instructions := by
  cases cpu with
  | intel8080 => exact List.subset_append_left _ _
  | intel8085 => exact List.Subset.refl _

/-- No other instruction of a processor has the same mnemonic. -/
lemma Cpu.instruction?_of_mem {cpu : Cpu} {i : Instruction} {name : String}
    (hi : i ∈ cpu.instructions) (hname : Text.upper name = i.mnemonic) :
    cpu.instruction? name = some i := by
  have htable : ∀ cpu ∈ [Cpu.intel8080, Cpu.intel8085], ∀ i ∈ cpu.instructions,
      Instruction.named? cpu.instructions i.mnemonic = some i := by
    decide +kernel
  rw [instruction?, hname]
  exact htable cpu (by cases cpu <;> simp) i hi

variable {cpu : Cpu} {i : Instruction}

/-- The code of one operand is added to the opcode at its place. -/
lemma Instruction.opcode_or_shift (hi : i ∈ cpu.instructions) {shift : UInt8} {count k : Nat}
    (hfield : i.family.field? = some (shift, count)) (hk : k < count) :
    i.opcode ||| (UInt8.ofNat k <<< shift) =
      Reference.codeByte i ((1 <<< shift.toNat) * (UInt8.ofNat k).toNat) := by
  have htable : ∀ i ∈ Cpu.intel8085.instructions, ∀ field ∈ i.family.field?, ∀ k < field.2,
      i.opcode ||| (UInt8.ofNat k <<< field.1) =
        Reference.codeByte i ((1 <<< field.1.toNat) * (UInt8.ofNat k).toNat) := by
    decide +kernel
  exact htable i (cpu.instructions_subset hi) _ hfield k hk

/-- The code of a name is added to the opcode at its place. -/
lemma Instruction.opcode_or_code (hi : i ∈ cpu.instructions) {shift code : UInt8}
    {names : List String} {name : String}
    (hfield : i.family.field? = some (shift, names.length))
    (hcode : codeIn? names name = some code) :
    i.opcode ||| (code <<< shift) = Reference.codeByte i ((1 <<< shift.toNat) * code.toNat) := by
  obtain ⟨k, hk, rfl⟩ := codeIn?_eq_some hcode
  exact Instruction.opcode_or_shift hi hfield hk

/-- The codes of two registers are added to the opcode at their places. -/
lemma Instruction.opcode_or_registers (hi : i ∈ cpu.instructions)
    (hfamily : i.family = .registerRegister) {d s : String} {dst src : UInt8}
    (hdst : registerCode? d = some dst) (hsrc : registerCode? s = some src) :
    i.opcode ||| (dst <<< 3) ||| src = Reference.codeByte i (8 * dst.toNat + src.toNat) := by
  have htable : ∀ i ∈ Cpu.intel8085.instructions, i.family = .registerRegister →
      ∀ k < registerNames.length, ∀ k' < registerNames.length,
        i.opcode ||| (UInt8.ofNat k <<< 3) ||| UInt8.ofNat k' =
          Reference.codeByte i (8 * (UInt8.ofNat k).toNat + (UInt8.ofNat k').toNat) := by
    decide +kernel
  obtain ⟨k, hk, rfl⟩ := codeIn?_eq_some hdst
  obtain ⟨k', hk', rfl⟩ := codeIn?_eq_some hsrc
  exact htable i (cpu.instructions_subset hi) hfamily k hk k' hk'

end MicroAsm
