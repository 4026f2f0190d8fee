import Mathlib.Data.List.Nodup
import MicroAsm.Proofs.Instruction.Decoding
import MicroAsm.Proofs.Lookup
import MicroAsm.Proofs.Text.Case

/-!
# Encoding and decoding

The bytes of an encoded instruction are decoded to this instruction, whatever follows them. Its text
shows the operands in their canonical form: registers in capitals, restart codes in decimal, other
values as hexadecimal literals.

No code byte belongs to two instructions or to two choices of registers. So the table that is used
for decoding can be filled from the instructions in any order.
-/

namespace MicroAsm

/-! ### Tables of code bytes -/

/-- A table of code bytes with one more entry. It takes the place of an earlier one with the same
code. -/
def insertForm (table : UInt8 → Option Form) (entry : UInt8 × Form) : UInt8 → Option Form :=
  Function.update table entry.1 (some entry.2)

/-- A table of code bytes, filled entry by entry. -/
def fillForms (entries : List (UInt8 × Form)) : UInt8 → Option Form :=
  entries.foldl insertForm fun _ => none

/-- The instruction in front of some bytes, by a table of code bytes. -/
def decodeBy (form? : UInt8 → Option Form) : List UInt8 → Option Decoded
  | [] => none
  | code :: rest =>
    (form? code).bind fun form =>
      (immediate? form.family.size rest).map fun value =>
        ⟨form.mnemonic, form.text value, form.family.size⟩

lemma Cpu.decode_eq_decodeBy (cpu : Cpu) : cpu.decode = decodeBy cpu.form? := by
  funext bytes
  cases bytes with
  | nil => rfl
  | cons code rest =>
    simp only [decode, decodeBy]
    cases cpu.form? code with
    | none => rfl
    | some form =>
      simp only [Option.bind_some]
      cases immediate? form.family.size rest <;> rfl

section Entries

variable {entries : List (UInt8 × Form)} {code : UInt8} {form : Form}

/-- Entries with other codes do not change what a code stands for. -/
lemma foldl_insertForm_of_notMem (table : UInt8 → Option Form) (h : code ∉ entries.map Prod.fst) :
    entries.foldl insertForm table code = table code := by
  induction entries generalizing table with
  | nil => rfl
  | cons entry entries ih =>
    rw [List.map_cons, List.mem_cons, not_or] at h
    rw [List.foldl_cons, ih _ h.2, insertForm, Function.update_of_ne h.1]

variable (hnodup : (entries.map Prod.fst).Nodup) (hmem : (code, form) ∈ entries)
include hnodup hmem

lemma fillForms_of_mem : fillForms entries code = some form := by
  obtain ⟨front, back, rfl⟩ := List.append_of_mem hmem
  rw [List.map_append, List.map_cons] at hnodup
  have hback : code ∉ back.map Prod.fst := (List.nodup_cons.mp hnodup.of_append_right).1
  rw [fillForms, List.foldl_append, List.foldl_cons, foldl_insertForm_of_notMem _ hback,
    insertForm, Function.update_self]

end Entries

/-- No code byte of a processor stands for two things. -/
lemma Cpu.nodup_forms (cpu : Cpu) : (cpu.forms.map Prod.fst).Nodup := by
  have htable : (intel8085.forms.map fun entry => entry.1.toNat).Nodup := by
    decide +kernel
  have hall : (intel8085.forms.map Prod.fst).Nodup := by
    refine List.Nodup.of_map UInt8.toNat ?_
    rwa [List.map_map]
  cases cpu with
  | intel8080 => exact hall.sublist ((List.sublist_append_left _ _).map _)
  | intel8085 => exact hall

/-- In whatever order a table is filled from the instructions of a processor, each code stands for
the same. -/
lemma Cpu.fillForms_of_perm {cpu : Cpu} {order : List Instruction}
    (horder : order.Perm cpu.instructions) {code : UInt8} {form : Form}
    (h : (code, form) ∈ cpu.forms) :
    fillForms (order.flatMap Instruction.forms) code = some form := by
  have hperm : (order.flatMap Instruction.forms).Perm cpu.forms := by
    rw [cpu.forms_eq_flatMap]
    exact horder.flatMap_right _
  exact fillForms_of_mem ((hperm.map _).nodup_iff.mpr cpu.nodup_forms) (hperm.mem_iff.mpr h)

/-! ### Operands in canonical form -/

/-- An operand with its name in capitals. -/
def Operand.capital : Operand → Operand
  | register name => .register (Text.upper name)
  | value v => .value v

/-- How the text of a decoded instruction shows an operand. -/
def OperandKind.canonical (kind : OperandKind) : Operand → Written
  | .register name => .name (Text.upper name)
  | .value v =>
    let text :=
      match kind with
      | restartCode => toString v
      | byte => Text.hexLiteral 2 (wordOfInt v)
      | _ => Text.hexLiteral 4 (wordOfInt v)
    .number text (wordOfInt v)

/-- The canonical form of an operand can be read, and means the operand. -/
def OperandKind.Shows (kind : OperandKind) (op : Operand) : Prop :=
  (kind.canonical op).Plain ∧ (kind.canonical op).operand = op.capital

/-- The operands of an instruction in canonical form. -/
def Instruction.canonical (i : Instruction) (operands : List Operand) : List Written :=
  List.zipWith OperandKind.canonical i.family.operands operands

/-- A name is found in a list of capital names by its capital form. -/
lemma mem_coded_of_codeIn? {names : List String} {name : String} {code : UInt8}
    (hcapital : ∀ s ∈ names, Text.upper s = s) (h : codeIn? names name = some code) :
    (code, Text.upper name) ∈ coded names := by
  obtain ⟨k, hfound, rfl⟩ := Option.map_eq_some_iff.mp h
  obtain ⟨hlt, heq, -⟩ := List.findIdx?_eq_some_iff_getElem.mp hfound
  have hupper : Text.upper name = names[k] := by
    rw [← Text.upper_eq_of_eqIgnoringCase heq, hcapital _ (List.getElem_mem hlt)]
  rw [hupper]
  exact List.mem_map.mpr ⟨(names[k], k), List.mk_mem_zipIdx_iff_getElem?.mpr (by simp), rfl⟩

namespace Operand

variable {op : Operand} {family : Family} {position : Nat} {code : UInt8}

lemma shows_of_registerCode {fault : String → EncodingFault}
    (h : op.registerCode family position fault = .ok code) :
    ∃ name, op = .register name ∧ (code, Text.upper name) ∈ coded registerNames ∧
      OperandKind.register.Shows (.register name) := by
  cases op with
  | register name =>
    have hcapital : ∀ s ∈ registerNames, Text.upper s = s := by
      decide +kernel
    have hmem := mem_coded_of_codeIn? hcapital (registerCode_eq_ok_iff.mp h)
    exact ⟨name, rfl, hmem, (registerCode?_of_mem hmem).2, rfl⟩
  | value v => cases h

lemma shows_of_pairCode {pairs : PairSet} (h : op.pairCode family position pairs = .ok code) :
    ∃ name, op = .register name ∧ (code, Text.upper name) ∈ coded pairs.names ∧
      OperandKind.pair.Shows (.register name) := by
  cases op with
  | register name =>
    have hcapital : ∀ s ∈ pairs.names, Text.upper s = s := by
      cases pairs <;> decide +kernel
    have hmem := mem_coded_of_codeIn? hcapital (pairCode_eq_ok_iff.mp h)
    exact ⟨name, rfl, hmem, (pairCode?_of_mem hmem).2, rfl⟩
  | value v => cases h

lemma shows_of_word (kind : OperandKind) (hkind : kind ≠ .restartCode) {bits : Nat}
    (hbits : bits ≤ 16) {w : UInt16} (h : op.word family position bits = .ok w) :
    ∃ v, op = .value v ∧ fits bits v = true ∧ w = wordOfInt v ∧ kind.Shows (.value v) := by
  cases op with
  | register name => cases h
  | value v =>
    rw [word] at h
    split at h
    · rename_i hfits
      cases h
      refine ⟨v, rfl, hfits, rfl, ?_, congrArg value (toNat_wordOfInt hbits hfits)⟩
      cases kind with
      | restartCode => exact absurd rfl hkind
      | byte => exact plain_hexLiteral 2 _
      | register | pair | word | address => exact plain_hexLiteral 4 _
    · cases h

lemma shows_of_restartCode (h : op.restartCode family position = .ok code) :
    ∃ v, op = .value v ∧
      (code, toString v) ∈ coded ["0", "1", "2", "3", "4", "5", "6", "7"] ∧
      OperandKind.restartCode.Shows (.value v) := by
  cases op with
  | register name => cases h
  | value v =>
    obtain ⟨hfits, rfl⟩ := restartCode_eq_ok_iff.mp h
    have hall : ∀ n < 8,
        (UInt8.ofNat n, toString (n : Int)) ∈ coded ["0", "1", "2", "3", "4", "5", "6", "7"] ∧
          (UInt8.ofNat n).toUInt16 = wordOfInt n := by
      decide +kernel
    obtain ⟨hsign, hlt⟩ := fits_iff.mp hfits
    obtain ⟨n, rfl⟩ := Int.eq_ofNat_of_zero_le hsign
    obtain ⟨hmem, hword⟩ := hall n hlt
    have hplain := (restart_of_mem hmem).1
    rw [hword] at hplain
    exact ⟨_, rfl, hmem, hplain, congrArg value (toNat_wordOfInt (by decide) hfits)⟩

end Operand

/-- The canonical forms of operands can be read, and mean the operands. -/
lemma canonical_of_shows {kinds : List OperandKind} {operands : List Operand}
    (h : List.Forall₂ OperandKind.Shows kinds operands) :
    (∀ w ∈ List.zipWith OperandKind.canonical kinds operands, w.Plain) ∧
      (List.zipWith OperandKind.canonical kinds operands).map Written.operand =
        operands.map Operand.capital := by
  induction h with
  | nil => simp
  | cons hshows _ ih =>
    rw [List.zipWith_cons_cons, List.forall_mem_cons, List.map_cons, List.map_cons, hshows.2, ih.2]
    exact ⟨⟨hshows.1, ih.1⟩, rfl⟩

/-! ### Bytes -/

lemma immediate?_byte {v : Int} (h : fits 8 v = true) (rest : List UInt8) :
    immediate? 2 ((wordOfInt v).toUInt8 :: rest) = some (some (Text.hexLiteral 2 (wordOfInt v))) := by
  have hword : (wordOfInt v).toUInt8.toUInt16 = wordOfInt v := by
    apply UInt16.toNat_inj.mp
    have hlt := (fits_iff.mp h).2
    have hv := toNat_wordOfInt (by decide) h
    rw [UInt8.toNat_toUInt16, UInt16.toNat_toUInt8]
    omega
  rw [immediate?, hword]

lemma immediate?_word (w : UInt16) (rest : List UInt8) :
    immediate? 3 (wordBytes w ++ rest) = some (some (Text.hexLiteral 4 w)) := by
  simp [wordBytes, immediate?]

/-- The parts of an encoded instruction: a code byte, which holds the first operands, and the bytes
of a value behind it, if there is one. -/
structure Instruction.Packs (i : Instruction) (operands : List Operand) (code : UInt8)
    (tail : List UInt8) (ws : List Written) (value : Option Written) : Prop where
  canonical : i.canonical operands = ws ++ value.toList
  codes : (code, ",".intercalate (ws.map Written.text)) ∈ i.codes
  size : tail.length + 1 = i.family.size
  immediate : ∀ rest, immediate? i.family.size (tail ++ rest) = some (value.map Written.text)

lemma Instruction.length_of_encode {i : Instruction} {operands : List Operand}
    {bytes : List UInt8} (h : i.encode operands = .ok bytes) :
    operands.length = i.family.operands.length := by
  rw [encode.eq_def] at h
  split at h <;> simp_all [Family.operands]

/-- The operands of an encoded instruction have a canonical form, and its bytes are made of it. -/
lemma Instruction.packs_of_encode {i : Instruction} {operands : List Operand}
    {bytes : List UInt8} (h : i.encode operands = .ok bytes) :
    List.Forall₂ OperandKind.Shows i.family.operands operands ∧
      ∃ code tail ws value, bytes = code :: tail ∧ i.Packs operands code tail ws value := by
  have hlength := length_of_encode h
  obtain ⟨mnemonic, opcode, family⟩ := i
  cases family with
  | implied =>
    obtain rfl := List.length_eq_zero_iff.mp hlength
    cases h
    exact ⟨.nil, opcode, [], [], none, rfl, rfl, List.mem_singleton.mpr rfl, rfl, fun _ => rfl⟩
  | registerRegister =>
    obtain ⟨d, s, rfl⟩ := List.length_eq_two.mp hlength
    simp only [encode, bind_eq_ok_iff] at h
    obtain ⟨dst, hdst, src, hsrc, hbytes⟩ := h
    obtain ⟨d, rfl, hd, hshows⟩ := Operand.shows_of_registerCode hdst
    obtain ⟨s, rfl, hs, hshows'⟩ := Operand.shows_of_registerCode hsrc
    by_cases hmemory : dst = memoryCode ∧ src = memoryCode
    · rw [if_pos hmemory] at hbytes
      cases hbytes
    · rw [if_neg hmemory] at hbytes
      cases hbytes
      refine ⟨.cons hshows (.cons hshows' .nil), _, [], [.name _, .name _], none, rfl, rfl,
        List.mem_flatMap.mpr ⟨_, hd, List.mem_filterMap.mpr ⟨_, hs, ?_⟩⟩, rfl, fun _ => rfl⟩
      simp [hmemory, Written.text]
  | registerByte =>
    obtain ⟨r, b, rfl⟩ := List.length_eq_two.mp hlength
    simp only [encode, bind_eq_ok_iff] at h
    obtain ⟨code, hcode, w, hw, hbytes⟩ := h
    obtain ⟨name, rfl, hmem, hshows⟩ := Operand.shows_of_registerCode hcode
    obtain ⟨v, rfl, hv, rfl, hshows'⟩ := Operand.shows_of_word .byte (by decide) (by decide) hw
    cases hbytes
    exact ⟨.cons hshows (.cons hshows' .nil), _, _, [.name _], some _, rfl, rfl,
      List.mem_map.mpr ⟨_, hmem, rfl⟩, rfl, immediate?_byte hv⟩
  | pairWord pairs =>
    obtain ⟨p, w, rfl⟩ := List.length_eq_two.mp hlength
    simp only [encode, bind_eq_ok_iff] at h
    obtain ⟨code, hcode, w, hw, hbytes⟩ := h
    obtain ⟨name, rfl, hmem, hshows⟩ := Operand.shows_of_pairCode hcode
    obtain ⟨v, rfl, -, rfl, hshows'⟩ := Operand.shows_of_word .word (by decide) (by decide) hw
    cases hbytes
    exact ⟨.cons hshows (.cons hshows' .nil), _, _, [.name _], some _, rfl, rfl,
      List.mem_map.mpr ⟨_, hmem, rfl⟩, rfl, immediate?_word _⟩
  | register shift =>
    obtain ⟨r, rfl⟩ := List.length_eq_one_iff.mp hlength
    simp only [encode, bind_eq_ok_iff] at h
    obtain ⟨code, hcode, hbytes⟩ := h
    obtain ⟨name, rfl, hmem, hshows⟩ := Operand.shows_of_registerCode hcode
    cases hbytes
    exact ⟨.cons hshows .nil, _, [], [.name _], none, rfl, rfl, List.mem_map.mpr ⟨_, hmem, rfl⟩,
      rfl, fun _ => rfl⟩
  | pair pairs =>
    obtain ⟨p, rfl⟩ := List.length_eq_one_iff.mp hlength
    simp only [encode, bind_eq_ok_iff] at h
    obtain ⟨code, hcode, hbytes⟩ := h
    obtain ⟨name, rfl, hmem, hshows⟩ := Operand.shows_of_pairCode hcode
    cases hbytes
    exact ⟨.cons hshows .nil, _, [], [.name _], none, rfl, rfl, List.mem_map.mpr ⟨_, hmem, rfl⟩,
      rfl, fun _ => rfl⟩
  | address =>
    obtain ⟨a, rfl⟩ := List.length_eq_one_iff.mp hlength
    simp only [encode, bind_eq_ok_iff] at h
    obtain ⟨w, hw, hbytes⟩ := h
    obtain ⟨v, rfl, -, rfl, hshows⟩ := Operand.shows_of_word .address (by decide) (by decide) hw
    cases hbytes
    exact ⟨.cons hshows .nil, opcode, _, [], some _, rfl, rfl, List.mem_singleton.mpr rfl, rfl,
      immediate?_word _⟩
  | byte =>
    obtain ⟨b, rfl⟩ := List.length_eq_one_iff.mp hlength
    simp only [encode, bind_eq_ok_iff] at h
    obtain ⟨w, hw, hbytes⟩ := h
    obtain ⟨v, rfl, hv, rfl, hshows⟩ := Operand.shows_of_word .byte (by decide) (by decide) hw
    cases hbytes
    exact ⟨.cons hshows .nil, opcode, _, [], some _, rfl, rfl, List.mem_singleton.mpr rfl, rfl,
      immediate?_byte hv⟩
  | restart =>
    obtain ⟨n, rfl⟩ := List.length_eq_one_iff.mp hlength
    simp only [encode, bind_eq_ok_iff] at h
    obtain ⟨code, hcode, hbytes⟩ := h
    obtain ⟨v, rfl, hmem, hshows⟩ := Operand.shows_of_restartCode hcode
    cases hbytes
    exact ⟨.cons hshows .nil, _, [], [.number _ _], none, rfl, rfl,
      List.mem_map.mpr ⟨_, hmem, rfl⟩, rfl, fun _ => rfl⟩

/-! ### Decoding what was encoded -/

/-- A table that knows the code bytes of a processor decodes the bytes of an instruction, whatever
follows them. -/
lemma Instruction.Packs.decodeBy_append {cpu : Cpu} {i : Instruction} (hi : i ∈ cpu.instructions)
    {operands : List Operand} {code : UInt8} {tail : List UInt8} {ws : List Written}
    {value : Option Written} (h : i.Packs operands code tail ws value)
    (hplain : ∀ w ∈ i.canonical operands, w.Plain) {form? : UInt8 → Option Form}
    (hform : ∀ code form, (code, form) ∈ cpu.forms → form? code = some form)
    (rest : List UInt8) :
    decodeBy form? (code :: tail ++ rest) =
      some ⟨i.mnemonic, Written.spell i.mnemonic (i.canonical operands), tail.length + 1⟩ := by
  have hmem : (code, ⟨i.mnemonic, ",".intercalate (ws.map Written.text), i.family⟩) ∈
      cpu.forms := by
    rw [cpu.forms_eq_flatMap]
    exact List.mem_flatMap.mpr ⟨i, hi, List.mem_map.mpr ⟨_, h.codes, rfl⟩⟩
  rw [h.canonical, List.forall_mem_append] at hplain
  have hvalue : ∀ w ∈ value, w.Plain := fun w hw => hplain.2 w (Option.mem_toList.mpr hw)
  rw [List.cons_append, decodeBy, hform _ _ hmem, Option.bind_some, h.immediate rest,
    Option.map_some, Form.text_eq_spell hplain.1 hvalue, ← h.canonical, h.size]

/-- The bytes of an encoded instruction are as many as its mnemonic says, and with any bytes behind
them they are decoded to its mnemonic in capitals and its operands in canonical form, which mean
the same. In whatever order the table of code bytes is filled from the instructions, the result is
the same. -/
theorem decode_encode (cpu : Cpu) (mnemonic : String) (operands : List Operand)
    (bytes : List UInt8) (h : cpu.encode mnemonic operands = .ok bytes) :
    ∃ i, cpu.lookup mnemonic = .supported i ∧ bytes.length = i.family.size ∧
      (∀ w ∈ i.canonical operands, w.Plain) ∧
      (i.canonical operands).map Written.operand = operands.map Operand.capital ∧
      ∀ rest,
        let decoded : Decoded := ⟨Text.upper mnemonic,
          Written.spell (Text.upper mnemonic) (i.canonical operands), bytes.length⟩
        cpu.decode (bytes ++ rest) = some decoded ∧
          ∀ order : List Instruction, order.Perm cpu.instructions →
            decodeBy (fillForms (order.flatMap Instruction.forms)) (bytes ++ rest) =
              some decoded := by
  rw [Cpu.encode] at h
  split at h
  · rename_i i hfound
    have hi : i ∈ cpu.instructions := List.mem_of_find?_eq_some hfound
    have hname : i.mnemonic = Text.upper mnemonic := by
      simpa using List.find?_some hfound
    obtain ⟨hshows, code, tail, ws, value, rfl, hpacks⟩ := Instruction.packs_of_encode h
    obtain ⟨hplain, hoperands⟩ := canonical_of_shows hshows
    refine ⟨i, by rw [Cpu.lookup, hfound], hpacks.size, hplain, hoperands, ?_⟩
    intro rest
    rw [← hname]
    refine ⟨?_, ?_⟩
    · rw [cpu.decode_eq_decodeBy]
      exact hpacks.decodeBy_append hi hplain (fun _ _ => lookup_of_mem cpu.nodup_forms) rest
    · intro order horder
      exact hpacks.decodeBy_append hi hplain (fun _ _ => Cpu.fillForms_of_perm horder) rest
  · cases h

/-- A pair and a word, in letters of either case, with a byte behind them. -/
theorem decode_encode_pairWord :
    Cpu.intel8085.encode "lxi" [.register "sp", .value 0xBEEF] = .ok [0x31, 0xEF, 0xBE] ∧
      Cpu.intel8085.decode [0x31, 0xEF, 0xBE, 0x76] = some ⟨"LXI", "LXI SP,0BEEFh", 3⟩ ∧
      decodeBy (fillForms (Cpu.intel8085.instructions.reverse.flatMap Instruction.forms))
        [0x31, 0xEF, 0xBE, 0x76] = some ⟨"LXI", "LXI SP,0BEEFh", 3⟩ := by
  have h : Cpu.intel8085.encode "lxi" [.register "sp", .value 0xBEEF] =
      .ok [0x31, 0xEF, 0xBE] := by
    decide +kernel
  obtain ⟨i, hlookup, -, -, -, hdecode⟩ := decode_encode _ _ _ _ h
  have hi : Cpu.intel8085.lookup "lxi" = .supported ⟨"LXI", 0x01, .pairWord .sp⟩ := by
    decide +kernel
  cases hi.symm.trans hlookup
  have htext : Written.spell (Text.upper "lxi")
      (Instruction.canonical ⟨"LXI", 0x01, .pairWord .sp⟩ [.register "sp", .value 0xBEEF]) =
        "LXI SP,0BEEFh" := by
    decide +kernel
  obtain ⟨hfirst, hall⟩ := hdecode [0x76]
  rw [htext] at hfirst hall
  exact ⟨h, hfirst, hall _ (List.reverse_perm _)⟩

end MicroAsm
