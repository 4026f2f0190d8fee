import MicroAsm.Instruction.Decoding
import MicroAsm.Proofs.Instruction.Packing
import MicroAsm.Proofs.Statement.Spelling

/-!
# Decoding and encoding

An instruction that is decoded from bytes is one of the processor, its text is its mnemonic with
operands, and encoding it with these operands gives the bytes back.
-/

namespace MicroAsm

/-! ### Tables -/

lemma isPlainName_mnemonic {cpu : Cpu} {i : Instruction} (hi : i ∈ cpu.instructions) :
    IsPlainName i.mnemonic := by
  have hall : ∀ cpu ∈ [Cpu.intel8080, Cpu.intel8085], ∀ i ∈ cpu.instructions,
      IsPlainName i.mnemonic := by
    decide +kernel
  exact hall cpu (by cases cpu <;> simp) i hi

lemma lookup_mnemonic {cpu : Cpu} {i : Instruction} (hi : i ∈ cpu.instructions) :
    cpu.lookup i.mnemonic = .supported i := by
  have hall : ∀ cpu ∈ [Cpu.intel8080, Cpu.intel8085], ∀ i ∈ cpu.instructions,
      cpu.lookup i.mnemonic = .supported i := by
    decide +kernel
  exact hall cpu (by cases cpu <;> simp) i hi

lemma registerCode?_of_mem {code : UInt8} {name : String} (h : (code, name) ∈ coded registerNames) :
    registerCode? name = some code ∧ IsPlainName name := by
  have hall : ∀ entry ∈ coded registerNames,
      registerCode? entry.2 = some entry.1 ∧ IsPlainName entry.2 := by
    decide +kernel
  exact hall (code, name) h

lemma pairCode?_of_mem {pairs : PairSet} {code : UInt8} {name : String}
    (h : (code, name) ∈ coded pairs.names) : pairs.code? name = some code ∧ IsPlainName name := by
  have hall : ∀ pairs ∈ [PairSet.sp, PairSet.psw, PairSet.bd], ∀ entry ∈ coded pairs.names,
      pairs.code? entry.2 = some entry.1 ∧ IsPlainName entry.2 := by
    decide +kernel
  exact hall pairs (by cases pairs <;> simp) (code, name) h

/-- The restart codes are written with one digit. -/
lemma restart_of_mem {code : UInt8} {s : String}
    (h : (code, s) ∈ coded ["0", "1", "2", "3", "4", "5", "6", "7"]) :
    (Written.number s code.toUInt16).Plain ∧ code.toNat < 8 := by
  have hall : ∀ entry ∈ coded ["0", "1", "2", "3", "4", "5", "6", "7"],
      entry.2.toList = [Text.hexDigit entry.1.toNat] ∧ entry.1.toNat < 8 := by
    decide +kernel
  have hdigits : ∀ k < 8, (Text.hexDigit k).isDigit = true ∧
      Lexeme.ofRun [Text.hexDigit k] = (.number, 1) ∧
      Numeral.value? [Text.hexDigit k] = some (k : Int) := by
    decide +kernel
  obtain ⟨hs, hlt⟩ := hall (code, s) h
  obtain ⟨hdigit, hrun, hvalue⟩ := hdigits _ hlt
  simp only at hs hlt
  refine ⟨⟨?_, ?_⟩, hlt⟩
  · rw [hs]
    exact Lexeme.lexes_run hdigit (by simp) hrun
  · rw [hs, UInt8.toNat_toUInt16]
    exact hvalue

lemma Cpu.forms_eq_flatMap (cpu : Cpu) : cpu.forms = cpu.instructions.flatMap Instruction.forms := by
  cases cpu with
  | intel8080 => rfl
  | intel8085 => exact List.flatMap_append.symm

/-- What a code byte stands for comes from an instruction of the processor. -/
lemma Cpu.form?_eq_some {cpu : Cpu} {code : UInt8} {form : Form}
    (h : cpu.form? code = some form) :
    ∃ i ∈ cpu.instructions, ∃ registers, (code, registers) ∈ i.codes ∧
      form = ⟨i.mnemonic, registers, i.family⟩ := by
  obtain ⟨front, back, heq, -⟩ := List.lookup_eq_some_iff.mp h
  have hmem : (code, form) ∈ cpu.instructions.flatMap Instruction.forms := by
    rw [← cpu.forms_eq_flatMap, heq]
    simp
  obtain ⟨i, hi, hform⟩ := List.mem_flatMap.mp hmem
  obtain ⟨⟨code', registers⟩, hcodes, hpair⟩ := List.mem_map.mp hform
  cases hpair
  exact ⟨i, hi, registers, hcodes, rfl⟩

/-! ### Texts -/

namespace Written

lemma Plain.toList_text_ne {w : Written} (h : w.Plain) : w.text.toList ≠ [] := by
  cases w with
  | name s => exact h.1
  | number s n => exact h.1.ne_nil

lemma isEmpty_of_toList_ne {s : String} (h : s.toList ≠ []) : s.isEmpty = false := by
  rw [String.isEmpty_eq_false_iff]
  rintro rfl
  exact h rfl

lemma isEmpty_intercalate {w : Written} (h : w.Plain) (ws : List Written) :
    (",".intercalate ((w :: ws).map text)).isEmpty = false := by
  apply isEmpty_of_toList_ne
  have hne := h.toList_text_ne
  cases ws with
  | nil => simpa using hne
  | cons w' ws =>
    rw [List.map_cons, List.map_cons, String.intercalate_cons_cons]
    simp [hne]

end Written

/-- The text of a form is its mnemonic with the operands of the code byte and the value. -/
lemma Form.text_eq_spell {mnemonic : String} {family : Family} {ws : List Written}
    {value : Option Written} (hws : ∀ w ∈ ws, w.Plain) (hvalue : ∀ w ∈ value, w.Plain) :
    Form.text ⟨mnemonic, ",".intercalate (ws.map Written.text), family⟩
        (value.map Written.text) =
      Written.spell mnemonic (ws ++ value.toList) := by
  cases ws with
  | nil =>
    cases value with
    | none => simp [text, Written.spell]
    | some v =>
      have hv := Written.isEmpty_of_toList_ne (hvalue v rfl).toList_text_ne
      simp [text, Written.spell, hv]
  | cons w ws =>
    have hregisters := Written.isEmpty_intercalate (hws w List.mem_cons_self) ws
    have hspell : Written.spell mnemonic (w :: ws ++ value.toList) = mnemonic ++ " " ++
        ",".intercalate ((w :: ws).map Written.text ++ value.toList.map Written.text) := by
      rw [← List.map_append]
      rfl
    rw [hspell]
    cases value with
    | none =>
      rw [Option.toList_none, List.map_nil, List.append_nil]
      generalize ",".intercalate ((w :: ws).map Written.text) = registers at hregisters ⊢
      simp [text, hregisters]
    | some v =>
      have hv := Written.isEmpty_of_toList_ne (hvalue v rfl).toList_text_ne
      rw [Option.toList_some, List.map_singleton,
        String.intercalate_append_of_ne_nil (by simp) (by simp), String.intercalate_singleton]
      generalize ",".intercalate ((w :: ws).map Written.text) = registers at hregisters ⊢
      simp [text, hregisters, hv, String.append_assoc]

/-! ### Bytes -/

/-- The value in the last bytes of an instruction of the given size. -/
def ValueOf (size : Nat) (value : Option Written) (bytes : List UInt8) : Prop :=
  match size, value with
  | 1, none => bytes = []
  | 2, some (.number _ n) => n.toNat < 256 ∧ bytes = [n.toUInt8]
  | 3, some (.number _ n) => bytes = wordBytes n
  | _, _ => False

lemma valueOf_one {value : Option Written} {bytes : List UInt8} (h : ValueOf 1 value bytes) :
    value = none ∧ bytes = [] := by
  cases value with
  | none => exact ⟨rfl, h⟩
  | some w => exact h.elim

lemma valueOf_two {value : Option Written} {bytes : List UInt8} (h : ValueOf 2 value bytes) :
    ∃ s n, value = some (.number s n) ∧ n.toNat < 256 ∧ bytes = [n.toUInt8] := by
  match value, h with
  | some (.number s n), h => exact ⟨s, n, rfl, h⟩

lemma valueOf_three {value : Option Written} {bytes : List UInt8} (h : ValueOf 3 value bytes) :
    ∃ s n, value = some (.number s n) ∧ bytes = wordBytes n := by
  match value, h with
  | some (.number s n), h => exact ⟨s, n, rfl, h⟩

lemma plain_hexLiteral (width : Nat) (n : UInt16) :
    (Written.number (Text.hexLiteral width n) n).Plain :=
  ⟨Text.lexes_hexLiteral width n, Text.value?_hexLiteral width n⟩

/-- The value that follows a code byte, if all its bytes are there. -/
lemma valueOf_immediate? {family : Family} {rest : List UInt8} {text : Option String}
    (h : immediate? family.size rest = some text) :
    ∃ value, text = value.map Written.text ∧ (∀ w ∈ value, w.Plain) ∧
      ValueOf family.size value (rest.take (family.size - 1)) := by
  have hsize : family.size = 1 ∨ family.size = 2 ∨ family.size = 3 := by
    cases family <;> simp [Family.size]
  rcases hsize with hsize | hsize | hsize
  · rw [hsize] at h ⊢
    cases h
    exact ⟨none, rfl, by simp, rfl⟩
  · rw [hsize] at h ⊢
    cases rest with
    | nil => cases h
    | cons b rest =>
      cases h
      refine ⟨some (.number _ b.toUInt16), rfl, ?_, ?_, by simp⟩
      · rintro w hw
        cases hw
        exact plain_hexLiteral 2 b.toUInt16
      · rw [UInt8.toNat_toUInt16]
        exact b.toNat_lt
  · rw [hsize] at h ⊢
    match rest, h with
    | [], h => cases h
    | [_], h => cases h
    | low :: high :: rest, h =>
      cases h
      refine ⟨some (.number _ (wordOf low high)), rfl, ?_, ?_⟩
      · rintro w hw
        cases hw
        exact plain_hexLiteral 4 (wordOf low high)
      · exact (wordBytes_wordOf low high).symm

/-- What the code byte of an instruction holds: encoding these operands, with a value behind them
if the instruction takes one, gives the code byte and the bytes of the value. -/
lemma Instruction.encode_of_mem_codes {i : Instruction} {code : UInt8} {registers : String}
    (h : (code, registers) ∈ i.codes) :
    ∃ ws : List Written, registers = ",".intercalate (ws.map Written.text) ∧
      (∀ w ∈ ws, w.Plain) ∧ ∀ value bytes, ValueOf i.family.size value bytes →
        List.Forall₂ (fun kind w => w.Fits kind) i.family.operands (ws ++ value.toList) ∧
          i.encode ((ws ++ value.toList).map Written.operand) = .ok (code :: bytes) := by
  cases hfamily : i.family with
  | implied =>
    simp only [codes, hfamily, List.mem_singleton] at h
    cases h
    refine ⟨[], by simp, by simp, ?_⟩
    intro value bytes hvalue
    obtain ⟨rfl, rfl⟩ := valueOf_one hvalue
    exact ⟨.nil, (encode_implied_iff hfamily).mpr rfl⟩
  | registerRegister =>
    simp only [codes, hfamily, List.mem_flatMap, List.mem_filterMap] at h
    obtain ⟨⟨dst, d⟩, hd, ⟨src, s⟩, hs, hcode⟩ := h
    simp only at hcode
    by_cases hmemory : dst = memoryCode ∧ src = memoryCode
    · rw [if_pos hmemory] at hcode
      cases hcode
    · rw [if_neg hmemory] at hcode
      cases hcode
      obtain ⟨hdst, hdname⟩ := registerCode?_of_mem hd
      obtain ⟨hsrc, hsname⟩ := registerCode?_of_mem hs
      refine ⟨[.name d, .name s], by simp [Written.text], by simp [Written.Plain, hdname, hsname],
        ?_⟩
      intro value bytes hvalue
      obtain ⟨rfl, rfl⟩ := valueOf_one hvalue
      refine ⟨.cons trivial (.cons trivial .nil), ?_⟩
      exact (encode_registerRegister_iff hfamily).mpr ⟨dst, src, hdst, hsrc, hmemory, rfl⟩
  | registerByte =>
    simp only [codes, hfamily, List.mem_map] at h
    obtain ⟨⟨code', r⟩, hr, hcode⟩ := h
    cases hcode
    obtain ⟨hreg, hname⟩ := registerCode?_of_mem hr
    refine ⟨[.name r], by simp [Written.text], by simp [Written.Plain, hname], ?_⟩
    intro value bytes hvalue
    obtain ⟨s, n, rfl, hn, rfl⟩ := valueOf_two hvalue
    refine ⟨.cons trivial (.cons hn .nil), ?_⟩
    exact (encode_registerByte_iff hfamily).mpr ⟨code', hreg, fits_toNat hn, rfl⟩
  | pairWord pairs =>
    simp only [codes, hfamily, List.mem_map] at h
    obtain ⟨⟨code', p⟩, hp, hcode⟩ := h
    cases hcode
    obtain ⟨hpair, hname⟩ := pairCode?_of_mem hp
    refine ⟨[.name p], by simp [Written.text], by simp [Written.Plain, hname], ?_⟩
    intro value bytes hvalue
    obtain ⟨s, n, rfl, rfl⟩ := valueOf_three hvalue
    refine ⟨.cons trivial (.cons trivial .nil), ?_⟩
    exact (encode_pairWord_iff hfamily).mpr ⟨code', hpair, rfl⟩
  | register shift =>
    simp only [codes, hfamily, List.mem_map] at h
    obtain ⟨⟨code', r⟩, hr, hcode⟩ := h
    cases hcode
    obtain ⟨hreg, hname⟩ := registerCode?_of_mem hr
    refine ⟨[.name r], by simp [Written.text], by simp [Written.Plain, hname], ?_⟩
    intro value bytes hvalue
    obtain ⟨rfl, rfl⟩ := valueOf_one hvalue
    exact ⟨.cons trivial .nil, (encode_register_iff hfamily).mpr ⟨code', hreg, rfl⟩⟩
  | pair pairs =>
    simp only [codes, hfamily, List.mem_map] at h
    obtain ⟨⟨code', p⟩, hp, hcode⟩ := h
    cases hcode
    obtain ⟨hpair, hname⟩ := pairCode?_of_mem hp
    refine ⟨[.name p], by simp [Written.text], by simp [Written.Plain, hname], ?_⟩
    intro value bytes hvalue
    obtain ⟨rfl, rfl⟩ := valueOf_one hvalue
    exact ⟨.cons trivial .nil, (encode_pair_iff hfamily).mpr ⟨code', hpair, rfl⟩⟩
  | address =>
    simp only [codes, hfamily, List.mem_singleton] at h
    cases h
    refine ⟨[], by simp, by simp, ?_⟩
    intro value bytes hvalue
    obtain ⟨s, n, rfl, rfl⟩ := valueOf_three hvalue
    exact ⟨.cons trivial .nil, (encode_address_iff hfamily).mpr rfl⟩
  | byte =>
    simp only [codes, hfamily, List.mem_singleton] at h
    cases h
    refine ⟨[], by simp, by simp, ?_⟩
    intro value bytes hvalue
    obtain ⟨s, n, rfl, hn, rfl⟩ := valueOf_two hvalue
    exact ⟨.cons hn .nil, (encode_byte_iff hfamily).mpr ⟨fits_toNat hn, rfl⟩⟩
  | restart =>
    simp only [codes, hfamily, List.mem_map] at h
    obtain ⟨⟨code', s⟩, hs, hcode⟩ := h
    cases hcode
    obtain ⟨hplain, hlt⟩ := restart_of_mem hs
    refine ⟨[.number s code'.toUInt16], by simp [Written.text], by simpa using hplain, ?_⟩
    intro value bytes hvalue
    obtain ⟨rfl, rfl⟩ := valueOf_one hvalue
    have hrestart : fits 3 code'.toUInt16.toNat = true := by
      rw [← UInt8.toNat_toUInt16] at hlt
      exact fits_toNat hlt
    exact ⟨.cons trivial .nil, (encode_restart_iff hfamily).mpr ⟨hrestart, by simp⟩⟩

/-- A decoded instruction is one of the processor, and encoding the operands in its text gives
its bytes back. -/
lemma Cpu.encode_of_decode {cpu : Cpu} {bs : List UInt8} {d : Decoded}
    (h : cpu.decode bs = some d) :
    ∃ i ∈ cpu.instructions, ∃ ws : List Written, d.text = Written.spell i.mnemonic ws ∧
      (∀ w ∈ ws, w.Plain) ∧
      List.Forall₂ (fun kind w => w.Fits kind) i.family.operands ws ∧
      i.encode (ws.map Written.operand) = .ok (bs.take d.size) ∧ 0 < d.size := by
  cases bs with
  | nil => cases h
  | cons code rest =>
    simp only [decode] at h
    split at h
    · cases h
    · rename_i form hform
      split at h
      · cases h
      · rename_i text himmediate
        cases h
        obtain ⟨i, hi, registers, hcodes, rfl⟩ := Cpu.form?_eq_some hform
        obtain ⟨ws, rfl, hplain, hencode⟩ := Instruction.encode_of_mem_codes hcodes
        obtain ⟨value, rfl, hplain', hvalue⟩ := valueOf_immediate? himmediate
        obtain ⟨hfits, hbytes⟩ := hencode value _ hvalue
        have hpos : 0 < i.family.size := by cases i.family <;> simp [Family.size]
        refine ⟨i, hi, ws ++ value.toList, Form.text_eq_spell hplain hplain', ?_, hfits, ?_, hpos⟩
        · intro w hw
          rw [List.mem_append, Option.mem_toList] at hw
          exact hw.elim (hplain w) (hplain' w)
        · rw [hbytes, List.take_cons hpos]

end MicroAsm
