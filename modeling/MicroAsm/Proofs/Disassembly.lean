import MicroAsm.Disassembly
import MicroAsm.Proofs.Instruction.Decoding

/-!
# Disassembling and assembling again

The texts of the instructions in some bytes, one on a line behind a line with their address, are a
source that assembles to the same bytes at the same address, without any message. Bytes that start
no instruction come back as data.
-/

namespace MicroAsm

namespace Disassembly

/-- A source with an address and the instructions in the bytes from there on. -/
def source (cpu : Cpu) (width : Nat) (offset : UInt16) (bs : List UInt8) : String :=
  String.join ((("ORG " ++ Text.hexLiteral width offset) :: (split cpu bs).map Prod.snd).map
    (· ++ "\n"))

/-- The line puts bytes into the code for which there is room, and does nothing else. -/
def Puts (cpu : Cpu) (bytes : List UInt8) (words : List (TokenKind × String)) : Prop :=
  ∀ (a : Assembly) (line : SourceLine), a.cpu = cpu → line.HasWords words →
    a.code.endAddress + bytes.length ≤ 0x10000 →
    Assembly.Quiet a (a.step line) ∧ (a.step line).code = a.code.append bytes

/-- The text is a line of words that puts the bytes into the code. -/
def StandsFor (cpu : Cpu) (bytes : List UInt8) (text : String)
    (words : List (TokenKind × String)) : Prop :=
  SourceLine.Spells text words ∧ Puts cpu bytes words

lemma ne_endOfLine_of_words (ws : List Written) :
    ∀ word ∈ Written.words ws, word.1 ≠ .endOfLine := by
  have hword : ∀ w : Written, w.word.1 ≠ .endOfLine := by
    intro w
    cases w <;> simp [Written.word]
  induction ws with
  | nil => simp [Written.words]
  | cons w ws ih =>
    cases ws with
    | nil => simpa [Written.words] using hword w
    | cons w' ws =>
      rw [Written.words, List.forall_mem_cons, List.forall_mem_cons]
      · exact ⟨hword w, by simp, ih⟩
      · simp

/-- A decoded instruction stands for its bytes. -/
lemma standsFor_of_decode {cpu : Cpu} {bs : List UInt8} {d : Decoded}
    (h : cpu.decode bs = some d) : ∃ words, StandsFor cpu (bs.take d.size) d.text words := by
  obtain ⟨i, hi, ws, htext, hplain, hfits, hencode, -⟩ := Cpu.encode_of_decode h
  refine ⟨(.identifier, i.mnemonic) :: Written.words ws, ⟨?_, ?_⟩, ?_⟩
  · rw [htext]
    exact Written.scans_spell (isPlainName_mnemonic hi) hplain
  · exact List.forall_mem_cons.mpr ⟨by simp, ne_endOfLine_of_words ws⟩
  · intro a line hcpu hwords hend
    subst hcpu
    exact Assembly.step_instruction hwords (lookup_mnemonic hi) hplain hfits hencode hend

/-- A directive with a literal is scanned into two words. -/
lemma scans_directive {name : String} {kind : TokenKind} (hne : name.toList ≠ [])
    (hupper : name.toList.all Char.isUpper = true) (hkind : TokenKind.keyword? name = some kind)
    (width : Nat) (n : UInt16) :
    Scanner.Scans (name ++ " " ++ Text.hexLiteral width n).toList
      [(kind, name), (.number, Text.hexLiteral width n)] := by
  have hname := scans_capitals hne hupper
  rw [hkind] at hname
  have hliteral := (plain_hexLiteral width n).scans.blank
  simpa [Written.text, Written.word] using hname.append (by decide) hliteral

/-- A byte of data stands for itself. -/
lemma standsFor_data (cpu : Cpu) (b : UInt8) :
    ∃ words, StandsFor cpu [b] ("DB " ++ Text.hexLiteral 2 b.toUInt16) words := by
  refine ⟨[(.db, "DB"), (.number, Text.hexLiteral 2 b.toUInt16)], ⟨?_, by simp⟩, ?_⟩
  · rw [show "DB " = "DB" ++ " " from rfl]
    exact scans_directive (by decide) (by decide) (by decide) 2 b.toUInt16
  · intro a line _ hwords hend
    have hlt : b.toUInt16.toNat < 256 := by
      rw [UInt8.toNat_toUInt16]
      exact b.toNat_lt
    have hstep := Assembly.step_data (a := a) hwords (Text.value?_hexLiteral 2 b.toUInt16) hlt hend
    have hbyte : b.toUInt16.toUInt8 = b := by simp
    rwa [hbyte] at hstep

/-- The pieces of some bytes add up to the bytes, and the text of each stands for it. -/
lemma split_spec (cpu : Cpu) (bs : List UInt8) :
    ((split cpu bs).map Prod.fst).flatten = bs ∧
      ∀ piece ∈ split cpu bs, ∃ words, StandsFor cpu piece.1 piece.2 words := by
  fun_induction split cpu bs with
  | case1 => exact ⟨rfl, by simp⟩
  | case2 b rest d hdecode ih =>
    obtain ⟨-, -, -, -, -, -, -, hpos⟩ := Cpu.encode_of_decode hdecode
    obtain ⟨words, hwords⟩ := standsFor_of_decode hdecode
    rw [List.take_cons hpos] at hwords
    refine ⟨by simp [ih.1], ?_⟩
    exact List.forall_mem_cons.mpr ⟨⟨words, hwords⟩, ih.2⟩
  | case3 b rest hdecode ih =>
    refine ⟨by simp [ih.1], ?_⟩
    exact List.forall_mem_cons.mpr ⟨standsFor_data cpu b, ih.2⟩

/-- Lines that put bytes into the code, for which there is room, and a blank line behind them. -/
lemma run_of_puts {cpu : Cpu} {pieces : List (List UInt8)}
    {words : List (List (TokenKind × String))} {lines : List SourceLine} {blank : SourceLine}
    (hputs : List.Forall₂ (Puts cpu) pieces words)
    (hlines : List.Forall₂ SourceLine.HasWords words lines) (hblank : blank.body = [])
    (a : Assembly) (hcpu : a.cpu = cpu) (hended : a.ended = false)
    (hend : a.code.endAddress + pieces.flatten.length ≤ 0x10000) :
    Assembly.Quiet a (a.run (lines ++ [blank])) ∧
      (a.run (lines ++ [blank])).code = a.code.append pieces.flatten := by
  induction hputs generalizing a lines with
  | nil =>
    cases hlines
    rw [List.nil_append, Assembly.run_cons _ _ hended, a.step_of_body_eq_nil hblank]
    exact ⟨Assembly.Quiet.refl a, (Segment.append_nil _).symm⟩
  | cons hput _ ih =>
    cases hlines with
    | cons hline hlines =>
      rw [List.flatten_cons, List.length_append] at hend
      obtain ⟨hquiet, hcode⟩ := hput a _ hcpu hline (by omega)
      obtain ⟨hquiet', hcode'⟩ := ih hlines _ (hquiet.cpu.trans hcpu) (hquiet.ended.trans hended)
        (by rw [hcode, Segment.endAddress_append]; omega)
      rw [List.cons_append, Assembly.run_cons _ _ hended]
      refine ⟨hquiet.trans hquiet', ?_⟩
      rw [hcode', hcode, List.flatten_cons, Segment.append_append]

/-- The words of the pieces of some bytes. -/
lemma exists_words {cpu : Cpu} {pieces : List (List UInt8 × String)}
    (h : ∀ piece ∈ pieces, ∃ words, StandsFor cpu piece.1 piece.2 words) :
    ∃ words, List.Forall₂ SourceLine.Spells (pieces.map Prod.snd) words ∧
      List.Forall₂ (Puts cpu) (pieces.map Prod.fst) words := by
  induction pieces with
  | nil => exact ⟨[], .nil, .nil⟩
  | cons piece pieces ih =>
    rw [List.forall_mem_cons] at h
    obtain ⟨words, hspells, hputs⟩ := h.1
    obtain ⟨wordss, hspellss, hputss⟩ := ih h.2
    exact ⟨words :: wordss, .cons hspells hspellss, .cons hputs hputss⟩

/-- The lines of the source fill the code with the bytes, and nothing else happens. -/
lemma run_source (cpu : Cpu) (width : Nat) (offset : UInt16) (bs : List UInt8)
    (hend : offset.toNat + bs.length ≤ 0x10000) :
    Assembly.Quiet { cpu }
        (({ cpu } : Assembly).run (SourceLine.ofText (source cpu width offset bs))) ∧
      (({ cpu } : Assembly).run (SourceLine.ofText (source cpu width offset bs))).code =
        { name := SegmentId.code.defaultName, offset, bytes := bs.toArray } := by
  obtain ⟨hbytes, hpieces⟩ := split_spec cpu bs
  obtain ⟨words, hspells, hputs⟩ := exists_words hpieces
  have horigin : SourceLine.Spells ("ORG " ++ Text.hexLiteral width offset)
      [(.org, "ORG"), (.number, Text.hexLiteral width offset)] := by
    refine ⟨?_, by simp⟩
    rw [show "ORG " = "ORG" ++ " " from rfl]
    exact scans_directive (by decide) (by decide) (by decide) width offset
  obtain ⟨lines, blank, hblank, hlines, htext⟩ := SourceLine.ofText_join (.cons horigin hspells)
  rw [source, htext]
  cases hlines with
  | @cons _ first _ lines hline hlines =>
    -- The first line gives the empty segment its address, the others fill it.
    obtain ⟨hquiet, hcode⟩ := Assembly.step_origin (a := { cpu }) hline
      (Text.value?_hexLiteral width offset) rfl
    have hroom : (({ cpu } : Assembly).step first).code.endAddress +
        ((split cpu bs).map Prod.fst).flatten.length ≤ 0x10000 := by
      rw [hcode, hbytes]
      exact hend
    obtain ⟨hquiet', hcode'⟩ :=
      run_of_puts hputs hlines hblank _ hquiet.cpu hquiet.ended hroom
    rw [List.cons_append, Assembly.run_cons _ _ rfl]
    refine ⟨hquiet.trans hquiet', ?_⟩
    rw [hcode', hcode, hbytes]
    simp [Segment.append]

/-- Disassembled bytes assemble to themselves, at their address and without a message. -/
theorem assemble_source (cpu : Cpu) (moduleName : String) (width : Nat) (offset : UInt16)
    (bs : List UInt8) (hend : offset.toNat + bs.length ≤ 0x10000) :
    (assemble cpu moduleName (source cpu width offset bs)).2 = {} ∧
      (assemble cpu moduleName (source cpu width offset bs)).1.object.get? .code =
        some { name := SegmentId.code.defaultName, offset, bytes := bs.toArray } := by
  obtain ⟨hquiet, hcode⟩ := run_source cpu width offset bs hend
  obtain ⟨hobject, hlog⟩ := Assembly.finish_of_settled moduleName (hquiet.settled (by simp))
  rw [assemble, assembleInto, hobject, ObjectCode.get?_put_self, hlog, hcode]
  exact ⟨hquiet.log, rfl⟩

/-- The last bytes of the machine, with a byte that starts no instruction and a cut one. -/
theorem assemble_source_of_cut_instruction :
    source .intel8085 4 0xFFFB [0x3E, 0xA0, 0x20, 0x08, 0xC3] =
        "ORG 0FFFBh\nMVI A,0A0h\nRIM\nDB 08h\nDB 0C3h\n" ∧
      (assemble .intel8085 "MAIN" (source .intel8085 4 0xFFFB [0x3E, 0xA0, 0x20, 0x08, 0xC3])).2 =
        {} ∧
      (assemble .intel8085 "MAIN"
          (source .intel8085 4 0xFFFB [0x3E, 0xA0, 0x20, 0x08, 0xC3])).1.object.get? .code =
        some { name := "CODE", offset := 0xFFFB, bytes := #[0x3E, 0xA0, 0x20, 0x08, 0xC3] } := by
  refine ⟨by decide +kernel, ?_⟩
  exact assemble_source .intel8085 "MAIN" 4 0xFFFB [0x3E, 0xA0, 0x20, 0x08, 0xC3] (by decide)

end Disassembly

end MicroAsm
