import Mathlib.Data.Nat.Digits.Defs
import MicroAsm.Instruction.Encoding
import MicroAsm.Proofs.Outcome
import MicroAsm.Proofs.Text.Hex

/-!
# Texts of one row

A text without a line break takes up one row wherever it is printed. Numbers are such texts, names
stay such texts in capitals, and so the faults of operands with such names are too.
-/

namespace MicroAsm

/-- The text stays on one row. -/
def Text.OneRow (s : String) : Prop :=
  '\n' ∉ s.toList

instance (s : String) : Decidable (Text.OneRow s) :=
  inferInstanceAs (Decidable ('\n' ∉ s.toList))

namespace Text

lemma OneRow.append {s s' : String} (h : OneRow s) (h' : OneRow s') : OneRow (s ++ s') := by
  simpa [OneRow] using ⟨h, h'⟩

lemma OneRow.right {s s' : String} (h : OneRow (s ++ s')) : OneRow s' := by
  rw [OneRow, String.toList_append, List.mem_append, not_or] at h
  exact h.2

lemma oneRow_nat (n : Nat) : OneRow (toString n) := by
  intro h
  have hdigit := Nat.isDigit_of_mem_toDigits (by decide) (Nat.le_refl 10) (Nat.toList_repr ▸ h)
  cases hdigit

lemma oneRow_int (n : Int) : OneRow (toString n) := by
  cases n with
  | ofNat n => exact oneRow_nat n
  | negSucc n => exact OneRow.append (s := "-") (by decide) (oneRow_nat (n + 1))

lemma oneRow_hex (width : Nat) (n : UInt16) : OneRow (hex width n) := by
  intro h
  rw [hex, String.toList_ofList] at h
  obtain ⟨k, hk, heq⟩ := exists_of_mem_hexDigits h
  have hdigits : ∀ k < 16, '\n' ≠ hexDigit k := by decide
  exact hdigits k hk heq

/-- Numbers that are no character stand for the first one. -/
lemma toNat_ofNat (n : Nat) : (Char.ofNat n).toNat = n ∨ (Char.ofNat n).toNat = 0 := by
  by_cases hvalid : n.isValidChar
  · left
    rw [Char.ofNat, dif_pos hvalid]
    rfl
  · right
    rw [Char.ofNat, dif_neg hvalid]
    rfl

lemma ofNat_ne_newline {n : Nat} (h : n ≠ 10) : '\n' ≠ Char.ofNat n := by
  intro heq
  have hcode : (Char.ofNat n).toNat = 10 := by rw [← heq]; rfl
  have hcases := toNat_ofNat n
  omega

lemma toUpper_ne_newline {c : Char} (h : c ≠ '\n') : '\n' ≠ c.toUpper := by
  by_cases hletter : c.val ≥ 'a'.val ∧ c.val ≤ 'z'.val
  · have hupper : c.toUpper = _ := dif_pos hletter
    have hval : c.toUpper.val = c.val + ('A'.val - 'a'.val) := by rw [hupper]
    intro heq
    have hcode := congrArg (·.val.toNat) heq
    simp only [hval] at hcode
    simp only [UInt32.le_iff_toNat_le, UInt32.toNat_add] at hletter hcode
    have hdistance : ('A'.val - 'a'.val).toNat = 4294967264 := by decide
    have hnewline : '\n'.val.toNat = 10 := by decide
    have hfirst : 'a'.val.toNat = 97 := by decide
    have hlast : 'z'.val.toNat = 122 := by decide
    omega
  · have hself : c.toUpper = c := dif_neg hletter
    rw [hself]
    exact Ne.symm h

/-- No other character has a line break for its capital form. -/
lemma newline_not_mem_capital {c : Char} (h : c ≠ '\n') : '\n' ∉ capital c := by
  have hsequences : ∀ entry ∈ capitalSequences, 10 ∉ entry.2 := by decide +kernel
  have hruns : ∀ run ∈ capitalRuns, 10 < run.first + run.shift := by decide +kernel
  rw [capital]
  split
  · rw [List.mem_singleton]
    exact toUpper_ne_newline h
  · split
    · rename_i seq hseq
      obtain ⟨front, rest, hentries, -⟩ := List.lookup_eq_some_iff.mp hseq
      have hseq' := hsequences (c.toNat, seq) (by simp [hentries])
      intro hmem
      obtain ⟨n, hn, heq⟩ := List.mem_map.mp hmem
      refine ofNat_ne_newline ?_ heq.symm
      rintro rfl
      exact hseq' hn
    · split
      · rename_i run hrun
        have hcovers := List.find?_some hrun
        have hshift := hruns run (List.mem_of_find?_eq_some hrun)
        simp only [CapitalRun.covers, Bool.and_eq_true, decide_eq_true_eq] at hcovers
        rw [List.mem_singleton]
        exact ofNat_ne_newline (by omega)
      · simpa using Ne.symm h

lemma OneRow.upper {s : String} (h : OneRow s) : OneRow (upper s) := by
  intro hmem
  rw [Text.upper, String.toList_ofList, List.mem_flatMap] at hmem
  obtain ⟨c, hc, hcapital⟩ := hmem
  refine newline_not_mem_capital ?_ hcapital
  rintro rfl
  exact h hc

end Text

/-! ### Faults of operands -/

lemma oneRow_outOfRangeText (bits : Nat) (v : Int) : Text.OneRow (outOfRangeText bits v) :=
  (((Text.OneRow.append (s := "Value out of range for ") (by decide) (Text.oneRow_nat bits)).append
    (by decide)).append (Text.oneRow_int v))

/-- The fault is told on one row. -/
def EncodingError.OneRow (e : EncodingError) : Prop :=
  Text.OneRow e.fault.text

namespace Operand

/-- The name of a register stays on one row. -/
def OneRow : Operand → Prop
  | register name => Text.OneRow name
  | value _ => True

variable {op : Operand} {family : Family} {position : Nat}

lemma oneRow_mismatch (family : Family) (operand : Option Nat) :
    EncodingError.OneRow ⟨.mismatch family, operand⟩ := by
  refine Text.OneRow.append (s := "Expected ") (by decide) ?_
  cases family <;> rw [Family.text] <;> decide

lemma yields_registerCode_oneRow {fault : String → EncodingFault}
    (hfault : ∀ name, Text.OneRow name → Text.OneRow (fault name).text) (h : op.OneRow) :
    Yields (fun _ => True) EncodingError.OneRow (op.registerCode family position fault) := by
  cases op with
  | register name =>
    rw [registerCode]
    split
    · trivial
    · exact hfault _ (Text.OneRow.upper h)
  | value v => exact oneRow_mismatch family _

lemma yields_pairCode_oneRow (pairs : PairSet) (h : op.OneRow) :
    Yields (fun _ => True) EncodingError.OneRow (op.pairCode family position pairs) := by
  cases op with
  | register name =>
    rw [pairCode]
    split
    · trivial
    · exact ((Text.OneRow.append (s := "Invalid register pair: ") (by decide)
        (Text.OneRow.upper h)).append (by decide)).append (by cases pairs <;> decide)
  | value v => exact oneRow_mismatch family _

lemma yields_word_oneRow (bits : Nat) (op : Operand) :
    Yields (fun _ => True) EncodingError.OneRow (op.word family position bits) := by
  cases op with
  | register name => exact oneRow_mismatch family _
  | value v =>
    rw [word]
    split
    · trivial
    · exact oneRow_outOfRangeText bits v

lemma yields_restartCode_oneRow (op : Operand) :
    Yields (fun _ => True) EncodingError.OneRow (op.restartCode family position) := by
  cases op with
  | register name => exact oneRow_mismatch family _
  | value v =>
    rw [restartCode]
    split
    · trivial
    · exact Text.OneRow.append (s := "Invalid RST code: ") (by decide) (Text.oneRow_int v)

end Operand

/-- Names that stay on one row are told so when an instruction cannot be encoded with them. -/
lemma Instruction.yields_encode_oneRow {i : Instruction} {operands : List Operand}
    (hmnemonic : Text.OneRow i.mnemonic) (h : ∀ op ∈ operands, op.OneRow) :
    Yields (fun _ => True) EncodingError.OneRow (i.encode operands) := by
  have hdestination : ∀ name, Text.OneRow name →
      Text.OneRow (EncodingFault.invalidDestination name).text :=
    fun name hname => Text.OneRow.append (s := "Invalid destination register: ") (by decide) hname
  have hsource : ∀ name, Text.OneRow name →
      Text.OneRow (EncodingFault.invalidSource name).text :=
    fun name hname => Text.OneRow.append (s := "Invalid source register: ") (by decide) hname
  have hregister : ∀ name, Text.OneRow name →
      Text.OneRow (EncodingFault.invalidRegister name).text :=
    fun name hname => Text.OneRow.append (s := "Invalid register: ") (by decide) hname
  rw [encode.eq_def]
  split
  · trivial
  · rename_i d s _
    refine (Operand.yields_registerCode_oneRow hdestination (h d (by simp))).bind fun dst _ => ?_
    refine (Operand.yields_registerCode_oneRow hsource (h s (by simp))).bind fun src _ => ?_
    split
    · exact Text.OneRow.append (s := "Incorrect opcode: ") (by decide)
        (hmnemonic.append (by decide))
    · trivial
  · rename_i r b _
    refine (Operand.yields_registerCode_oneRow hregister (h r (by simp))).bind fun reg _ => ?_
    exact (Operand.yields_word_oneRow 8 b).bind fun _ _ => trivial
  · rename_i pairs p w _
    refine (Operand.yields_pairCode_oneRow pairs (h p (by simp))).bind fun pair _ => ?_
    exact (Operand.yields_word_oneRow 16 w).bind fun _ _ => trivial
  · rename_i shift r _
    exact (Operand.yields_registerCode_oneRow hregister (h r (by simp))).bind fun _ _ => trivial
  · rename_i pairs p _
    exact (Operand.yields_pairCode_oneRow pairs (h p (by simp))).bind fun _ _ => trivial
  · rename_i a _
    exact (Operand.yields_word_oneRow 16 a).bind fun _ _ => trivial
  · rename_i b _
    exact (Operand.yields_word_oneRow 8 b).bind fun _ _ => trivial
  · rename_i n _
    exact (Operand.yields_restartCode_oneRow n).bind fun _ _ => trivial
  · exact Operand.oneRow_mismatch _ _

end MicroAsm
