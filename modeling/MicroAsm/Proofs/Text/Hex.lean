import MicroAsm.Proofs.Token.Scanning
import MicroAsm.Text.Hex

/-!
# Hexadecimal literals

The literal of a word is scanned as one number, and the value of this number is the word, with
however many zeros in front it is written.
-/

namespace MicroAsm

namespace Text

lemma hexDigit_spec {k : Nat} (h : k < 16) :
    (hexDigit k).isAlphanum = true ∧ Numeral.digit? 16 (hexDigit k) = some k ∧
      ((hexDigit k).isAlpha = false → (hexDigit k).isDigit = true) := by
  have hall : ∀ k < 16, (hexDigit k).isAlphanum = true ∧
      Numeral.digit? 16 (hexDigit k) = some k ∧
      ((hexDigit k).isAlpha = false → (hexDigit k).isDigit = true) := by
    decide
  exact hall k h

lemma exists_of_mem_hexDigits {width n : Nat} {c : Char} (h : c ∈ hexDigits width n) :
    ∃ k < 16, c = hexDigit k := by
  induction width generalizing n with
  | zero => cases h
  | succ width ih =>
    rw [hexDigits, List.mem_append, List.mem_singleton] at h
    rcases h with h | rfl
    · exact ih h
    · exact ⟨n % 16, Nat.mod_lt _ (by decide), rfl⟩

lemma natValue?_concat (base : Nat) (cs : List Char) (c : Char) :
    Numeral.natValue? base (cs ++ [c]) =
      (Numeral.natValue? base cs).bind fun acc =>
        (Numeral.digit? base c).map (acc * base + ·) := by
  simp [Numeral.natValue?, List.foldlM_append]

/-- The digits of a number have its value if there are enough of them. -/
lemma natValue?_hexDigits {width n : Nat} (h : n >>> (4 * width) = 0) :
    Numeral.natValue? 16 (hexDigits width n) = some n := by
  induction width generalizing n with
  | zero =>
    obtain rfl : n = 0 := h
    rfl
  | succ width ih =>
    have hlt : n % 16 < 16 := Nat.mod_lt _ (by decide)
    have hshift : (n / 16) >>> (4 * width) = 0 := by
      rw [← h, Nat.mul_succ, Nat.add_comm, Nat.shiftRight_add, Nat.shiftRight_eq_div_pow n]
    rw [hexDigits, natValue?_concat, ih hshift, (hexDigit_spec hlt).2.1]
    simp only [Option.bind_some, Option.map_some, Option.some.injEq]
    omega

lemma shiftRight_hexWidth (n : UInt16) : n.toNat >>> (4 * hexWidth n.toNat) = 0 := by
  have hn := n.toNat_lt
  rw [hexWidth, Nat.shiftRight_eq_div_pow]
  split
  · omega
  · split
    · omega
    · split <;> omega

/-- A literal is made of hexadecimal digits with a decimal one in front, and ends with the letter
of the base. -/
lemma hexLiteral_spec (width : Nat) (n : UInt16) :
    ∃ c cs, (hexLiteral width n).toList = c :: cs ++ ['h'] ∧ c.isDigit = true ∧
      (∀ d ∈ c :: cs, ∃ k < 16, d = hexDigit k) ∧
      Numeral.natValue? 16 (c :: cs) = some n.toNat := by
  have hshift : n.toNat >>> (4 * max width (hexWidth n.toNat)) = 0 := by
    obtain ⟨k, hk⟩ := Nat.exists_eq_add_of_le (Nat.le_max_right width (hexWidth n.toNat))
    rw [hk, Nat.mul_add, Nat.shiftRight_add, shiftRight_hexWidth, Nat.zero_shiftRight]
  have hvalue := natValue?_hexDigits hshift
  rw [hexLiteral]
  cases hdigits : hexDigits (max width (hexWidth n.toNat)) n.toNat with
  | nil =>
    have hlength := length_hexDigits (max width (hexWidth n.toNat)) n.toNat
    have hpos : 0 < hexWidth n.toNat := by
      rw [hexWidth]
      split
      · decide
      · split
        · decide
        · split <;> decide
    rw [hdigits, List.length_nil] at hlength
    omega
  | cons c cs =>
    rw [hdigits] at hvalue
    have hmem : ∀ d ∈ c :: cs, ∃ k < 16, d = hexDigit k := by
      rw [← hdigits]
      intro d hd
      exact exists_of_mem_hexDigits hd
    simp only [String.toList_ofList]
    by_cases halpha : c.isAlpha = true
    · -- A letter in front gets a zero, which does not change the value.
      rw [if_pos halpha]
      refine ⟨'0', c :: cs, rfl, by decide, ?_, hvalue⟩
      exact List.forall_mem_cons.mpr ⟨⟨0, by decide, by decide⟩, hmem⟩
    · rw [if_neg halpha]
      obtain ⟨k, hk, rfl⟩ := hmem c List.mem_cons_self
      exact ⟨_, cs, rfl, (hexDigit_spec hk).2.2 (by simpa using halpha), hmem, hvalue⟩

lemma isDigitOf_hexDigit {cs : List Char} (h : ∀ d ∈ cs, ∃ k < 16, d = hexDigit k) :
    cs.all (Numeral.isDigitOf 16) = true := by
  rw [List.all_eq_true]
  intro d hd
  obtain ⟨k, hk, rfl⟩ := h d hd
  rw [Numeral.isDigitOf, (hexDigit_spec hk).2.1]
  rfl

/-- A literal is one number for the scanner. -/
lemma lexes_hexLiteral (width : Nat) (n : UInt16) :
    Lexes .number (hexLiteral width n).toList := by
  obtain ⟨c, cs, htext, hdigit, hdigits, -⟩ := hexLiteral_spec width n
  rw [htext, List.cons_append]
  refine Lexeme.lexes_run hdigit ?_ ?_
  · intro d hd
    rw [List.mem_append, List.mem_singleton] at hd
    rcases hd with hd | rfl
    · obtain ⟨k, hk, rfl⟩ := hdigits d (List.mem_cons_of_mem c hd)
      exact (hexDigit_spec hk).1
    · decide
  · have htrailing : Lexeme.hasTrailingBase (c :: (cs ++ ['h'])) = true := by
      rw [← List.cons_append, Lexeme.hasTrailingBase, List.getLast?_append, List.dropLast_concat]
      have hbase : Numeral.trailingBase? 'h' = some 16 := by decide
      simp [hbase, isDigitOf_hexDigit hdigits]
    rw [Lexeme.ofRun, if_pos htrailing]
    simp

/-- Digits without a sign stand for their positional value. -/
lemma signedValue?_of_isDigit {base n : Nat} {c : Char} {cs : List Char} (hdigit : c.isDigit = true)
    (hvalue : Numeral.natValue? base (c :: cs) = some n) (hn : n ≤ 0x7FFFFFFFFFFFFFFF) :
    Numeral.signedValue? base (c :: cs) = some (n : Int) := by
  have hplus : c ≠ '+' := by
    rintro rfl
    cases hdigit
  have hminus : c ≠ '-' := by
    rintro rfl
    cases hdigit
  have hle : (n : Int) ≤ 9223372036854775807 := by omega
  simp [Numeral.signedValue?, hplus, hminus, hvalue, Int64Range.least, Int64Range.greatest, hle]

/-- The value of a literal is the word. -/
lemma value?_hexLiteral (width : Nat) (n : UInt16) :
    Numeral.value? (hexLiteral width n).toList = some (n.toNat : Int) := by
  obtain ⟨c, cs, htext, hdigit, -, hvalue⟩ := hexLiteral_spec width n
  have hsplit : Numeral.split (c :: cs ++ ['h']) = (c :: cs, 16) := by
    have hmark : Numeral.leadingBase? c = none := (Lexeme.ordinary_of_isDigit hdigit).2.2.2.1
    have hbase : Numeral.trailingBase? 'h' = some 16 := by decide
    rw [Numeral.split, List.getLast?_append, List.dropLast_concat]
    simp [hmark, hbase]
  rw [htext, Numeral.value?, hsplit]
  exact signedValue?_of_isDigit hdigit hvalue (Nat.le_trans (Nat.le_of_lt n.toNat_lt) (by decide))

end Text

end MicroAsm
