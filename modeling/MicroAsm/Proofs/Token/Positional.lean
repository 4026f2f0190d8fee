import Mathlib.Data.List.TakeWhile
import Mathlib.Data.Nat.Digits.Defs
import MicroAsm.Proofs.Token.Numerals

/-!
# Numbers by their digits

A number is written with a mark of its base in front of its digits, with a letter for its base
behind them, or with decimal digits alone. The scanner and the evaluation of numbers find the base
each in its own way, but both find this one: a run of letters and digits is scanned as one number
if it is written so, and every number that is scanned has the positional value of its digits, as
long as that fits in a signed 64-bit word.
-/

namespace MicroAsm

namespace Numeral

/-- The marks in front of digits, with the bases that they name. -/
def marks : List (Char × Nat) :=
  [('$', 16), ('%', 2), ('@', 8)]

/-- The letters behind digits, with the bases that they name. -/
def letters : List (Char × Nat) :=
  [('H', 16), ('h', 16), ('O', 8), ('o', 8), ('Q', 8), ('q', 8), ('B', 2), ('b', 2)]

/-- There are digits, all of them of the base. -/
def Digits (base : Nat) (cs : List Char) : Prop :=
  cs ≠ [] ∧ ∀ c ∈ cs, isDigitOf base c = true

/-- The characters are written as a number with these digits in this base. -/
inductive Reads : (cs digits : List Char) → (base : Nat) → Prop
  | marked {mark : Char} {base : Nat} {digits : List Char} (hmark : marks.lookup mark = some base)
      (hdigits : Digits base digits) : Reads (mark :: digits) digits base
  | lettered {letter : Char} {base : Nat} {digits : List Char}
      (hletter : letters.lookup letter = some base) (hdigits : Digits base digits) :
      Reads (digits ++ [letter]) digits base
  | decimal {digits : List Char} (hne : digits ≠ []) (hdigits : ∀ c ∈ digits, c.isDigit = true) :
      Reads digits digits 10

/-- The value of digits by their places, the last of them counting ones. -/
def positional (base : Nat) (digits : List Char) : Nat :=
  Nat.ofDigits base (digits.reverse.map fun c => (digitValue c).getD 0)

/-! ### Bases -/

variable {base : Nat} {c : Char} {cs digits : List Char}

lemma leadingBase?_eq_lookup (c : Char) : leadingBase? c = marks.lookup c := by
  rw [leadingBase?.eq_def]
  split
  · rfl
  · rfl
  · rfl
  · rename_i hhex hbinary hoctal
    refine (List.lookup_eq_none_iff.mpr ?_).symm
    simpa [marks] using ⟨hhex, hbinary, hoctal⟩

lemma trailingBase?_eq_lookup (c : Char) : trailingBase? c = letters.lookup c := by
  by_cases hsmall : c.val ≥ 'a'.val ∧ c.val ≤ 'z'.val
  · have hall : ∀ k < 26, trailingBase? (Char.ofNat (97 + k)) =
        letters.lookup (Char.ofNat (97 + k)) := by
      decide
    have hrange : 97 ≤ c.toNat ∧ c.toNat ≤ 122 := hsmall
    have hc := hall (c.toNat - 97) (by omega)
    rwa [Nat.add_sub_cancel' hrange.1, Char.ofNat_toNat] at hc
  · have hself : c.toUpper = c := dif_neg hsmall
    have hne : ∀ s ∈ ['h', 'o', 'q', 'b'], c ≠ s := by
      rintro _ hs rfl
      simp only [List.mem_cons, List.not_mem_nil, or_false] at hs
      rcases hs with rfl | rfl | rfl | rfl <;> exact hsmall (by decide)
    rw [trailingBase?, hself]
    split
    · rfl
    · rfl
    · rfl
    · rfl
    · refine (List.lookup_eq_none_iff.mpr ?_).symm
      simp_all [letters]

/-- The digits of a base are no marks. -/
lemma leadingBase?_of_isDigitOf (h : isDigitOf base c = true) : leadingBase? c = none := by
  rw [leadingBase?.eq_def]
  split
  · cases h
  · cases h
  · cases h
  · rfl

lemma isDigit_of_isDigitOf (h : isDigitOf 10 c = true) : c.isDigit = true := by
  by_contra hdigit
  rw [isDigitOf, digit?, digitValue, if_neg hdigit] at h
  split at h
  · simp [Option.filter_some] at h
  · split at h <;> simp [Option.filter_some] at h

/-- A number that is written so is split into these digits and this base. -/
lemma Reads.split_eq (h : Reads cs digits base) : split cs = (digits, base) := by
  cases h with
  | marked hmark hdigits =>
    rw [← leadingBase?_eq_lookup] at hmark
    rw [split, List.head?_cons, Option.bind_some, hmark, List.tail_cons]
  | lettered hletter hdigits =>
    obtain ⟨c, cs, rfl⟩ := List.exists_cons_of_ne_nil hdigits.1
    rw [← trailingBase?_eq_lookup] at hletter
    have hmark := leadingBase?_of_isDigitOf (hdigits.2 c List.mem_cons_self)
    simp only [split, List.cons_append, List.head?_cons, Option.bind_some, hmark]
    rw [← List.cons_append, List.getLast?_concat, Option.bind_some, hletter, List.dropLast_concat]
  | decimal hne hdigits => exact Lexeme.split_of_isDigit hdigits

lemma Reads.hasDigits (h : Reads cs digits base) : Digits base digits := by
  cases h with
  | marked _ hdigits => exact hdigits
  | lettered _ hdigits => exact hdigits
  | decimal hne hdigits =>
    exact ⟨hne, fun c hc => (Lexeme.bases_of_isDigit (hdigits c hc)).2.2⟩

/-- Every numeral is written as a number. -/
lemma Proper.exists_reads (h : Proper cs) : ∃ digits base, Reads cs digits base := by
  obtain ⟨hne, hdigits⟩ := h
  cases hmark : cs.head?.bind leadingBase? with
  | some base =>
    obtain ⟨mark, hhead, hbase⟩ := Option.bind_eq_some_iff.mp hmark
    obtain ⟨digits, rfl⟩ := List.head?_eq_some_iff.mp hhead
    have hsplit : split (mark :: digits) = (digits, base) := by
      rw [split, hmark, List.tail_cons]
    rw [hsplit] at hne hdigits
    rw [leadingBase?_eq_lookup] at hbase
    exact ⟨digits, base, .marked hbase ⟨hne, hdigits⟩⟩
  | none =>
    cases hletter : cs.getLast?.bind trailingBase? with
    | some base =>
      obtain ⟨letter, hlast, hbase⟩ := Option.bind_eq_some_iff.mp hletter
      obtain ⟨digits, rfl⟩ := List.getLast?_eq_some_iff.mp hlast
      have hsplit : split (digits ++ [letter]) = (digits, base) := by
        rw [split, hmark, hletter, List.dropLast_concat]
      rw [hsplit] at hne hdigits
      rw [trailingBase?_eq_lookup] at hbase
      exact ⟨digits, base, .lettered hbase ⟨hne, hdigits⟩⟩
    | none =>
      have hsplit : split cs = (cs, 10) := by
        rw [split, hmark, hletter]
      rw [hsplit] at hne hdigits
      exact ⟨cs, 10, .decimal hne fun c hc => isDigit_of_isDigitOf (hdigits c hc)⟩

/-! ### Values -/

lemma positional_concat (base : Nat) (cs : List Char) (c : Char) :
    positional base (cs ++ [c]) = positional base cs * base + (digitValue c).getD 0 := by
  rw [positional, positional, List.reverse_concat, List.map_cons, Nat.ofDigits_cons,
    Nat.add_comm, Nat.mul_comm]

/-- Digits have their positional value. -/
lemma natValue?_eq_positional (h : ∀ c ∈ cs, isDigitOf base c = true) :
    natValue? base cs = some (positional base cs) := by
  induction cs using List.reverseRecOn with
  | nil => rfl
  | append_singleton cs c ih =>
    rw [List.forall_mem_append, List.forall_mem_singleton] at h
    obtain ⟨d, hd⟩ := Option.isSome_iff_exists.mp h.2
    have hvalue : digitValue c = some d := (Option.filter_eq_some_iff.mp hd).1
    rw [Text.natValue?_concat, ih h.1, hd, positional_concat, hvalue]
    rfl

/-- A number has the positional value of its digits, if that is not too large. -/
lemma Reads.value?_eq (h : Reads cs digits base) :
    value? cs = if positional base digits < 2 ^ 63 then some (positional base digits : Int)
      else none := by
  obtain ⟨hne, hdigits⟩ := h.hasDigits
  have hvalue := natValue?_eq_positional hdigits
  obtain ⟨c, cs', hcs⟩ := List.exists_cons_of_ne_nil hne
  rw [value?, h.split_eq]
  simp only
  rw [hcs] at hvalue hdigits ⊢
  exact signedValue?_of_isDigitOf (hdigits c List.mem_cons_self) hvalue

end Numeral

/-! ### Runs of letters and digits -/

namespace Lexeme

variable {run : List Char}

/-- A run of letters and digits with a digit first is written as a number if it has a letter for
its base behind digits of this base, or no letter at all. -/
lemma exists_reads_iff (hhead : ∃ c ∈ run.head?, c.isDigit = true) :
    (∃ digits base, Numeral.Reads run digits base) ↔
      hasTrailingBase run = true ∨ ∀ d ∈ run, d.isDigit = true := by
  constructor
  · rintro ⟨digits, base, hreads⟩
    cases hreads with
    | marked hmark hdigits =>
      obtain ⟨c, hc, hdigit⟩ := hhead
      cases hc
      rw [← Numeral.leadingBase?_eq_lookup, (bases_of_isDigit hdigit).1] at hmark
      cases hmark
    | lettered hletter hdigits =>
      left
      rw [← Numeral.trailingBase?_eq_lookup] at hletter
      rw [hasTrailingBase, List.getLast?_concat, Option.bind_some, hletter, List.dropLast_concat]
      simpa [List.length_pos_iff, hdigits.1] using hdigits.2
    | decimal hne hdigits => exact Or.inr hdigits
  · obtain ⟨c, hc, hdigit⟩ := hhead
    obtain ⟨cs, rfl⟩ := List.head?_eq_some_iff.mp hc
    rintro (hletter | hdigits)
    · exact (proper_of_hasTrailingBase hdigit hletter).exists_reads
    · exact ⟨_, 10, .decimal (List.cons_ne_nil c cs) hdigits⟩

/-- A run that is written as a number is one. -/
lemma ofRun_of_reads (hhead : ∃ c ∈ run.head?, c.isDigit = true)
    (h : ∃ digits base, Numeral.Reads run digits base) : ofRun run = (.number, run.length) := by
  rw [ofRun]
  rcases (exists_reads_iff hhead).mp h with hletter | hdigits
  · rw [if_pos hletter]
  · rw [List.dropWhile_eq_nil_iff.mpr hdigits, ite_self]

/-- Any other run has a letter behind its decimal digits, which decides what it is. -/
lemma ofRun_of_not_reads (hhead : ∃ c ∈ run.head?, c.isDigit = true)
    (h : ¬∃ digits base, Numeral.Reads run digits base) :
    ∃ digits c tail, run = digits ++ c :: tail ∧ (∀ d ∈ digits, d.isDigit = true) ∧
      c.isDigit = false ∧
      ofRun run = if Numeral.isDigitOf 16 c = true then (.number, digits.length)
        else (.unknown, run.length) := by
  rw [exists_reads_iff hhead, not_or] at h
  obtain ⟨hletter, hdigits⟩ := h
  cases hdrop : run.dropWhile Char.isDigit with
  | nil => exact absurd (List.dropWhile_eq_nil_iff.mp hdrop) hdigits
  | cons c tail =>
    have hrun : run = run.takeWhile Char.isDigit ++ c :: tail := by
      rw [← hdrop, List.takeWhile_append_dropWhile]
    refine ⟨run.takeWhile Char.isDigit, c, tail, hrun, List.all_eq_true.mp List.all_takeWhile,
      ?_, ?_⟩
    · have hhead := List.head?_dropWhile_not Char.isDigit run
      rw [hdrop] at hhead
      simpa using hhead
    · rw [ofRun, if_neg hletter, hdrop]

end Lexeme

namespace Scanner

/-- The next token of a text has this kind and these characters, and the rest is left. -/
def Takes (s : Scanner) (kind : TokenKind) (lexeme rest : List Char) : Prop :=
  s.nextToken.1.word = (kind, String.ofList lexeme) ∧ s.nextToken.2.rest = rest

variable {s : Scanner} {run rest : List Char}

/-- The token in front of a run of letters and digits. -/
lemma takes_of_ofRun (hrest : s.rest.dropWhile Lexeme.isGap = run ++ rest)
    (hhead : ∃ c ∈ run.head?, c.isDigit = true) (hrun : ∀ c ∈ run, c.isAlphanum = true)
    (hstop : ∀ c ∈ rest.head?, c.isAlphanum = false) {kind : TokenKind}
    (hkind : kind = .number ∨ kind = .unknown) {lexeme left : List Char}
    (hcut : run ++ rest = lexeme ++ left) (h : Lexeme.ofRun run = (kind, lexeme.length)) :
    s.Takes kind lexeme left := by
  obtain ⟨c, hc, hdigit⟩ := hhead
  obtain ⟨cs, rfl⟩ := List.head?_eq_some_iff.mp hc
  have hmeasure : Lexeme.measure (s.rest.dropWhile Lexeme.isGap) = (kind, lexeme.length) := by
    rw [hrest, Lexeme.measure_run hdigit (fun c hc => hrun c (List.mem_cons_of_mem _ hc)) hstop, h]
  obtain ⟨hk, hvalue, hleft⟩ := nextToken_eq hmeasure
  rw [hrest, hcut, List.take_left] at hvalue
  rw [hrest, hcut, List.drop_left] at hleft
  refine ⟨?_, hleft⟩
  rw [Token.word, hk, hvalue]
  rcases hkind with rfl | rfl <;> rfl

end Scanner

/-- A run of letters and digits with a digit first is scanned as one number if it is written as
a number. Otherwise its decimal digits are, if the letter behind them is a hexadecimal digit, and
if not, the run as a whole is unknown. And every number that is scanned is written as one, and its
value is the positional value of the digits, unless that does not fit in a signed 64-bit word. -/
theorem takes_run_and_number?_eq :
    (∀ (s : Scanner) (run rest : List Char),
      s.rest.dropWhile Lexeme.isGap = run ++ rest → (∃ c ∈ run.head?, c.isDigit = true) →
      (∀ c ∈ run, c.isAlphanum = true) → (∀ c ∈ rest.head?, c.isAlphanum = false) →
      ((∃ digits base, Numeral.Reads run digits base) → s.Takes .number run rest) ∧
      ((¬∃ digits base, Numeral.Reads run digits base) →
        ∃ digits c tail, run = digits ++ c :: tail ∧ (∀ d ∈ digits, d.isDigit = true) ∧
          c.isDigit = false ∧
          if Numeral.isDigitOf 16 c = true then s.Takes .number digits (c :: tail ++ rest)
          else s.Takes .unknown run rest)) ∧
    ∀ (text : String) (t : Token), t ∈ (Scanner.ofText text).tokens.1 → t.kind = .number →
      (∃ digits base, Numeral.Reads t.value.toList digits base) ∧
      ∀ digits base, Numeral.Reads t.value.toList digits base →
        t.number? = if Numeral.positional base digits < 2 ^ 63
          then some (Numeral.positional base digits : Int) else none := by
  constructor
  · intro s run rest hrest hhead hrun hstop
    constructor
    · intro hreads
      exact Scanner.takes_of_ofRun hrest hhead hrun hstop (Or.inl rfl) rfl
        (Lexeme.ofRun_of_reads hhead hreads)
    · intro hreads
      obtain ⟨digits, c, tail, hsplit, hdigits, hc, hofRun⟩ := Lexeme.ofRun_of_not_reads hhead hreads
      refine ⟨digits, c, tail, hsplit, hdigits, hc, ?_⟩
      split
      · rename_i hhex
        rw [if_pos hhex] at hofRun
        have hcut : run ++ rest = digits ++ (c :: tail ++ rest) := by
          rw [hsplit, List.append_assoc]
        exact Scanner.takes_of_ofRun hrest hhead hrun hstop (Or.inl rfl) hcut hofRun
      · rename_i hhex
        rw [if_neg hhex] at hofRun
        exact Scanner.takes_of_ofRun hrest hhead hrun hstop (Or.inr rfl) rfl hofRun
  · intro text t ht hkind
    have hmem : t ∈ (Scanner.ofText text).allTokens := List.mem_append_left _ ht
    refine ⟨((Scanner.ofText text).proper_of_mem_allTokens t hmem hkind).exists_reads, ?_⟩
    intro digits base hreads
    rw [Token.number?, if_pos hkind]
    exact hreads.value?_eq

/-- A numeral with the letter of its base behind it, and one that stops in front of a letter: twelve
in decimal digits is no number in binary ones. -/
theorem takes_lettered_and_cut :
    let s := Scanner.ofText " 0FFh+1"
    s.Takes .number ['0', 'F', 'F', 'h'] ['+', '1'] ∧ s.nextToken.1.number? = some 255 ∧
      (Scanner.ofText "12B").Takes .number ['1', '2'] ['B'] := by
  intro s
  obtain ⟨htakes, hvalue⟩ := takes_run_and_number?_eq
  have hreads : Numeral.Reads ['0', 'F', 'F', 'h'] ['0', 'F', 'F'] 16 :=
    @Numeral.Reads.lettered 'h' 16 ['0', 'F', 'F'] rfl ⟨by decide, List.all_eq_true.mp rfl⟩
  have htext : s.nextToken.1.value.toList = ['0', 'F', 'F', 'h'] := by decide
  have hmem : s.nextToken.1 ∈ s.tokens.1 := by
    rw [Scanner.tokens_of_ne (by decide)]
    exact List.mem_cons_self
  refine ⟨?_, ?_, ?_⟩
  · have hstop : ∀ c ∈ ['+', '1'].head?, c.isAlphanum = false := by
      rintro c ⟨⟩
      rfl
    exact (htakes s _ _ (by decide) ⟨'0', by decide, by decide⟩ (List.all_eq_true.mp rfl)
      hstop).1 ⟨_, _, hreads⟩
  · rw [(hvalue _ _ hmem (by decide)).2 _ _ (htext ▸ hreads)]
    decide
  · have hcut : ¬∃ digits base, Numeral.Reads ['1', '2', 'B'] digits base := by
      rw [Lexeme.exists_reads_iff ⟨'1', by decide, by decide⟩, ← List.all_eq_true]
      decide
    obtain ⟨digits, c, tail, hrun, hdigits, hc, htoken⟩ :=
      (htakes (Scanner.ofText "12B") ['1', '2', 'B'] [] (by decide) ⟨'1', by decide, by decide⟩
        (List.all_eq_true.mp rfl) nofun).2 hcut
    have htake : (digits ++ c :: tail).takeWhile Char.isDigit = digits := by
      rw [List.takeWhile_append_of_pos hdigits]
      simp [hc]
    rw [← hrun] at htake
    obtain rfl : ['1', '2'] = digits := htake
    cases hrun
    exact htoken

end MicroAsm
