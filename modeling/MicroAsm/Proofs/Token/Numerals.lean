import Mathlib.Algebra.Group.Nat.Defs
import Mathlib.Data.List.Induction
import MicroAsm.Proofs.Text.Hex
import MicroAsm.Proofs.Token.Joining

/-!
# The numbers that are scanned

The scanner hands out a number only if it has digits, all of them of its base. So it has a value,
and the only thing that can be wrong with it is that the value is too large.
-/

namespace MicroAsm

/-- The positional value of a number token, however large. -/
def Token.magnitude? (t : Token) : Option Nat :=
  let (digits, base) := Numeral.split t.value.toList
  Numeral.natValue? base digits

namespace Numeral

/-- The numeral has digits, all of them of its base. -/
def Proper (cs : List Char) : Prop :=
  (split cs).1 ≠ [] ∧ ∀ c ∈ (split cs).1, isDigitOf (split cs).2 c = true

variable {base : Nat} {c : Char} {cs : List Char}

lemma exists_natValue? (h : ∀ c ∈ cs, isDigitOf base c = true) :
    ∃ n, natValue? base cs = some n := by
  induction cs using List.reverseRecOn with
  | nil => exact ⟨0, rfl⟩
  | append_singleton cs c ih =>
    rw [List.forall_mem_append, List.forall_mem_singleton] at h
    obtain ⟨n, hn⟩ := ih h.1
    obtain ⟨d, hd⟩ := Option.isSome_iff_exists.mp h.2
    refine ⟨n * base + d, ?_⟩
    rw [Text.natValue?_concat, hn, hd]
    rfl

/-- Digits without a sign have their positional value, unless it is too large. -/
lemma signedValue?_of_isDigitOf {n : Nat} (hdigit : isDigitOf base c = true)
    (hvalue : natValue? base (c :: cs) = some n) :
    signedValue? base (c :: cs) = if n < 2 ^ 63 then some (n : Int) else none := by
  have hplus : c ≠ '+' := by
    rintro rfl
    cases hdigit
  have hminus : c ≠ '-' := by
    rintro rfl
    cases hdigit
  have hleast : Int64Range.least ≤ (n : Int) := by
    rw [Int64Range.least]
    omega
  have hgreatest : (n : Int) ≤ Int64Range.greatest ↔ n < 2 ^ 63 := by
    rw [Int64Range.greatest]
    omega
  simp [signedValue?, hplus, hminus, hvalue, hleast, hgreatest, Option.filter_some]

/-- Digits without a sign have a value unless it is too large. -/
lemma isSome_signedValue?_iff {n : Nat} (hdigit : isDigitOf base c = true)
    (hvalue : natValue? base (c :: cs) = some n) :
    (signedValue? base (c :: cs)).isSome = true ↔ n < 2 ^ 63 := by
  rw [signedValue?_of_isDigitOf hdigit hvalue, Option.isSome_ite]

end Numeral

/-- A numeral has a value unless it is too large. -/
lemma Token.isSome_number?_iff {t : Token} (hkind : t.kind = .number)
    (h : Numeral.Proper t.value.toList) :
    t.number?.isSome = true ↔ ∃ n, t.magnitude? = some n ∧ n < 2 ^ 63 := by
  obtain ⟨hne, hdigits⟩ := h
  obtain ⟨n, hn⟩ := Numeral.exists_natValue? hdigits
  obtain ⟨c, cs, hcs⟩ := List.exists_cons_of_ne_nil hne
  have hmagnitude : t.magnitude? = some n := hn
  rw [hcs] at hdigits hn
  rw [number?, if_pos hkind, Numeral.value?]
  simp only [hcs, hmagnitude]
  rw [Numeral.isSome_signedValue?_iff (hdigits c List.mem_cons_self) hn]
  simp

/-! ### Lexemes -/

namespace Lexeme

variable {c : Char} {cs : List Char}

/-- A decimal digit names no base, neither in front nor behind. -/
lemma bases_of_isDigit (h : c.isDigit = true) :
    Numeral.leadingBase? c = none ∧ Numeral.trailingBase? c = none ∧
      Numeral.isDigitOf 10 c = true := by
  have hall : ∀ n < 58, 48 ≤ n → Numeral.leadingBase? (Char.ofNat n) = none ∧
      Numeral.trailingBase? (Char.ofNat n) = none ∧
      Numeral.isDigitOf 10 (Char.ofNat n) = true := by
    decide
  have hrange : 48 ≤ c.toNat ∧ c.toNat ≤ 57 := by
    simp only [Char.isDigit, Bool.and_eq_true, decide_eq_true_eq] at h
    exact h
  have hc := hall c.toNat (by omega) hrange.1
  rwa [Char.ofNat_toNat] at hc

/-- Decimal digits are their own digits. -/
lemma split_of_isDigit (h : ∀ c ∈ cs, c.isDigit = true) : Numeral.split cs = (cs, 10) := by
  have hleading : cs.head?.bind Numeral.leadingBase? = none := by
    rw [Option.bind_eq_none_iff]
    intro c hc
    exact (bases_of_isDigit (h c (List.mem_of_head? hc))).1
  have htrailing : cs.getLast?.bind Numeral.trailingBase? = none := by
    rw [Option.bind_eq_none_iff]
    intro c hc
    exact (bases_of_isDigit (h c (List.mem_of_getLast? hc))).2.1
  rw [Numeral.split, hleading, htrailing]

/-- Decimal digits are a numeral. -/
lemma proper_of_isDigit (hne : cs ≠ []) (h : ∀ c ∈ cs, c.isDigit = true) : Numeral.Proper cs := by
  rw [Numeral.Proper, split_of_isDigit h]
  exact ⟨hne, fun c hc => (bases_of_isDigit (h c hc)).2.2⟩

lemma proper_ofMarked {mark : Char} {base : Nat} (hmark : Numeral.leadingBase? mark = some base)
    (h : (ofMarked mark base cs).1 = .number) :
    Numeral.Proper ((mark :: cs).take (ofMarked mark base cs).2) := by
  rw [ofMarked] at h ⊢
  split at h
  · split at h <;> cases h
  · rename_i hne
    have htake : cs.takeWhile (Numeral.isDigitOf base) =
        cs.take (cs.takeWhile (Numeral.isDigitOf base)).length :=
      List.prefix_iff_eq_take.mp (List.takeWhile_prefix _)
    have hsplit : Numeral.split (mark :: cs.takeWhile (Numeral.isDigitOf base)) =
        (cs.takeWhile (Numeral.isDigitOf base), base) := by
      simp [Numeral.split, hmark]
    rw [List.take_succ_cons, ← htake, Numeral.Proper, hsplit]
    exact ⟨hne, List.all_eq_true.mp List.all_takeWhile⟩

lemma proper_of_hasTrailingBase (hdigit : c.isDigit = true)
    (h : hasTrailingBase (c :: cs) = true) : Numeral.Proper (c :: cs) := by
  rw [hasTrailingBase] at h
  split at h
  · rename_i base hbase
    obtain ⟨hlength, hdigits⟩ := Bool.and_eq_true_iff.mp h
    have hsplit : Numeral.split (c :: cs) = ((c :: cs).dropLast, base) := by
      rw [Numeral.split, hbase, List.head?_cons, Option.bind_some, (bases_of_isDigit hdigit).1]
    rw [Numeral.Proper, hsplit]
    refine ⟨?_, List.all_eq_true.mp hdigits⟩
    rw [← List.length_pos_iff, List.length_dropLast]
    exact Nat.sub_pos_of_lt (of_decide_eq_true hlength)
  · cases h

lemma proper_ofRun (hdigit : c.isDigit = true) (h : (ofRun (c :: cs)).1 = .number) :
    Numeral.Proper ((c :: cs).take (ofRun (c :: cs)).2) := by
  have hdecimal : Numeral.Proper ((c :: cs).takeWhile Char.isDigit) := by
    refine proper_of_isDigit ?_ (List.all_eq_true.mp List.all_takeWhile)
    simp [hdigit]
  by_cases htrailing : hasTrailingBase (c :: cs) = true
  · rw [ofRun, if_pos htrailing, List.take_length]
    exact proper_of_hasTrailingBase hdigit htrailing
  · rw [ofRun, if_neg htrailing] at h ⊢
    cases hdrop : (c :: cs).dropWhile Char.isDigit with
    | nil =>
      have hall : (c :: cs).takeWhile Char.isDigit = c :: cs := by
        rw [← List.append_nil (List.takeWhile _ _), ← hdrop, List.takeWhile_append_dropWhile]
      simp only
      rw [List.take_length, ← hall]
      exact hdecimal
    | cons d ds =>
      -- The number stops in front of a letter.
      rw [hdrop] at h
      simp only at h ⊢
      split at h
      · rename_i hletter
        rw [if_pos hletter, ← List.prefix_iff_eq_take.mp (List.takeWhile_prefix _)]
        exact hdecimal
      · cases h

/-- A lexeme that is a number is a numeral. -/
lemma proper_ofFirst (h : (ofFirst c cs).1 = .number) :
    Numeral.Proper ((c :: cs).take (ofFirst c cs).2) := by
  simp only [ofFirst] at h ⊢
  split at h
  · rename_i kind hpunctuation
    have hkind : kind = .number := h
    rw [punctuation?.eq_def, hkind] at hpunctuation
    split at hpunctuation <;> cases hpunctuation
  · rename_i base _ hmark
    exact proper_ofMarked hmark h
  · split at h
    · cases h
    · rename_i hcomment
      rw [if_neg hcomment]
      split at h
      · simp only [ofQuoted] at h
        split at h <;> cases h
      · rename_i hquote
        rw [if_neg hquote]
        split at h
        · rename_i hdigit
          rw [if_pos hdigit]
          have hprefix : c :: cs.takeWhile Char.isAlphanum <+: c :: cs :=
            List.cons_prefix_cons.mpr ⟨rfl, List.takeWhile_prefix _⟩
          obtain ⟨rest, hrest⟩ := hprefix
          rw [← hrest, List.take_append_of_le_length (ofRun_le _)]
          exact proper_ofRun hdigit h
        · split at h
          · rw [kindOfName, TokenKind.keyword?.eq_def] at h
            split at h <;> cases h
          · cases h

lemma proper_measure (h : (measure cs).1 = .number) :
    Numeral.Proper (cs.take (measure cs).2) := by
  rw [measure.eq_def] at h ⊢
  split at h
  · cases h
  · cases h
  · rename_i c cs _
    split at h
    · rename_i hline
      rw [if_pos hline]
      exact proper_ofFirst h
    · cases h

end Lexeme

namespace Scanner

/-- A token that is a number is a numeral. -/
lemma proper_nextToken {s : Scanner} (h : s.nextToken.1.kind = .number) :
    Numeral.Proper s.nextToken.1.value.toList := by
  have hmeasure : Lexeme.measure (s.rest.dropWhile Lexeme.isGap) =
      ((Lexeme.measure (s.rest.dropWhile Lexeme.isGap)).1,
        (Lexeme.measure (s.rest.dropWhile Lexeme.isGap)).2) := rfl
  obtain ⟨hkind, hvalue, -⟩ := nextToken_eq hmeasure
  rw [h] at hkind
  rw [← hkind] at hvalue
  have hchars : s.nextToken.1.value = String.ofList ((s.rest.dropWhile Lexeme.isGap).take
      (Lexeme.measure (s.rest.dropWhile Lexeme.isGap)).2) := hvalue
  rw [hchars, String.toList_ofList]
  exact Lexeme.proper_measure hkind.symm

lemma proper_of_mem_allTokens (s : Scanner) :
    ∀ t ∈ s.allTokens, t.kind = .number → Numeral.Proper t.value.toList := by
  refine tokens_rec (P := fun s => ∀ t ∈ s.allTokens, t.kind = .number →
    Numeral.Proper t.value.toList) ?_ ?_ s
  · intro s hkind
    rw [allTokens, tokens_of_eq hkind, List.nil_append, List.forall_mem_singleton]
    exact proper_nextToken
  · intro s hkind ih
    rw [allTokens, tokens_of_ne hkind, List.cons_append, List.forall_mem_cons]
    exact ⟨proper_nextToken, ih⟩

end Scanner

/-- The numbers of a physical line are numerals. -/
lemma SourceLine.proper_of_mem {text : String} {line : SourceLine} (hline : line ∈ ofText text) :
    ∀ t ∈ line.body, t.kind = .number → Numeral.Proper t.value.toList := by
  intro t ht
  refine (Scanner.ofText text).proper_of_mem_allTokens t ?_
  rw [← (divide_ofText text).tokens]
  exact List.mem_flatMap.mpr ⟨line, hline, List.mem_append_left _ ht⟩

end MicroAsm
