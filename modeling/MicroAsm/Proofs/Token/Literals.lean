import MicroAsm.Proofs.Text.Hex
import MicroAsm.Proofs.Token.Lossless

/-!
# A literal as a text

A text that is a single lexeme is scanned as a single token. So is the hexadecimal literal of a
word, in however many digits it is written, and the value of this token is the word again.
-/

namespace MicroAsm

namespace Scanner

variable {s : Scanner} {front : List Char}

/-- The end of the file stands behind everything. -/
lemma Reached.tokens_of_rest_eq_nil (h : Reached front s) (hrest : s.rest = []) :
    s.tokens.1 = [] ∧ s.tokens.2.1 = ⟨.endOfFile, "", .behind front⟩ := by
  obtain ⟨gap, lexeme, htext, -, -, -, hlocation, -⟩ := h.nextToken
  have hmeasure : Lexeme.measure (s.rest.dropWhile Lexeme.isGap) = (.endOfFile, 0) := by
    rw [hrest]
    rfl
  obtain ⟨hkind, hvalue, -⟩ := nextToken_eq hmeasure
  obtain rfl : gap = [] := by
    rw [hrest, List.append_assoc, eq_comm, List.append_eq_nil_iff] at htext
    exact htext.1
  rw [tokens_of_eq hkind]
  refine ⟨rfl, ?_⟩
  rw [List.append_nil] at hlocation
  rw [hrest] at hvalue
  rw [← hkind, ← hlocation]
  exact congrArg (Token.mk _ · _) hvalue

/-- A text that is one lexeme is one token, and the end of the file stands behind it. -/
lemma tokens_ofText_of_lexes {kind : TokenKind} {text : String} (h : Lexes kind text.toList) :
    (ofText text).tokens.1 = [⟨kind, Lexeme.value kind text.toList, .behind []⟩] ∧
      (ofText text).tokens.2.1 = ⟨.endOfFile, "", .behind text.toList⟩ := by
  have hstart : Reached [] (ofText text) := ⟨rfl, by simp [Apart]⟩
  have hskip : (ofText text).skipGap = ofText text := by
    obtain ⟨c, cs, hcs⟩ := List.exists_cons_of_ne_nil h.ne_nil
    have hc := h.noGap c (by rw [hcs]; rfl)
    simp [skipGap, ofText, hcs, hc]
  have hmeasure : Lexeme.measure (ofText text).rest = (kind, text.toList.length) := by
    have hwhole := h.measure [] (by simp [Stops])
    rwa [List.append_nil] at hwhole
  have hnext : (ofText text).nextToken = (ofText text).cut kind text.toList.length := by
    rw [nextToken, hskip]
    simp only [hmeasure]
  have htoken : (ofText text).nextToken.1 =
      ⟨kind, Lexeme.value kind text.toList, .behind []⟩ := by
    rw [hnext, cut, ofText, List.take_length]
    rfl
  obtain ⟨lexeme, htext, -, -, hreached⟩ := hstart.cut hmeasure
  have hrest : ((ofText text).cut kind text.toList.length).2.rest = [] := by
    simp [cut, ofText]
  obtain rfl : text.toList = lexeme := by
    rwa [hrest, List.append_nil] at htext
  rw [tokens_of_ne (by rw [htoken]; exact h.kind_ne), htoken, hnext]
  obtain ⟨htokens, hlast⟩ := hreached.tokens_of_rest_eq_nil hrest
  exact ⟨by rw [htokens], hlast⟩

end Scanner

/-- In however many digits the literal of a word is written, it is scanned as one number that is
all of the text, with only the end of the file behind it, and the value of this number is the
word. -/
theorem tokens_hexLiteral (width : Nat) (n : UInt16) :
    let literal := Text.hexLiteral width n
    let t : Token := ⟨.number, literal, ⟨1, 1, 0⟩⟩
    (Scanner.ofText literal).tokens.1 = [t] ∧
      (Scanner.ofText literal).tokens.2.1 = ⟨.endOfFile, "", .behind literal.toList⟩ ∧
      t.number? = some (n.toNat : Int) := by
  intro literal t
  obtain ⟨htokens, hlast⟩ := Scanner.tokens_ofText_of_lexes (Text.lexes_hexLiteral width n)
  have htoken : ⟨.number, Lexeme.value .number literal.toList, .behind []⟩ = t :=
    congrArg (Token.mk _ · _) String.ofList_toList
  refine ⟨by rw [htokens, htoken], hlast, ?_⟩
  rw [Token.number?, if_pos rfl]
  exact Text.value?_hexLiteral width n

/-- A letter in front gets a zero, and the digit `B` in front of the mark is none for base two. -/
example : Text.hexLiteral 0 0xB = "0Bh" ∧ Numeral.value? "0Bh".toList = some 11 := by decide

end MicroAsm
