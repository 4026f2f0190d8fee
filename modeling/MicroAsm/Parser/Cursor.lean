import MicroAsm.Token.Scanner

/-!
# Cursors

A cursor stands on one token of a text and can look at the one after it. The text behind these
two has not been scanned yet: every step forward takes the token that was looked at, or scans
the next one.

`Cursor.remaining` bounds the tokens still to come. Moving forward never makes it greater, and from
any token but the end of the file it makes it smaller, so every loop that moves forward until the
end of a line or of the file ends.
-/

namespace MicroAsm

/-- A place among the tokens of a text that is scanned on demand. -/
structure Cursor where
  /-- Reads what comes after the tokens below. -/
  scanner : Scanner
  token : Token
  /-- The token after the current one, if it was looked at. -/
  peeked : Option Token := none

namespace Cursor

/-- A cursor on the first token of a text. -/
def ofText (text : String) : Cursor :=
  let (token, scanner) := (Scanner.ofText text).nextToken
  { scanner, token }

/-- Moves to the next token. -/
def advance (c : Cursor) : Cursor :=
  match c.peeked with
  | some token => { c with token, peeked := none }
  | none =>
    let (token, scanner) := c.scanner.nextToken
    { c with token, scanner }

/-- Looks at the next token without moving to it. -/
def peek (c : Cursor) : Token × Cursor :=
  match c.peeked with
  | some token => (token, c)
  | none =>
    let (token, scanner) := c.scanner.nextToken
    (token, { c with scanner, peeked := some token })

/-! ### Moving forward ends -/

/-- One for every token but the end of the file. -/
def weight (t : Token) : Nat :=
  if t.kind = .endOfFile then 0 else 1

/-- How many characters were not scanned, and how many tokens were, the end left out. -/
def remaining (c : Cursor) : Nat :=
  c.scanner.rest.length + weight c.token + (c.peeked.map weight).getD 0

/-- Scanning a token that is not the end takes something off the text. -/
theorem rest_nextToken_add_weight_le (s : Scanner) :
    s.nextToken.2.rest.length + weight s.nextToken.1 ≤ s.rest.length := by
  rw [weight]
  split
  · have hle := s.length_rest_skipGap_le
    simp only [Scanner.nextToken, Scanner.cut, List.length_drop]
    omega
  · have hlt := s.nextToken_rest_lt ‹_›
    omega

theorem remaining_advance (c : Cursor) : c.advance.remaining + weight c.token ≤ c.remaining := by
  have hscan := rest_nextToken_add_weight_le c.scanner
  rw [advance]
  cases h : c.peeked <;> simp only [remaining, h, Option.map, Option.getD] <;> omega

theorem remaining_advance_le (c : Cursor) : c.advance.remaining ≤ c.remaining :=
  Nat.le_trans (Nat.le_add_right _ _) c.remaining_advance

theorem remaining_advance_lt {c : Cursor} (h : c.token.kind ≠ .endOfFile) :
    c.advance.remaining < c.remaining := by
  have hadvance := c.remaining_advance
  rw [weight, if_neg h] at hadvance
  omega

theorem remaining_peek_le (c : Cursor) : c.peek.2.remaining ≤ c.remaining := by
  have hscan := rest_nextToken_add_weight_le c.scanner
  rw [peek]
  cases h : c.peeked <;> simp only [remaining, h, Option.map, Option.getD] <;> omega

@[simp] theorem token_peek (c : Cursor) : c.peek.2.token = c.token := by
  cases h : c.peeked <;> simp [peek, h]

/-- Another cursor is further on, or still on the same token. From the end of the file there is
nowhere to go, so nothing is asked of the token then. -/
def Ahead (c d : Cursor) : Prop :=
  d.remaining < c.remaining ∨
    d.remaining ≤ c.remaining ∧ (d.token = c.token ∨ c.token.kind = .endOfFile)

namespace Ahead

variable {c d e : Cursor}

theorem refl (c : Cursor) : c.Ahead c := .inr ⟨Nat.le_refl _, .inl rfl⟩

theorem le (h : c.Ahead d) : d.remaining ≤ c.remaining := by
  obtain hlt | ⟨hle, -⟩ := h
  · exact Nat.le_of_lt hlt
  · exact hle

theorem trans (h : c.Ahead d) (h' : d.Ahead e) : c.Ahead e := by
  obtain hlt | ⟨hle, hsame⟩ := h
  · exact .inl (Nat.lt_of_le_of_lt h'.le hlt)
  obtain hlt | ⟨hle', hsame'⟩ := h'
  · exact .inl (Nat.lt_of_lt_of_le hlt hle)
  refine .inr ⟨Nat.le_trans hle' hle, ?_⟩
  obtain heq | hend := hsame
  · rwa [heq] at hsame'
  · exact .inr hend

theorem advance (c : Cursor) : c.Ahead c.advance := by
  by_cases h : c.token.kind = .endOfFile
  · exact .inr ⟨c.remaining_advance_le, .inr h⟩
  · exact .inl (remaining_advance_lt h)

theorem peek (c : Cursor) : c.Ahead c.peek.2 :=
  .inr ⟨c.remaining_peek_le, .inl c.token_peek⟩

end Ahead

/-- Skips tokens up to the one that ends the line. -/
def skipTokens (c : Cursor) : Cursor :=
  if c.token.kind.endsLine then c else c.advance.skipTokens
termination_by c.remaining
decreasing_by
  rename_i h
  exact remaining_advance_lt fun hkind => h (by simp [hkind, TokenKind.endsLine])

/-- Leaves a line break behind, and stays on any other token. -/
def skipBreak (c : Cursor) : Cursor :=
  if c.token.kind = .endOfLine then c.advance else c

/-- Skips the rest of the line and its end. -/
def skipLine (c : Cursor) : Cursor :=
  c.skipTokens.skipBreak

/-- Skips line breaks and comments. -/
def skipComments (c : Cursor) : Cursor :=
  if c.token.kind = .endOfLine ∨ c.token.kind = .comment then c.advance.skipComments else c
termination_by c.remaining
decreasing_by
  rename_i h
  exact remaining_advance_lt fun hkind => by simp [hkind] at h

theorem ahead_skipTokens (c : Cursor) : c.Ahead c.skipTokens := by
  fun_induction skipTokens c with
  | case1 c h => exact .refl c
  | case2 c h ih => exact (Ahead.advance c).trans ih

theorem ahead_skipBreak (c : Cursor) : c.Ahead c.skipBreak := by
  rw [skipBreak]
  split
  · exact .advance c
  · exact .refl c

theorem remaining_skipLine_le (c : Cursor) : c.skipLine.remaining ≤ c.remaining :=
  (c.ahead_skipTokens.trans c.skipTokens.ahead_skipBreak).le

/-- From a token that does not end the line something is skipped. -/
theorem remaining_skipLine_lt {c : Cursor} (h : c.token.kind.endsLine = false) :
    c.skipLine.remaining < c.remaining := by
  have hkind : c.token.kind ≠ .endOfFile := by
    intro hend
    simp [hend, TokenKind.endsLine] at h
  have hle := c.advance.remaining_skipLine_le
  have hlt := remaining_advance_lt hkind
  rw [skipLine, skipTokens, if_neg (by simp [h])]
  rw [skipLine] at hle
  omega

end Cursor

end MicroAsm
