import MicroAsm.Proofs.Token.Lines

/-!
# Tokens without their places

A lexeme is no longer than the text. The tokens of a text do not depend on where the text starts,
but for their places, which are left out of the bare form of a token.
-/

namespace MicroAsm

namespace Lexeme

/-! ### The length of lexemes -/

lemma ofMarked_le (mark : Char) (base : Nat) (cs : List Char) :
    (ofMarked mark base cs).2 ≤ cs.length + 1 := by
  have hle := (List.takeWhile_sublist (l := cs) (Numeral.isDigitOf base)).length_le
  rw [ofMarked]
  split
  · simp
  · exact Nat.succ_le_succ hle

lemma ofQuoted_le (quote : Char) (cs : List Char) : (ofQuoted quote cs).2 ≤ cs.length + 1 := by
  have hle := (List.takeWhile_sublist (l := cs) fun c => c != quote && onLine c).length_le
  simp only [ofQuoted]
  split
  · -- The closing quote is part of the text.
    rename_i hquote
    have hlt : 0 < (cs.drop (cs.takeWhile fun c => c != quote && onLine c).length).length :=
      List.length_pos_of_mem (List.mem_of_head? hquote)
    rw [List.length_drop] at hlt
    omega
  · exact Nat.succ_le_succ hle

lemma ofRun_le (run : List Char) : (ofRun run).2 ≤ run.length := by
  rw [ofRun]
  split
  · exact Nat.le_refl _
  · split
    · exact Nat.le_refl _
    · split
      · exact (List.takeWhile_sublist _).length_le
      · exact Nat.le_refl _

/-- A lexeme is no longer than the text. -/
lemma ofFirst_le (c : Char) (cs : List Char) : (ofFirst c cs).2 ≤ cs.length + 1 := by
  have htake : ∀ p : Char → Bool, (c :: cs.takeWhile p).length ≤ cs.length + 1 :=
    fun p => Nat.succ_le_succ (List.takeWhile_sublist p).length_le
  simp only [ofFirst]
  split
  · simp
  · exact ofMarked_le _ _ _
  · split
    · exact htake onLine
    · split
      · exact ofQuoted_le _ _
      · split
        · exact Nat.le_trans (ofRun_le _) (htake _)
        · split
          · exact htake inName
          · simp

end Lexeme

/-! ### Bare lines -/

/-- The token without its place. -/
def Token.bare (t : Token) : Token :=
  { t with location := .none }

/-- The line without the places of its tokens. -/
def SourceLine.bare (line : SourceLine) : SourceLine :=
  ⟨line.body.map Token.bare, line.stop.bare⟩

namespace SourceLine

/-- Lines with one more token in front: a line break is a line of its own, any other token belongs
to the first line. -/
def inFront (t : Token) : List SourceLine → List SourceLine
  | [] => []
  | line :: lines =>
    if t.kind = .endOfLine then ⟨[], t⟩ :: line :: lines
    else ⟨t :: line.body, line.stop⟩ :: lines

lemma map_bare_inFront (t : Token) (lines : List SourceLine) :
    (inFront t lines).map bare = inFront t.bare (lines.map bare) := by
  cases lines with
  | nil => rfl
  | cons line lines =>
    have hkind : t.bare.kind = t.kind := rfl
    simp only [inFront, List.map_cons, hkind]
    split <;> rfl

lemma inFront_of_endOfLine {t : Token} {lines : List SourceLine} (ht : t.kind = .endOfLine)
    (h : lines ≠ []) : inFront t lines = ⟨[], t⟩ :: lines := by
  obtain ⟨line, lines, rfl⟩ := List.exists_cons_of_ne_nil h
  rw [inFront, if_pos ht]

/-- The next token comes in front of the lines of the rest of the text. -/
lemma ofScanner_eq_inFront {s : Scanner} (h : s.nextToken.1.kind ≠ .endOfFile) :
    ofScanner s = inFront s.nextToken.1 (ofScanner s.nextToken.2) := by
  by_cases heol : s.nextToken.1.kind = .endOfLine
  · rw [ofScanner_of_endOfLine heol, inFront_of_endOfLine heol (by simp [ofScanner])]
  · obtain ⟨line, lines, hlines, heq⟩ :=
      ofScanner_of_not_endsLine (TokenKind.endsLine_eq_false_iff.mpr ⟨heol, h⟩)
    rw [heq, hlines, inFront, if_neg heol]

end SourceLine

namespace Scanner

/-- The next token depends on the text only, but for its place. -/
lemma nextToken_congr {s s' : Scanner} (h : s.rest = s'.rest) :
    s.nextToken.1.kind = s'.nextToken.1.kind ∧ s.nextToken.1.bare = s'.nextToken.1.bare ∧
      s.nextToken.2.rest = s'.nextToken.2.rest := by
  simp only [nextToken, skipGap, cut, h, Token.bare, and_self]

end Scanner

namespace SourceLine

/-- The lines of a text do not depend on where it starts, but for the places of their tokens. -/
lemma map_bare_ofScanner_congr {s s' : Scanner} (h : s.rest = s'.rest) :
    (ofScanner s).map bare = (ofScanner s').map bare := by
  revert s'
  refine Scanner.tokens_rec (P := fun s => ∀ {s'}, s.rest = s'.rest →
    (ofScanner s).map bare = (ofScanner s').map bare) ?_ ?_ s
  · intro s hkind s' h
    obtain ⟨hsame, htoken, -⟩ := Scanner.nextToken_congr h
    rw [ofScanner, ofScanner, Scanner.tokens_of_eq hkind,
      Scanner.tokens_of_eq (hsame.symm.trans hkind)]
    simp [split, bare, htoken]
  · intro s hkind ih s' h
    obtain ⟨hsame, htoken, hrest⟩ := Scanner.nextToken_congr h
    have hkind' : s'.nextToken.1.kind ≠ .endOfFile := hsame ▸ hkind
    rw [ofScanner_eq_inFront hkind, ofScanner_eq_inFront hkind', map_bare_inFront,
      map_bare_inFront, htoken, ih hrest]

/-- Behind the last line break there is one line without tokens. -/
lemma exists_ofText_empty : ∃ blank : SourceLine, blank.body = [] ∧ ofText "" = [blank] := by
  have htokens : (Scanner.ofText "").tokens.1 = [] := Scanner.tokens_of_rest_eq_nil rfl
  refine ⟨⟨[], (Scanner.ofText "").tokens.2.1⟩, rfl, ?_⟩
  change ofScanner (Scanner.ofText "") = _
  rw [ofScanner, htokens]
  rfl

end SourceLine

end MicroAsm
