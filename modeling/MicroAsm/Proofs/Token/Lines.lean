import MicroAsm.Proofs.Token.Scanning

/-!
# The physical lines of a text

The tokens of a text are divided into lines after every line break. No token is lost or moved, a
line holds a line break or the end of the file at its end only, and every token of the n-th line
is located on line n. A comment takes in the rest of its line, so no token follows it there.
-/

namespace MicroAsm

lemma TokenKind.endsLine_eq_false_iff {kind : TokenKind} :
    kind.endsLine = false ↔ kind ≠ .endOfLine ∧ kind ≠ .endOfFile := by
  cases kind <;> simp [endsLine]

lemma Location.line_foldl_advance (cs : List Char) (l : Location) :
    (cs.foldl Location.advance l).line = l.line := by
  induction cs generalizing l with
  | nil => rfl
  | cons c cs ih => exact ih (l.advance c)

namespace Scanner

/-- Only a line break moves to another line. -/
lemma line_nextToken (s : Scanner) :
    s.nextToken.1.location.line = s.location.line ∧
      s.nextToken.2.location.line =
        if s.nextToken.1.kind = .endOfLine then s.location.line + 1 else s.location.line := by
  have hskip : s.skipGap.location.line = s.location.line := Location.line_foldl_advance _ _
  refine ⟨hskip, ?_⟩
  by_cases hkind : s.nextToken.1.kind = .endOfLine
  · have hcut : s.nextToken.2.location =
        s.skipGap.location.breakLine (Lexeme.measure s.skipGap.rest).2 := if_pos hkind
    rw [if_pos hkind, hcut, ← hskip]
    rfl
  · have hcut : s.nextToken.2.location = (s.skipGap.rest.take
        (Lexeme.measure s.skipGap.rest).2).foldl Location.advance s.skipGap.location :=
      if_neg hkind
    rw [if_neg hkind, hcut, Location.line_foldl_advance, hskip]

/-- The tokens of a scanner up to the end of the file, which comes last. -/
def allTokens (s : Scanner) : List Token :=
  s.tokens.1 ++ [s.tokens.2.1]

/-- What holds of the tokens of a scanner at the end of its text, and of those of a scanner with
one more token if it holds without that, holds of the tokens of every scanner. -/
lemma tokens_rec {P : Scanner → Prop}
    (hend : ∀ s : Scanner, s.nextToken.1.kind = .endOfFile → P s)
    (hnext : ∀ s : Scanner, s.nextToken.1.kind ≠ .endOfFile → P s.nextToken.2 → P s)
    (s : Scanner) : P s := by
  induction hlength : s.rest.length using Nat.strongRecOn generalizing s with
  | ind n ih =>
    by_cases hkind : s.nextToken.1.kind = .endOfFile
    · exact hend s hkind
    · have hlt := s.nextToken_rest_lt hkind
      exact hnext s hkind (ih _ (by omega) _ rfl)

end Scanner

namespace SourceLine

/-- The tokens of a line with the one that ends it. -/
def tokens (line : SourceLine) : List Token :=
  line.body ++ [line.stop]

/-- The lines that a scanner finds. -/
def ofScanner (s : Scanner) : List SourceLine :=
  (split s.tokens.2.1 s.tokens.1).1 :: (split s.tokens.2.1 s.tokens.1).2

lemma ofScanner_of_endOfLine {s : Scanner} (h : s.nextToken.1.kind = .endOfLine) :
    ofScanner s = ⟨[], s.nextToken.1⟩ :: ofScanner s.nextToken.2 := by
  rw [ofScanner, Scanner.tokens_of_ne (by simp [h])]
  simp [split, h, ofScanner]

lemma ofScanner_of_not_endsLine {s : Scanner} (h : s.nextToken.1.kind.endsLine = false) :
    ∃ line lines, ofScanner s.nextToken.2 = line :: lines ∧
      ofScanner s = ⟨s.nextToken.1 :: line.body, line.stop⟩ :: lines := by
  refine ⟨_, _, rfl, ?_⟩
  obtain ⟨hline, hfile⟩ := TokenKind.endsLine_eq_false_iff.mp h
  rw [ofScanner, Scanner.tokens_of_ne hfile]
  simp [split, hline]

/-- Lines have all tokens of a text in their order, one line behind every line break, and the
tokens of each line are located on the line of its number. -/
structure Divide (ts : List Token) (number : Nat) (lines : List SourceLine) : Prop where
  tokens : lines.flatMap SourceLine.tokens = ts
  body : ∀ line ∈ lines, ∀ t ∈ line.body, t.kind.endsLine = false
  stop : ∀ line ∈ lines.dropLast, line.stop.kind = .endOfLine
  last : lines.getLast?.map (·.stop.kind) = some .endOfFile
  number : ∀ numbered ∈ lines.zipIdx number, ∀ t ∈ numbered.1.tokens,
    t.location.line = numbered.2

/-- A line break in front is a line of its own. -/
lemma Divide.cons_line {ts : List Token} {number : Nat} {line : SourceLine}
    {lines : List SourceLine} {t : Token} (h : Divide ts (number + 1) (line :: lines))
    (hkind : t.kind = .endOfLine) (hline : t.location.line = number) :
    Divide (t :: ts) number (⟨[], t⟩ :: line :: lines) := by
  refine ⟨?_, ?_, ?_, ?_, ?_⟩
  · rw [List.flatMap_cons, h.tokens]
    rfl
  · rw [List.forall_mem_cons]
    exact ⟨by simp, h.body⟩
  · rw [List.dropLast_cons_cons, List.forall_mem_cons]
    exact ⟨hkind, h.stop⟩
  · rw [List.getLast?_cons_cons]
    exact h.last
  · rw [List.zipIdx_cons, List.forall_mem_cons]
    refine ⟨?_, h.number⟩
    simpa [SourceLine.tokens] using hline

/-- Any other token in front belongs to the first line. -/
lemma Divide.cons_token {ts : List Token} {number : Nat} {line : SourceLine}
    {lines : List SourceLine} {t : Token} (h : Divide ts number (line :: lines))
    (hkind : t.kind.endsLine = false) (hline : t.location.line = number) :
    Divide (t :: ts) number (⟨t :: line.body, line.stop⟩ :: lines) := by
  obtain ⟨htokens, hbody, hstop, hlast, hnumber⟩ := h
  rw [List.flatMap_cons] at htokens
  rw [List.forall_mem_cons] at hbody
  rw [List.zipIdx_cons, List.forall_mem_cons] at hnumber
  refine ⟨?_, ?_, ?_, ?_, ?_⟩
  · rw [List.flatMap_cons, ← htokens]
    rfl
  · rw [List.forall_mem_cons, List.forall_mem_cons]
    exact ⟨⟨hkind, hbody.1⟩, hbody.2⟩
  · cases lines with
    | nil => simp
    | cons line' lines =>
      rw [List.dropLast_cons_cons, List.forall_mem_cons] at hstop ⊢
      exact hstop
  · cases lines with
    | nil => exact hlast
    | cons line' lines =>
      rw [List.getLast?_cons_cons] at hlast ⊢
      exact hlast
  · rw [List.zipIdx_cons, List.forall_mem_cons]
    refine ⟨?_, hnumber.2⟩
    simp only [SourceLine.tokens, List.cons_append, List.forall_mem_cons]
    exact ⟨hline, hnumber.1⟩

/-- The lines of a text divide its tokens. -/
lemma divide_ofScanner (s : Scanner) : Divide s.allTokens s.location.line (ofScanner s) := by
  refine Scanner.tokens_rec (P := fun s => Divide s.allTokens s.location.line (ofScanner s))
    ?_ ?_ s
  · intro s hkind
    rw [Scanner.allTokens, ofScanner, Scanner.tokens_of_eq hkind]
    refine ⟨rfl, by simp [split], by simp [split], by simpa [split] using hkind, ?_⟩
    simpa [split, SourceLine.tokens] using s.line_nextToken.1
  · intro s hkind ih
    obtain ⟨hline, hafter⟩ := s.line_nextToken
    have htokens : s.allTokens = s.nextToken.1 :: s.nextToken.2.allTokens := by
      rw [Scanner.allTokens, Scanner.tokens_of_ne hkind]
      rfl
    rw [htokens]
    -- The next token comes in front of the lines that the rest of the text has.
    by_cases heol : s.nextToken.1.kind = .endOfLine
    · rw [ofScanner_of_endOfLine heol]
      rw [hafter, if_pos heol] at ih
      exact ih.cons_line heol hline
    · have hends := TokenKind.endsLine_eq_false_iff.mpr ⟨heol, hkind⟩
      obtain ⟨line, lines, hlines, heq⟩ := ofScanner_of_not_endsLine hends
      rw [heq]
      rw [hafter, if_neg heol, hlines] at ih
      exact ih.cons_token hends hline

lemma divide_ofText (text : String) :
    Divide (Scanner.ofText text).allTokens 1 (ofText text) :=
  divide_ofScanner (Scanner.ofText text)

namespace Divide

variable {ts : List Token} {number : Nat} {lines taken rest : List SourceLine}

lemma line_getElem (h : Divide ts number lines) {k : Nat} (hk : k < lines.length) :
    ∀ t ∈ lines[k].tokens, t.location.line = number + k := by
  refine h.number (lines[k], number + k) ?_
  rw [List.mk_mem_zipIdx_iff_le_and_getElem?_sub]
  simp [hk]

lemma endsLine_stop (h : Divide ts number lines) :
    ∀ line ∈ lines, line.stop.kind.endsLine = true := by
  intro line hline
  have hne : lines ≠ [] := List.ne_nil_of_mem hline
  rw [← List.dropLast_append_getLast hne, List.mem_append, List.mem_singleton] at hline
  rcases hline with hline | rfl
  · rw [h.stop line hline]
    rfl
  · have hlast := h.last
    rw [List.getLast?_eq_some_getLast hne, Option.map_some] at hlast
    rw [Option.some.inj hlast]
    rfl

/-- The tokens of the first lines are located on them. -/
lemma line_le (h : Divide ts 1 (taken ++ rest)) :
    ∀ line ∈ taken, ∀ t ∈ line.tokens, t.location.line ≤ taken.length := by
  intro line hline t ht
  obtain ⟨k, hk, rfl⟩ := List.mem_iff_getElem.mp hline
  have hnumber := h.line_getElem (k := k) (by simp; omega)
  rw [List.getElem_append_left hk] at hnumber
  rw [hnumber t ht]
  omega

/-- The tokens behind the first lines are located behind them. -/
lemma lt_line (h : Divide ts 1 (taken ++ rest)) :
    ∀ line ∈ rest, ∀ t ∈ line.tokens, taken.length < t.location.line := by
  intro line hline t ht
  obtain ⟨k, hk, rfl⟩ := List.mem_iff_getElem.mp hline
  have hnumber := h.line_getElem (k := taken.length + k) (by simp [hk])
  rw [List.getElem_append_right (Nat.le_add_right _ _)] at hnumber
  simp only [Nat.add_sub_cancel_left] at hnumber
  rw [hnumber t ht]
  omega

end Divide

end SourceLine

/-! ### Comments -/

/-- The kind is neither that of a comment nor that of the end of a line. -/
def TokenKind.isWord : TokenKind → Bool
  | comment | endOfLine | endOfFile => false
  | _ => true

lemma TokenKind.ne_of_isWord {kind : TokenKind} (h : kind.isWord = true) :
    kind ≠ .comment ∧ kind.endsLine = false := by
  cases kind <;> simp_all [isWord, endsLine]

namespace Lexeme

/-- Only a semicolon starts a comment, which takes in the rest of the line. -/
lemma ofFirst_cases (c : Char) (cs : List Char) :
    c = ';' ∧ ofFirst c cs = (.comment, (cs.takeWhile onLine).length + 1) ∨
      (ofFirst c cs).1.isWord = true := by
  have hpunctuation : ∀ kind, punctuation? c = some kind → kind.isWord = true := by
    intro kind h
    rw [punctuation?.eq_def] at h
    split at h <;> cases h <;> rfl
  have hmarked : ∀ base, (ofMarked c base cs).1.isWord = true := by
    intro base
    rw [ofMarked]
    split
    · split <;> rfl
    · rfl
  have hquoted : (ofQuoted c cs).1.isWord = true := by
    simp only [ofQuoted]
    split <;> rfl
  have hrun : ∀ run, (ofRun run).1.isWord = true := by
    intro run
    rw [ofRun]
    split
    · rfl
    · split
      · rfl
      · split <;> rfl
  have hname : ∀ name, (kindOfName name).isWord = true := by
    intro name
    rw [kindOfName, TokenKind.keyword?.eq_def]
    split <;> rfl
  simp only [ofFirst]
  split
  · rename_i hkind
    exact Or.inr (hpunctuation _ hkind)
  · exact Or.inr (hmarked _)
  · split
    · rename_i hc
      exact Or.inl ⟨hc, rfl⟩
    · split
      · exact Or.inr hquoted
      · split
        · exact Or.inr (hrun _)
        · split
          · exact Or.inr (hname _)
          · exact Or.inr rfl

/-- What starts with a character of a line is no end of the line. -/
lemma ofFirst_kind (c : Char) (cs : List Char) :
    (ofFirst c cs).1 ≠ .endOfLine ∧ (ofFirst c cs).1 ≠ .endOfFile := by
  rcases ofFirst_cases c cs with ⟨-, hcomment⟩ | hword
  · rw [hcomment]
    exact ⟨nofun, nofun⟩
  · constructor
    all_goals
      intro heq
      rw [heq] at hword
      cases hword

/-- Behind a comment the line is over. -/
lemma measure_drop_of_comment {cs : List Char} (h : (measure cs).1 = .comment) :
    ∀ c ∈ (cs.drop (measure cs).2).head?, onLine c = false := by
  rw [measure.eq_def] at h ⊢
  split at h
  · cases h
  · cases h
  · rename_i c cs _
    by_cases hc : onLine c = true
    · rw [if_pos hc] at h ⊢
      have hcomment : ofFirst c cs = (.comment, (cs.takeWhile onLine).length + 1) := by
        refine ((ofFirst_cases c cs).resolve_right ?_).2
        simp [h, TokenKind.isWord]
      rw [hcomment, List.drop_succ_cons]
      have hdrop : cs.drop (cs.takeWhile onLine).length = cs.dropWhile onLine := by
        calc cs.drop (cs.takeWhile onLine).length
            = (cs.takeWhile onLine ++ cs.dropWhile onLine).drop (cs.takeWhile onLine).length := by
              rw [List.takeWhile_append_dropWhile]
          _ = cs.dropWhile onLine := List.drop_left
      intro c' hc'
      rw [hdrop] at hc'
      have hhead := List.head?_dropWhile_not onLine cs
      rwa [hc'] at hhead
    · rw [if_neg hc] at h
      cases h

/-- A text that does not go on with its line has a line break or nothing in front. -/
lemma endsLine_measure {cs : List Char} (h : ∀ c ∈ cs.head?, onLine c = false) :
    (measure cs).1.endsLine = true := by
  rw [measure.eq_def]
  split
  · rfl
  · rfl
  · rename_i c cs _
    rw [if_neg (by simp [h c rfl])]
    rfl

end Lexeme

/-- Behind a comment comes the end of the line. -/
lemma Scanner.endsLine_of_comment {s : Scanner} (h : s.nextToken.1.kind = .comment) :
    s.nextToken.2.nextToken.1.kind.endsLine = true := by
  have hmeasure : ∀ cs, Lexeme.measure cs = ((Lexeme.measure cs).1, (Lexeme.measure cs).2) :=
    fun _ => rfl
  obtain ⟨hkind, -, hrest⟩ := nextToken_eq (hmeasure (s.rest.dropWhile Lexeme.isGap))
  rw [hkind] at h
  have hdrop := Lexeme.measure_drop_of_comment h
  rw [← hrest] at hdrop
  obtain ⟨hkind', -, -⟩ :=
    nextToken_eq (hmeasure (s.nextToken.2.rest.dropWhile Lexeme.isGap))
  have hgap : s.nextToken.2.rest.dropWhile Lexeme.isGap = s.nextToken.2.rest := by
    cases htext : s.nextToken.2.rest with
    | nil => rfl
    | cons c cs =>
      rw [List.dropWhile_cons_of_neg]
      simp [Lexeme.isGap, hdrop c (by rw [htext]; rfl)]
  rw [hkind', hgap]
  exact Lexeme.endsLine_measure hdrop

namespace SourceLine

/-- A line that is over at once is blank. -/
lemma body_of_endsLine {s : Scanner} (h : s.nextToken.1.kind.endsLine = true) {line : SourceLine}
    {lines : List SourceLine} (hlines : ofScanner s = line :: lines) : line.body = [] := by
  by_cases heol : s.nextToken.1.kind = .endOfLine
  · rw [ofScanner_of_endOfLine heol] at hlines
    rw [← (List.cons.inj hlines).1]
  · have hfile : s.nextToken.1.kind = .endOfFile := by
      by_contra hne
      rw [TokenKind.endsLine_eq_false_iff.mpr ⟨heol, hne⟩] at h
      cases h
    rw [ofScanner, Scanner.tokens_of_eq hfile] at hlines
    rw [← (List.cons.inj hlines).1]
    rfl

/-- A comment is the last token of its line. -/
lemma comment_last (text : String) :
    ∀ line ∈ ofText text, ∀ t ∈ line.body.dropLast, t.kind ≠ .comment := by
  refine Scanner.tokens_rec (P := fun s => ∀ line ∈ ofScanner s, ∀ t ∈ line.body.dropLast,
    t.kind ≠ .comment) ?_ ?_ (Scanner.ofText text)
  · intro s hkind
    rw [ofScanner, Scanner.tokens_of_eq hkind]
    simp [split]
  · intro s hkind ih
    by_cases heol : s.nextToken.1.kind = .endOfLine
    · rw [ofScanner_of_endOfLine heol, List.forall_mem_cons]
      exact ⟨by simp, ih⟩
    · have hends := TokenKind.endsLine_eq_false_iff.mpr ⟨heol, hkind⟩
      obtain ⟨line, lines, hlines, heq⟩ := ofScanner_of_not_endsLine hends
      rw [heq, List.forall_mem_cons]
      rw [hlines, List.forall_mem_cons] at ih
      refine ⟨?_, ih.2⟩
      cases hbody : line.body with
      | nil => simp
      | cons t ts =>
        rw [hbody] at ih
        rw [List.dropLast_cons_cons, List.forall_mem_cons]
        refine ⟨?_, ih.1⟩
        intro hcomment
        cases hbody.symm.trans (body_of_endsLine (Scanner.endsLine_of_comment hcomment) hlines)

end SourceLine

end MicroAsm
