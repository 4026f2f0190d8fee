import MicroAsm.Parser.Cursor
import MicroAsm.Proofs.Token.Lines
import MicroAsm.Statement.Reader

/-!
# The tokens in front of a cursor

A cursor stands for the tokens it has not left behind yet, the current one first. Looking ahead
does not change them, and moving forward takes the first one off. So what a cursor passes is told
apart from what it leaves: while a line is read its tokens become fewer, and the tokens of the
lines behind it stay as they are.
-/

namespace MicroAsm

namespace Cursor

/-- The tokens from a given one on, in front of those that are still to be scanned. -/
def follow (scanner : Scanner) (t : Token) : List Token :=
  if t.kind = .endOfFile then [t] else t :: scanner.allTokens

lemma exists_follow_eq_cons (scanner : Scanner) (t : Token) :
    ∃ rest, follow scanner t = t :: rest := by
  rw [follow]
  split <;> exact ⟨_, rfl⟩

lemma allTokens_eq_follow (s : Scanner) : s.allTokens = follow s.nextToken.2 s.nextToken.1 := by
  rw [Scanner.allTokens, follow]
  split
  · rw [Scanner.tokens_of_eq ‹_›]
    rfl
  · rw [Scanner.tokens_of_ne ‹_›]
    rfl

/-- The tokens after the current one. -/
def behind (c : Cursor) : List Token :=
  match c.peeked with
  | some t => follow c.scanner t
  | none => c.scanner.allTokens

/-- The tokens from the current one on, up to the end of the file. -/
def upcoming (c : Cursor) : List Token :=
  if c.token.kind = .endOfFile then [c.token] else c.token :: c.behind

variable {c : Cursor} {stop t : Token} {more ts : List Token}

lemma upcoming_ofText (text : String) :
    (ofText text).upcoming = (Scanner.ofText text).allTokens := by
  rw [allTokens_eq_follow]
  rfl

lemma token_of_upcoming (h : c.upcoming = t :: ts) : c.token = t := by
  rw [upcoming] at h
  split at h
  · exact (List.cons.inj h).1
  · exact (List.cons.inj h).1

/-- Moving forward takes the current token off. -/
lemma upcoming_eq_cons (h : c.token.kind ≠ .endOfFile) :
    c.upcoming = c.token :: c.advance.upcoming := by
  rw [upcoming, if_neg h, behind, advance]
  cases c.peeked with
  | some t => rfl
  | none =>
    simp only [allTokens_eq_follow]
    rfl

/-- Looking ahead gives the token that comes next and changes nothing. -/
lemma behind_peek (c : Cursor) :
    c.peek.2.behind = c.behind ∧ ∃ rest, c.behind = c.peek.1 :: rest := by
  cases hpeeked : c.peeked with
  | some t =>
    have hpeek : c.peek = (t, c) := by rw [peek, hpeeked]
    rw [hpeek, behind, hpeeked]
    exact ⟨rfl, exists_follow_eq_cons _ t⟩
  | none =>
    simp only [peek, behind, hpeeked, allTokens_eq_follow c.scanner, true_and]
    exact exists_follow_eq_cons _ _

lemma upcoming_peek (c : Cursor) : c.peek.2.upcoming = c.upcoming := by
  rw [upcoming, upcoming, token_peek, (behind_peek c).1]

/-! ### Cursors on a line -/

/-- A cursor on a line: some of its tokens are still to come, then the one that ends it, then those
of the lines behind it. -/
structure OnLine (c : Cursor) (stop : Token) (more ts : List Token) : Prop where
  upcoming : c.upcoming = ts ++ stop :: more
  body : ∀ t ∈ ts, t.kind.endsLine = false
  stop : stop.kind.endsLine = true

namespace OnLine

lemma token_eq (h : c.OnLine stop more ts) : c.token = Reader.current stop ts := by
  have hupcoming := h.upcoming
  cases ts with
  | nil => exact token_of_upcoming hupcoming
  | cons t ts => exact token_of_upcoming hupcoming

/-- Where the line ends no other token is found. -/
lemma kind_current_ne (h : c.OnLine stop more ts) {kind : TokenKind}
    (hkind : kind.endsLine = false) : (Reader.current stop []).kind ≠ kind := by
  rintro rfl
  exact absurd (h.stop.symm.trans hkind) (by decide)

/-- A token of the line itself is taken off. -/
lemma advance (h : c.OnLine stop more (t :: ts)) : c.advance.OnLine stop more ts := by
  have hbody := List.forall_mem_cons.mp h.body
  have hkind : c.token.kind ≠ .endOfFile := by
    rw [h.token_eq]
    exact (TokenKind.endsLine_eq_false_iff.mp hbody.1).2
  have hupcoming := h.upcoming
  rw [upcoming_eq_cons hkind] at hupcoming
  exact ⟨(List.cons.inj hupcoming).2, hbody.2, h.stop⟩

lemma peek_snd (h : c.OnLine stop more ts) : c.peek.2.OnLine stop more ts :=
  ⟨c.upcoming_peek.trans h.upcoming, h.body, h.stop⟩

lemma peek_fst (h : c.OnLine stop more (t :: ts)) : c.peek.1 = Reader.current stop ts := by
  have hbody := List.forall_mem_cons.mp h.body
  have hkind : c.token.kind ≠ .endOfFile := by
    rw [h.token_eq]
    exact (TokenKind.endsLine_eq_false_iff.mp hbody.1).2
  have hupcoming := h.upcoming
  obtain ⟨-, rest, hrest⟩ := c.behind_peek
  rw [Cursor.upcoming, if_neg hkind, hrest] at hupcoming
  have hbehind := (List.cons.inj hupcoming).2
  cases ts with
  | nil => exact (List.cons.inj hbehind).1
  | cons t ts => exact (List.cons.inj hbehind).1

/-- The current token ends the line when nothing else is left of it. -/
lemma endsLine_token (h : c.OnLine stop more ts) : c.token.kind.endsLine = ts.isEmpty := by
  rw [h.token_eq]
  cases ts with
  | nil => exact h.stop
  | cons t ts => exact h.body t List.mem_cons_self

/-- Where nothing else is left of the line it is over, or the text is. -/
lemma kind_token_of_nil (h : c.OnLine stop more []) (hkind : c.token.kind ≠ .endOfFile) :
    c.token.kind = .endOfLine := by
  by_contra hne
  have hends := TokenKind.endsLine_eq_false_iff.mpr ⟨hne, hkind⟩
  rw [h.endsLine_token] at hends
  cases hends

/-- Skipping takes the rest of the line off and nothing more. -/
lemma skipTokens (h : c.OnLine stop more ts) : c.skipTokens.OnLine stop more [] := by
  induction ts generalizing c with
  | nil =>
    rw [Cursor.skipTokens, if_pos (by simp [h.endsLine_token])]
    exact h
  | cons t ts ih =>
    rw [Cursor.skipTokens, if_neg (by simp [h.endsLine_token])]
    exact ih h.advance

/-- Behind a line break the next line is to come, and the end of the file is never left. -/
lemma skipBreak (h : c.OnLine stop more []) :
    (stop.kind = .endOfLine ∧ c.skipBreak.upcoming = more) ∨
      (stop.kind = .endOfFile ∧ c.skipBreak.upcoming = [stop]) := by
  have htoken : c.token = stop := h.token_eq
  rw [Cursor.skipBreak, htoken]
  by_cases hline : stop.kind = .endOfLine
  · rw [if_pos hline]
    have hupcoming := h.upcoming
    rw [upcoming_eq_cons (by rw [htoken, hline]; decide)] at hupcoming
    exact .inl ⟨hline, (List.cons.inj hupcoming).2⟩
  · have hfile : stop.kind = .endOfFile := by
      by_contra hne
      have hends := TokenKind.endsLine_eq_false_iff.mpr ⟨hline, hne⟩
      exact absurd (hends.symm.trans h.stop) (by decide)
    rw [if_neg hline, Cursor.upcoming, htoken, if_pos hfile]
    exact .inr ⟨hfile, rfl⟩

end OnLine

end Cursor

end MicroAsm
