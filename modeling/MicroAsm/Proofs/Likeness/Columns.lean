import MicroAsm.Proofs.Likeness.Basic
import MicroAsm.Proofs.Token.Lexemes

/-!
# Lines column by column

The same line of characters has like tokens wherever it stands in a text, as long as its columns
stand for each other.
-/

namespace MicroAsm

open List (Forall₂)

variable {L : Likeness}

/-- Places on the two lines stand for each other if they are in the same column. -/
def Likeness.Lines (L : Likeness) (number number' : Nat) : Prop :=
  ∀ l l' : Location, l.line = number → l'.line = number' → l.column = l'.column → L.place l l'

lemma Location.column_foldl_advance (cs : List Char) (l : Location) :
    (cs.foldl advance l).column = l.column + cs.length := by
  induction cs generalizing l with
  | nil => rfl
  | cons c cs ih =>
    rw [List.foldl_cons, ih, advance, List.length_cons, Nat.add_assoc, Nat.add_comm 1]

namespace Scanner

variable {line : List Char} {l l' : Location} {done : Bool}

lemma placeBehind_alike (hlines : L.Lines l.line l'.line) (hcolumn : l.column = l'.column)
    (cs : List Char) : L.place (placeBehind l cs) (placeBehind l' cs) := by
  refine hlines _ _ (Location.line_foldl_advance cs l) (Location.line_foldl_advance cs l') ?_
  simp only [placeBehind, Location.column_foldl_advance, hcolumn]

/-- A line has like tokens at both places. -/
lemma tokens_alike (hline : ∀ c ∈ line, Lexeme.onLine c = true) (hlines : L.Lines l.line l'.line)
    (hcolumn : l.column = l'.column) :
    Forall₂ (Token.Alike L) (tokens ⟨line, l, done⟩).1 (tokens ⟨line, l', done⟩).1 := by
  induction Lexeme.words_of_onLine hline generalizing l l' with
  | gap hgap =>
    rw [(tokens_of_gap hgap l done).1, (tokens_of_gap hgap l' done).1]
    exact .nil
  | @comment gap comment hgap h =>
    rw [tokens_of_leads hgap h rfl, tokens_of_leads hgap h rfl, (tokens_of_gap (by simp) _ _).1,
      (tokens_of_gap (by simp) _ _).1]
    exact .cons ⟨rfl, fun _ => rfl, .refl _, placeBehind_alike hlines hcolumn gap⟩ .nil
  | @word gap lexeme rest kind hgap h hkind _ ih =>
    have hends := (TokenKind.ne_of_isWord hkind).2
    rw [List.forall_mem_append, List.forall_mem_append] at hline
    rw [tokens_of_leads hgap h hends, tokens_of_leads hgap h hends]
    refine .cons ⟨rfl, fun _ => rfl, .refl _, placeBehind_alike hlines hcolumn gap⟩
      (ih hline.2.2 ?_ ?_)
    · rwa [Location.line_foldl_advance, Location.line_foldl_advance]
    · rw [Location.column_foldl_advance, Location.column_foldl_advance, hcolumn]

end Scanner

namespace SourceLine

variable {line cs cs' rest rest' : List Char} {l l' : Location} {done : Bool}

/-- The last lines of two texts. -/
lemma alike_of_last (hline : ∀ c ∈ line, Lexeme.onLine c = true) (hlines : L.Lines l.line l'.line)
    (hcolumn : l.column = l'.column) :
    SourceLine.Alike L
      ⟨(Scanner.tokens ⟨line, l, done⟩).1, (Scanner.tokens ⟨line, l, done⟩).2.1⟩
      ⟨(Scanner.tokens ⟨line, l', done⟩).1, (Scanner.tokens ⟨line, l', done⟩).2.1⟩ := by
  rw [Scanner.last_of_onLine hline, Scanner.last_of_onLine hline]
  exact ⟨Scanner.tokens_alike hline hlines hcolumn, rfl, fun _ => rfl, .refl _,
    Scanner.placeBehind_alike hlines hcolumn line⟩

/-- The first lines of two texts, with line breaks of any kind. -/
lemma alike_of_break (hline : ∀ c ∈ line, Lexeme.onLine c = true) (h : IsBreak cs rest)
    (h' : IsBreak cs' rest') (hlines : L.Lines l.line l'.line) (hcolumn : l.column = l'.column) :
    SourceLine.Alike L
      ⟨(Scanner.tokens ⟨line, l, done⟩).1,
        (Scanner.nextToken ⟨cs ++ rest, line.foldl Location.advance l, done⟩).1⟩
      ⟨(Scanner.tokens ⟨line, l', done⟩).1,
        (Scanner.nextToken ⟨cs' ++ rest', line.foldl Location.advance l', done⟩).1⟩ := by
  rw [h.nextToken, h'.nextToken]
  exact ⟨Scanner.tokens_alike hline hlines hcolumn, rfl, fun _ => rfl, .refl _,
    Scanner.placeBehind_alike hlines hcolumn line⟩

end SourceLine

end MicroAsm
