import Mathlib.Data.List.TakeWhile
import MicroAsm.Proofs.Token.Cutting

/-!
# Texts lexeme by lexeme

A text is a gap, a lexeme and the rest of the text, and the scanner goes from one lexeme to the
next. A line is made of words with gaps in front of them, and may have a comment at its end. A
function on lexemes may put others in their place and leaves the gaps as they are.
-/

namespace MicroAsm

namespace Lexeme

variable {c : Char} {cs : List Char}

lemma isGap_of_not_onLine (h : onLine c = false) : isGap c = false := by
  rw [isGap, h, Bool.and_false]

lemma noGap (hgap : ∀ c ∈ cs.head?, isGap c = false) :
    cs.takeWhile isGap = [] ∧ cs.dropWhile isGap = cs := by
  cases cs with
  | nil => exact ⟨rfl, rfl⟩
  | cons c cs =>
    have hc : ¬isGap c = true := by simp [hgap c rfl]
    exact ⟨List.takeWhile_cons_of_neg hc, List.dropWhile_cons_of_neg hc⟩

lemma noGap_dropWhile (cs : List Char) :
    ∀ c ∈ (cs.dropWhile isGap).head?, isGap c = false := by
  intro c hc
  have hnot := List.head?_dropWhile_not isGap cs
  rw [hc] at hnot
  exact hnot

lemma measure_le (cs : List Char) : (measure cs).2 ≤ cs.length := by
  rcases measure_cases cs with ⟨-, heq⟩ | ⟨lexeme, rest, rfl, heq, -⟩ | ⟨c, rest, rfl, -, heq⟩
  · rw [heq]
    exact Nat.zero_le _
  · rw [heq, List.length_append]
    exact Nat.le_add_right _ _
  · rw [heq]
    exact ofFirst_le c rest

/-! ### Lexemes in front -/

/-- The characters are the lexeme in front of the rest of the text. -/
structure Leads (kind : TokenKind) (lexeme rest : List Char) : Prop where
  ne_nil : lexeme ≠ []
  noGap : ∀ c ∈ lexeme.head?, isGap c = false
  measure : measure (lexeme ++ rest) = (kind, lexeme.length)

namespace Leads

variable {kind : TokenKind} {gap lexeme rest tail : List Char}

lemma append_ne_nil (h : Leads kind lexeme rest) : lexeme ++ rest ≠ [] :=
  List.append_ne_nil_of_left_ne_nil h.ne_nil rest

lemma noGap_append (h : Leads kind lexeme rest) :
    ∀ c ∈ (lexeme ++ rest).head?, isGap c = false := by
  rw [List.head?_append_of_ne_nil _ h.ne_nil]
  exact h.noGap

/-- A gap ends in front of the lexeme. -/
lemma skip (h : Leads kind lexeme rest) (hgap : ∀ c ∈ gap, isGap c = true) :
    (gap ++ (lexeme ++ rest)).takeWhile isGap = gap ∧
      (gap ++ (lexeme ++ rest)).dropWhile isGap = lexeme ++ rest := by
  obtain ⟨htake, hdrop⟩ := Lexeme.noGap h.noGap_append
  rw [List.takeWhile_append_of_pos hgap, List.dropWhile_append_of_pos hgap, htake, hdrop,
    List.append_nil]
  exact ⟨rfl, rfl⟩

lemma onLine_head (h : Leads kind lexeme rest) (hline : ∀ c ∈ lexeme, onLine c = true) :
    ∃ c cs, lexeme = c :: cs ∧ onLine c = true ∧
      ∀ tail, Lexeme.measure (lexeme ++ tail) = ofFirst c (cs ++ tail) := by
  obtain ⟨c, cs, rfl⟩ := List.exists_cons_of_ne_nil h.ne_nil
  have hc := hline c List.mem_cons_self
  exact ⟨c, cs, rfl, hc, fun tail => measure_of_onLine hc (cs ++ tail)⟩

/-- The lexeme is the same with a line break behind the line. -/
lemma breaks (h : Leads kind lexeme rest) (hline : ∀ c ∈ lexeme, onLine c = true)
    (htail : Breaks tail) : Leads kind lexeme (rest ++ tail) := by
  obtain ⟨c, cs, -, -, hmeasure⟩ := h.onLine_head hline
  refine ⟨h.ne_nil, h.noGap, ?_⟩
  rw [hmeasure, ← List.append_assoc, ofFirst_breaks htail, ← hmeasure, h.measure]

end Leads

/-- A line: words with gaps in front of them, and a gap or a comment behind them. -/
inductive Words : List Char → Prop
  | gap {gap : List Char} (hgap : ∀ c ∈ gap, isGap c = true) : Words gap
  | comment {gap comment : List Char} (hgap : ∀ c ∈ gap, isGap c = true)
    (h : Leads .comment (';' :: comment) []) : Words (gap ++ (';' :: comment ++ []))
  | word {gap lexeme rest : List Char} {kind : TokenKind} (hgap : ∀ c ∈ gap, isGap c = true)
    (h : Leads kind lexeme rest) (hkind : kind.isWord = true) (hrest : Words rest) :
    Words (gap ++ (lexeme ++ rest))

lemma leads_ofFirst (hc : onLine c = true) (hgap : isGap c = false) (cs : List Char) :
    Leads (ofFirst c cs).1 ((c :: cs).take (ofFirst c cs).2)
      ((c :: cs).drop (ofFirst c cs).2) := by
  have hpos := ofFirst_pos c cs
  refine ⟨?_, ?_, ?_⟩
  · rw [Ne, List.take_eq_nil_iff]
    simp
    omega
  · rw [List.head?_take, if_neg (Nat.ne_of_gt hpos)]
    rintro d ⟨⟩
    exact hgap
  · rw [List.take_append_drop, measure_of_onLine hc, List.length_take_of_le (ofFirst_le c cs)]

lemma words_of_onLine {line : List Char} (hline : ∀ c ∈ line, onLine c = true) : Words line := by
  induction hlength : line.length using Nat.strongRecOn generalizing line with
  | ind n ih =>
    have hgap : ∀ c ∈ line.takeWhile isGap, isGap c = true :=
      List.all_eq_true.mp List.all_takeWhile
    have hsplit := List.takeWhile_append_dropWhile (p := isGap) (l := line)
    have hnoGap := noGap_dropWhile line
    cases hrest : line.dropWhile isGap with
    | nil =>
      rw [hrest, List.append_nil] at hsplit
      exact .gap (hsplit ▸ hgap)
    | cons c cs =>
      rw [hrest] at hsplit hnoGap
      have hcs : ∀ d ∈ c :: cs, onLine d = true :=
        fun d hd => hline d (hsplit ▸ List.mem_append_right _ hd)
      have hleads := leads_ofFirst (hcs c List.mem_cons_self) (hnoGap c rfl) cs
      rcases ofFirst_cases c cs with ⟨rfl, hcomment⟩ | hword
      · have hall : cs.takeWhile onLine = cs :=
          List.takeWhile_eq_self_iff.mpr fun d hd => hcs d (List.mem_cons_of_mem _ hd)
        rw [hcomment, hall] at hleads
        simp only [← List.length_cons (a := ';'), List.take_length, List.drop_length] at hleads
        rw [← hsplit, ← List.append_nil (';' :: cs)]
        exact .comment hgap hleads
      · have hpos := ofFirst_pos c cs
        rw [← hsplit, ← List.take_append_drop (ofFirst c cs).2 (c :: cs)]
        refine .word hgap hleads hword (ih _ ?_ ?_ rfl)
        · rw [← hlength, ← hsplit, List.length_append, List.length_drop]
          simp
          omega
        · exact fun d hd => hcs d (List.mem_of_mem_drop hd)

end Lexeme

lemma IsBreak.leads {cs rest : List Char} (h : IsBreak cs rest) :
    Lexeme.Leads .endOfLine cs rest := by
  refine ⟨h.ne_nil, fun c hc => Lexeme.isGap_of_not_onLine (h.breaks c ?_), h.measure⟩
  rw [List.head?_append_of_ne_nil _ h.ne_nil]
  exact hc

/-! ### Scanning -/

namespace Scanner

variable {gap lexeme rest : List Char} {kind : TokenKind}

/-- The place of the token that stands behind the characters of a line. -/
def placeBehind (l : Location) (cs : List Char) : Location :=
  { cs.foldl Location.advance l with column := (cs.foldl Location.advance l).column + 1 }

lemma placeBehind_foldl (l : Location) (cs cs' : List Char) :
    placeBehind (cs.foldl Location.advance l) cs' = placeBehind l (cs ++ cs') := by
  rw [placeBehind, placeBehind, List.foldl_append]

lemma tokens_of_gap (hgap : ∀ c ∈ gap, Lexeme.isGap c = true) (l : Location) (done : Bool) :
    (tokens ⟨gap, l, done⟩).1 = [] ∧
      (tokens ⟨gap, l, done⟩).2.1 = ⟨.endOfFile, "", placeBehind l gap⟩ := by
  have hskip : skipGap ⟨gap, l, done⟩ = ⟨[], gap.foldl Location.advance l, done⟩ := by
    rw [skipGap, List.dropWhile_eq_nil_iff.mpr hgap, List.takeWhile_eq_self_iff.mpr hgap]
  have hnext : (nextToken ⟨gap, l, done⟩).1 = ⟨.endOfFile, "", placeBehind l gap⟩ := by
    rw [nextToken, hskip]
    rfl
  rw [tokens_of_eq (by rw [hnext]), hnext]
  exact ⟨rfl, rfl⟩

/-- Behind a gap and a lexeme the scanner goes on where they end. -/
lemma tokens_of_leads (hgap : ∀ c ∈ gap, Lexeme.isGap c = true)
    (h : Lexeme.Leads kind lexeme rest) (hkind : kind.endsLine = false) (l : Location)
    (done : Bool) :
    tokens ⟨gap ++ (lexeme ++ rest), l, done⟩ =
      (⟨kind, Lexeme.value kind lexeme, placeBehind l gap⟩ ::
          (tokens ⟨rest, (gap ++ lexeme).foldl Location.advance l, done⟩).1,
        (tokens ⟨rest, (gap ++ lexeme).foldl Location.advance l, done⟩).2) := by
  obtain ⟨hline, hfile⟩ := TokenKind.endsLine_eq_false_iff.mp hkind
  obtain ⟨htake, hdrop⟩ := h.skip hgap
  have hskip : skipGap ⟨gap ++ (lexeme ++ rest), l, done⟩ =
      ⟨lexeme ++ rest, gap.foldl Location.advance l, done⟩ := by
    rw [skipGap, htake, hdrop]
  have hnext : nextToken ⟨gap ++ (lexeme ++ rest), l, done⟩ =
      (⟨kind, Lexeme.value kind lexeme, placeBehind l gap⟩,
        ⟨rest, (gap ++ lexeme).foldl Location.advance l, done⟩) := by
    rw [nextToken, hskip]
    simp only [h.measure, cut, List.take_left, List.drop_left, if_neg hline, List.foldl_append]
    rfl
  rw [tokens_of_ne (by rw [hnext]; exact hfile), hnext]

/-- The end of the file stands behind the last line. -/
lemma last_of_onLine {line : List Char} (hline : ∀ c ∈ line, Lexeme.onLine c = true)
    (l : Location) (done : Bool) :
    (tokens ⟨line, l, done⟩).2.1 = ⟨.endOfFile, "", placeBehind l line⟩ := by
  induction Lexeme.words_of_onLine hline generalizing l with
  | gap hgap => exact (tokens_of_gap hgap l done).2
  | comment hgap h =>
    rw [tokens_of_leads hgap h rfl, (tokens_of_gap (by simp) _ done).2, placeBehind_foldl,
      List.append_assoc]
  | word hgap h hkind _ ih =>
    rw [List.forall_mem_append, List.forall_mem_append] at hline
    rw [tokens_of_leads hgap h (TokenKind.ne_of_isWord hkind).2, ih hline.2.2, placeBehind_foldl,
      List.append_assoc]

end Scanner

/-! ### Other lexemes -/

namespace Text

/-- The text with other lexemes in the place of its own. -/
def mapLexemes (f : TokenKind → List Char → List Char) (cs : List Char) : List Char :=
  match _h : cs.dropWhile Lexeme.isGap with
  | [] => cs
  | c :: rest =>
    let word := Lexeme.measure (c :: rest)
    cs.takeWhile Lexeme.isGap ++ (f word.1 ((c :: rest).take word.2) ++
      mapLexemes f ((c :: rest).drop word.2))
termination_by cs.length
decreasing_by
  have hpos := Lexeme.measure_pos c rest
  have hle := (List.dropWhile_sublist (l := cs) Lexeme.isGap).length_le
  rw [_h, List.length_cons] at hle
  rw [List.length_drop, List.length_cons]
  omega

variable {f : TokenKind → List Char → List Char} {cs : List Char}

lemma mapLexemes_nil : mapLexemes f [] = [] := by
  rw [mapLexemes]
  rfl

/-- A lexeme in front of the text. -/
lemma mapLexemes_lexeme (hne : cs ≠ []) (hgap : ∀ c ∈ cs.head?, Lexeme.isGap c = false) :
    mapLexemes f cs = f (Lexeme.measure cs).1 (cs.take (Lexeme.measure cs).2) ++
      mapLexemes f (cs.drop (Lexeme.measure cs).2) := by
  obtain ⟨htake, hdrop⟩ := Lexeme.noGap hgap
  conv_lhs => rw [mapLexemes]
  split
  · rename_i hrest
    exact absurd (hdrop.symm.trans hrest) hne
  · rename_i c rest hrest
    rw [htake, ← hrest, hdrop, List.nil_append]

/-- Gaps are left as they are. -/
lemma mapLexemes_gap (f : TokenKind → List Char → List Char) (cs : List Char) :
    mapLexemes f cs = cs.takeWhile Lexeme.isGap ++ mapLexemes f (cs.dropWhile Lexeme.isGap) := by
  cases hrest : cs.dropWhile Lexeme.isGap with
  | nil =>
    have hsplit := List.takeWhile_append_dropWhile (p := Lexeme.isGap) (l := cs)
    rw [hrest, List.append_nil] at hsplit
    rw [mapLexemes_nil, List.append_nil, hsplit, mapLexemes]
    split
    · rfl
    · rename_i heq
      cases hrest.symm.trans heq
  | cons c rest =>
    have hgap := Lexeme.noGap_dropWhile cs
    rw [hrest] at hgap
    rw [mapLexemes_lexeme (List.cons_ne_nil _ _) hgap, mapLexemes]
    split
    · rename_i heq
      cases hrest.symm.trans heq
    · rename_i heq
      cases hrest.symm.trans heq
      rfl

/-- A gap, a lexeme and the rest of the text. -/
lemma mapLexemes_append {gap lexeme rest : List Char} {kind : TokenKind}
    (hgap : ∀ c ∈ gap, Lexeme.isGap c = true) (h : Lexeme.Leads kind lexeme rest) :
    mapLexemes f (gap ++ (lexeme ++ rest)) = gap ++ (f kind lexeme ++ mapLexemes f rest) := by
  obtain ⟨htake, hdrop⟩ := h.skip hgap
  rw [mapLexemes_gap, htake, hdrop, mapLexemes_lexeme h.append_ne_nil h.noGap_append, h.measure,
    List.take_left, List.drop_left]

end Text

end MicroAsm
