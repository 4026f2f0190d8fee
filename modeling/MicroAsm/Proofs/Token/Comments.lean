import MicroAsm.Proofs.Token.Lexemes

/-!
# Texts without their comments

A comment takes in the rest of its line, so a line has the same tokens without it but for the
comment itself, and a text loses its comments line by line. A line break stays what it is, unless
it is a carriage return with nothing but a comment between it and a line feed: the two become one
line break.
-/

namespace MicroAsm

/-- The lexeme if it is no comment. -/
def Lexeme.dropComment (kind : TokenKind) (lexeme : List Char) : List Char :=
  if kind = .comment then [] else lexeme

/-- The text without the lexemes of its comments. -/
def Text.dropComments (cs : List Char) : List Char :=
  mapLexemes Lexeme.dropComment cs

/-! ### Lines of words -/

namespace Lexeme

variable {kind : TokenKind} {c : Char} {cs lexeme rest tail : List Char} {p : Char → Bool}

/-- A semicolon ends what it is no part of. -/
lemma takeWhile_semicolon (hp : p ';' = false) (cs rest : List Char) :
    (cs ++ ';' :: rest).takeWhile p = cs.takeWhile p := by
  have hnil : (';' :: rest).takeWhile p = [] := List.takeWhile_cons_of_neg (by simp [hp])
  rw [List.takeWhile_append, hnil]
  split
  · rename_i hall
    rw [List.append_nil, (List.takeWhile_prefix p).eq_of_length hall]
  · rfl

/-- A string is the same without what stands behind a semicolon, if it is closed in front of
that. -/
lemma ofQuoted_semicolon {quote : Char} (hquote : quote ≠ ';')
    (h : (ofQuoted quote (cs ++ ';' :: rest)).2 ≤ cs.length + 1) :
    ofQuoted quote (cs ++ ';' :: rest) = ofQuoted quote cs := by
  have hsemicolon : (';' :: rest).takeWhile (fun c => c != quote && onLine c) =
      ';' :: rest.takeWhile (fun c => c != quote && onLine c) :=
    List.takeWhile_cons_of_pos (by simp [onLine, hquote.symm])
  have hbody := @List.takeWhile_append _ (fun c => c != quote && onLine c) cs (';' :: rest)
  by_cases hall : (cs.takeWhile fun c => c != quote && onLine c).length = cs.length
  · -- Otherwise it goes on behind the semicolon.
    rw [if_pos hall, hsemicolon] at hbody
    simp only [ofQuoted, hbody] at h
    split at h
    all_goals
      simp only [List.length_append, List.length_cons] at h
      omega
  · rw [if_neg hall] at hbody
    have hle : (cs.takeWhile fun c => c != quote && onLine c).length ≤ cs.length :=
      (List.takeWhile_sublist _).length_le
    have hne : cs.drop (cs.takeWhile fun c => c != quote && onLine c).length ≠ [] := by
      rw [Ne, List.drop_eq_nil_iff]
      omega
    simp only [ofQuoted, hbody, List.drop_append_of_le_length hle,
      List.head?_append_of_ne_nil _ hne]

/-- A lexeme that ends in front of a semicolon is the same without what stands behind that. -/
lemma ofFirst_semicolon (hcs : ∀ d ∈ cs, onLine d = true)
    (h : (ofFirst c (cs ++ ';' :: rest)).2 ≤ cs.length + 1) :
    ofFirst c (cs ++ ';' :: rest) = ofFirst c cs := by
  have hdigits : ∀ base, Numeral.isDigitOf base ';' = false := fun _ => rfl
  have hmarked : ∀ base, ofMarked c base (cs ++ ';' :: rest) = ofMarked c base cs := by
    intro base
    rw [ofMarked, ofMarked, takeWhile_semicolon (hdigits base)]
  have hrun : (cs ++ ';' :: rest).takeWhile Char.isAlphanum = cs.takeWhile Char.isAlphanum :=
    takeWhile_semicolon rfl cs rest
  have hname : (cs ++ ';' :: rest).takeWhile inName = cs.takeWhile inName :=
    takeWhile_semicolon rfl cs rest
  have hline : (cs ++ ';' :: rest).takeWhile onLine = cs ++ ';' :: rest.takeWhile onLine := by
    rw [List.takeWhile_append_of_pos hcs]
    rfl
  by_cases hcomment : c = ';'
  · subst hcomment
    have hlength : (ofFirst ';' (cs ++ ';' :: rest)).2 =
        ((cs ++ ';' :: rest).takeWhile onLine).length + 1 := rfl
    rw [hlength, hline, List.length_append, List.length_cons] at h
    omega
  · by_cases hquote : c = '\'' ∨ c = '"'
    · have hne : punctuation? c = none ∧ Numeral.leadingBase? c = none := by
        rcases hquote with rfl | rfl <;> exact ⟨rfl, rfl⟩
      simp only [ofFirst, hne.1, hne.2, if_neg hcomment, if_pos hquote] at h ⊢
      exact ofQuoted_semicolon hcomment h
    · simp only [ofFirst, hmarked, hrun, hname, if_neg hcomment, if_neg hquote]

namespace Leads

/-- The lexeme is the same without what stands behind a semicolon. -/
lemma semicolon (h : Leads kind lexeme (rest ++ ';' :: tail))
    (hline : ∀ c ∈ lexeme ++ rest, onLine c = true) : Leads kind lexeme rest := by
  rw [List.forall_mem_append] at hline
  obtain ⟨c, cs, rfl, -, hmeasure⟩ := h.onLine_head hline.1
  refine ⟨h.ne_nil, h.noGap, ?_⟩
  have hfirst := h.measure
  rw [hmeasure, ← List.append_assoc] at hfirst
  rw [hmeasure, ← ofFirst_semicolon, hfirst]
  · rw [List.forall_mem_append]
    exact ⟨fun d hd => hline.1 d (List.mem_cons_of_mem c hd), hline.2⟩
  · rw [hfirst]
    simp

end Leads

/-- A comment takes in the rest of its line. -/
lemma leads_comment (cs : List Char) :
    Leads .comment (';' :: cs.takeWhile onLine) (cs.dropWhile onLine) := by
  refine ⟨List.cons_ne_nil _ _, ?_, ?_⟩
  · rintro c ⟨⟩
    rfl
  · rw [List.cons_append, List.takeWhile_append_dropWhile]
    rfl

end Lexeme

/-! ### Comments of a text -/

namespace Text

variable {line cs gap lexeme rest : List Char} {kind : TokenKind}

lemma dropComments_gap (hgap : ∀ c ∈ gap, Lexeme.isGap c = true)
    (hrest : ∀ c ∈ rest.head?, Lexeme.isGap c = false) :
    dropComments (gap ++ rest) = gap ++ dropComments rest := by
  obtain ⟨htake, hdrop⟩ := Lexeme.noGap hrest
  rw [dropComments, mapLexemes_gap, List.takeWhile_append_of_pos hgap,
    List.dropWhile_append_of_pos hgap, htake, hdrop, List.append_nil, dropComments]

lemma dropComments_word (hgap : ∀ c ∈ gap, Lexeme.isGap c = true)
    (h : Lexeme.Leads kind lexeme rest) (hkind : kind ≠ .comment) :
    dropComments (gap ++ (lexeme ++ rest)) = gap ++ (lexeme ++ dropComments rest) := by
  rw [dropComments, mapLexemes_append hgap h, Lexeme.dropComment, if_neg hkind, dropComments]

lemma dropComments_comment (hgap : ∀ c ∈ gap, Lexeme.isGap c = true)
    (h : Lexeme.Leads .comment lexeme rest) :
    dropComments (gap ++ (lexeme ++ rest)) = gap ++ dropComments rest := by
  rw [dropComments, mapLexemes_append hgap h, Lexeme.dropComment, if_pos rfl, dropComments,
    List.nil_append]

lemma dropComments_nil : dropComments [] = [] :=
  mapLexemes_nil

/-- A line break stays where it is. -/
lemma dropComments_break (h : IsBreak cs rest) :
    dropComments (cs ++ rest) = cs ++ dropComments rest :=
  @dropComments_word [] cs rest _ (by simp) h.leads (by simp)

lemma dropComments_of_gap (hgap : ∀ c ∈ gap, Lexeme.isGap c = true) : dropComments gap = gap := by
  have heq : dropComments (gap ++ []) = gap ++ dropComments [] := dropComments_gap hgap (by simp)
  rwa [dropComments_nil, List.append_nil] at heq

/-- A line loses its comment whatever stands behind its end. -/
lemma dropComments_append (hline : ∀ c ∈ line, Lexeme.onLine c = true)
    (hrest : Lexeme.Breaks rest) :
    dropComments (line ++ rest) = dropComments line ++ dropComments rest := by
  have hnoGap : ∀ c ∈ rest.head?, Lexeme.isGap c = false :=
    fun c hc => Lexeme.isGap_of_not_onLine (hrest c hc)
  induction Lexeme.words_of_onLine hline with
  | gap hgap => rw [dropComments_gap hgap hnoGap, dropComments_of_gap hgap]
  | comment hgap h =>
    rw [List.forall_mem_append, List.append_nil] at hline
    have hleads := h.breaks hline.2 hrest
    rw [List.nil_append] at hleads
    rw [List.append_assoc, List.append_nil, dropComments_comment hgap hleads,
      ← List.append_nil (';' :: _), dropComments_comment hgap h, dropComments_nil,
      List.append_nil]
  | @word gap lexeme tail kind hgap h hkind _ ih =>
    have hne := (TokenKind.ne_of_isWord hkind).1
    rw [List.forall_mem_append, List.forall_mem_append] at hline
    rw [List.append_assoc, List.append_assoc,
      dropComments_word hgap (h.breaks hline.2.1 hrest) hne, dropComments_word hgap h hne,
      ih hline.2.2, List.append_assoc, List.append_assoc]

end Text

/-! ### Tokens -/

namespace Scanner

variable {line : List Char}

/-- What stands in front of the comment of a line scans to the same tokens without it. The comment
is the rest of the line. -/
lemma tokens_dropComments (hline : ∀ c ∈ line, Lexeme.onLine c = true) (l : Location)
    (done : Bool) :
    (∀ t ∈ (tokens ⟨Text.dropComments line, l, done⟩).1, t.kind ≠ .comment) ∧
      (Text.dropComments line = line ∨
        ∃ comment, line = Text.dropComments line ++ ';' :: comment ∧
          (tokens ⟨line, l, done⟩).1 = (tokens ⟨Text.dropComments line, l, done⟩).1 ++
            [⟨.comment, String.ofList comment, placeBehind l (Text.dropComments line)⟩]) := by
  induction Lexeme.words_of_onLine hline generalizing l with
  | gap hgap =>
    rw [Text.dropComments_of_gap hgap, (tokens_of_gap hgap l done).1]
    exact ⟨by simp, Or.inl rfl⟩
  | @comment gap comment hgap h =>
    have hdrop : Text.dropComments (gap ++ (';' :: comment ++ [])) = gap := by
      rw [Text.dropComments_comment hgap h, Text.dropComments_nil, List.append_nil]
    rw [hdrop, (tokens_of_gap hgap l done).1]
    refine ⟨by simp, Or.inr ⟨comment, by rw [List.append_nil], ?_⟩⟩
    rw [tokens_of_leads hgap h rfl, (tokens_of_gap (by simp) _ done).1]
    rfl
  | @word gap lexeme rest kind hgap h hkind _ ih =>
    have hne := TokenKind.ne_of_isWord hkind
    rw [List.forall_mem_append, List.forall_mem_append] at hline
    obtain ⟨hwords, hcases⟩ := ih hline.2.2 ((gap ++ lexeme).foldl Location.advance l)
    rw [Text.dropComments_word hgap h hne.1]
    rcases hcases with hsame | ⟨comment, hrest, htokens⟩
    · rw [hsame] at hwords ⊢
      rw [tokens_of_leads hgap h hne.2]
      exact ⟨List.forall_mem_cons.mpr ⟨hne.1, hwords⟩, Or.inl rfl⟩
    · -- The lexeme does not reach the comment, so it is the same in front of nothing.
      have hplain : Lexeme.Leads kind lexeme (Text.dropComments rest) := by
        rw [hrest] at h
        refine h.semicolon (List.forall_mem_append.mpr ⟨hline.2.1, fun c hc => ?_⟩)
        exact hline.2.2 c (hrest ▸ List.mem_append_left _ hc)
      rw [tokens_of_leads hgap hplain hne.2, tokens_of_leads hgap h hne.2]
      refine ⟨List.forall_mem_cons.mpr ⟨hne.1, hwords⟩, Or.inr ⟨comment, ?_, ?_⟩⟩
      · conv_lhs => rw [hrest]
        simp
      · rw [htokens, placeBehind_foldl, List.append_assoc]
        rfl

end Scanner

lemma Text.onLine_dropComments {line : List Char} (hline : ∀ c ∈ line, Lexeme.onLine c = true) :
    ∀ c ∈ dropComments line, Lexeme.onLine c = true := by
  rcases (Scanner.tokens_dropComments hline .start false).2 with hsame | ⟨comment, hsplit, -⟩
  · rwa [hsame]
  · exact fun c hc => hline c (hsplit ▸ List.mem_append_left _ hc)

/-! ### Line breaks that become one -/

namespace Text

/-- The text starts with a comment that a line feed ends. -/
def startsWithComment (cs : List Char) : Bool :=
  cs.head? == some ';' && (cs.dropWhile Lexeme.onLine).head? == some '\n'

/-- How many of the first line breaks of a text are a carriage return with nothing but a comment
between it and a line feed. -/
def joinedBreaks : Nat → List Char → Nat
  | 0, _ => 0
  | _ + 1, [] => 0
  | n + 1, '\r' :: '\n' :: cs => joinedBreaks n cs
  | n + 1, c :: cs =>
    if Lexeme.onLine c then joinedBreaks (n + 1) cs
    else if c = '\r' ∧ startsWithComment cs then joinedBreaks n cs + 1
    else joinedBreaks n cs

variable {line cs rest : List Char}

lemma joinedBreaks_line (hline : ∀ c ∈ line, Lexeme.onLine c = true) (n : Nat)
    (rest : List Char) : joinedBreaks (n + 1) (line ++ rest) = joinedBreaks (n + 1) rest := by
  induction line with
  | nil => rfl
  | cons c line ih =>
    rw [List.forall_mem_cons] at hline
    rw [List.cons_append, joinedBreaks.eq_4, if_pos hline.1, ih hline.2]
    rintro tail rfl -
    cases hline.1

lemma joinedBreaks_break (h : IsBreak cs rest) (n : Nat) :
    joinedBreaks (n + 1) (cs ++ rest) =
      if cs = ['\r'] ∧ startsWithComment rest then joinedBreaks n rest + 1
      else joinedBreaks n rest := by
  rcases h.eq with rfl | rfl | rfl
  · rfl
  · rw [List.singleton_append, joinedBreaks.eq_4]
    · simp [Lexeme.onLine]
    · rintro tail - rfl
      exact h.apart rfl rfl
  · rw [List.singleton_append, joinedBreaks.eq_4]
    · simp [Lexeme.onLine]
    · rintro tail hnot
      cases hnot

/-- Only a comment in front goes away. -/
lemma head?_dropComments_cons {c : Char} (hc : c ≠ ';') (cs : List Char) :
    (dropComments (c :: cs)).head? = some c := by
  by_cases hgap : Lexeme.isGap c = true
  · rw [dropComments, mapLexemes_gap, List.takeWhile_cons_of_pos hgap]
    rfl
  · have hhead : ∀ d ∈ (c :: cs).head?, Lexeme.isGap d = false := by
      rintro d ⟨⟩
      simpa using hgap
    have hkind : (Lexeme.measure (c :: cs)).1 ≠ .comment := by
      by_cases hline : Lexeme.onLine c = true
      · rw [Lexeme.measure_of_onLine hline]
        rcases Lexeme.ofFirst_cases c cs with ⟨rfl, -⟩ | hword
        · exact absurd rfl hc
        · rintro heq
          rw [heq] at hword
          cases hword
      · have hends : (Lexeme.measure (c :: cs)).1.endsLine = true :=
          Lexeme.endsLine_measure (by simpa using hline)
        rintro heq
        rw [heq] at hends
        cases hends
    have hpos := Lexeme.measure_pos c cs
    rw [dropComments, mapLexemes_lexeme (List.cons_ne_nil _ _) hhead, Lexeme.dropComment,
      if_neg hkind, List.head?_append, List.head?_take, if_neg (Nat.ne_of_gt hpos)]
    rfl

/-- A text comes to start with a line feed if only a comment stands in front of one. -/
lemma head?_dropComments (cs : List Char) :
    (dropComments cs).head? = some '\n' ↔ cs.head? = some '\n' ∨ startsWithComment cs = true := by
  cases cs with
  | nil => simp [dropComments_nil, startsWithComment]
  | cons c cs =>
    by_cases hc : c = ';'
    · subst hc
      have hdrop := @dropComments_comment [] _ _ (by simp) (Lexeme.leads_comment cs)
      rw [List.nil_append, List.nil_append, List.cons_append, List.takeWhile_append_dropWhile]
        at hdrop
      -- Behind the comment stands a line break or nothing.
      have hhead : (dropComments (cs.dropWhile Lexeme.onLine)).head? =
          (cs.dropWhile Lexeme.onLine).head? := by
        have hnot := List.head?_dropWhile_not Lexeme.onLine cs
        cases hrest : cs.dropWhile Lexeme.onLine with
        | nil => rw [dropComments_nil]
        | cons d rest =>
          rw [hrest] at hnot
          refine head?_dropComments_cons ?_ rest
          rintro rfl
          cases hnot
      rw [hdrop, hhead]
      simp [startsWithComment, Lexeme.onLine]
    · rw [head?_dropComments_cons hc]
      simp [startsWithComment, hc]

/-- A line break stays one without the comments behind it, or it is a carriage return that comes to
stand in front of a line feed. -/
lemma break_dropComments (h : IsBreak cs rest) :
    ¬(cs = ['\r'] ∧ startsWithComment rest) ∧ IsBreak cs (dropComments rest) ∨
      (cs = ['\r'] ∧ startsWithComment rest) ∧ ∃ tail, dropComments rest = '\n' :: tail := by
  by_cases hjoins : cs = ['\r'] ∧ startsWithComment rest
  · exact Or.inr ⟨hjoins, List.head?_eq_some_iff.mp
      ((head?_dropComments rest).mpr (Or.inr hjoins.2))⟩
  · refine Or.inl ⟨hjoins, h.eq, fun hlast hhead => ?_⟩
    rcases (head?_dropComments rest).mp hhead with hfeed | hstarts
    · exact h.apart hlast hfeed
    · rcases h.eq with rfl | rfl | rfl
      · cases hlast
      · exact hjoins ⟨rfl, hstarts⟩
      · cases hlast

end Text

end MicroAsm
