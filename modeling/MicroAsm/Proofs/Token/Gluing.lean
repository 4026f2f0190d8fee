import Mathlib.Data.List.Chain
import MicroAsm.Proofs.Token.Lexemes
import MicroAsm.Proofs.Token.Positional

/-!
# Tokens without gaps

The lexeme of a token is scanned as the same token wherever no letter or digit follows it: what the
scanner looked at behind the lexeme only ended it. So tokens can be written one behind the other
without gaps if at least one of two neighbours is a comma or a sign.
-/

namespace MicroAsm

/-- The token is a word or a mark with a lexeme of its own. -/
def TokenKind.isLexeme : TokenKind → Bool
  | endOfFile | endOfLine | comment | unknown => false
  | _ => true

/-- The kind is that of a mark between operands or terms. -/
def TokenKind.isMark : TokenKind → Bool
  | comma | plus | minus => true
  | _ => false

/-- Tokens of this kind stand in operands or between them. -/
def TokenKind.inOperands : TokenKind → Bool
  | identifier | number | string | dollar => true
  | kind => kind.isMark

lemma TokenKind.isLexeme_of_isMark {kind : TokenKind} (h : kind.isMark = true) :
    kind.isLexeme = true := by
  cases kind <;> first | rfl | cases h

lemma TokenKind.isLexeme_of_isKeyword {kind : TokenKind} (h : kind.isKeyword = true) :
    kind.isLexeme = true := by
  cases kind <;> first | rfl | cases h

lemma TokenKind.inOperands_of_isMark {kind : TokenKind} (h : kind.isMark = true) :
    kind.inOperands = true := by
  cases kind <;> first | rfl | cases h

lemma TokenKind.isLexeme_of_inOperands {kind : TokenKind} (h : kind.inOperands = true) :
    kind.isLexeme = true := by
  cases kind <;> first | rfl | cases h

namespace Lexeme

variable {c : Char} {cs rest : List Char} {p : Char → Bool}

/-! ### Lexemes in front of other texts -/

lemma inName_of_isAlphanum (h : c.isAlphanum = true) : inName c = true := by
  rw [inName, h, Bool.true_or]

lemma inName_of_isDigitOf {base : Nat} (h : Numeral.isDigitOf base c = true) :
    inName c = true := by
  refine inName_of_isAlphanum ?_
  rw [Numeral.isDigitOf, Numeral.digit?, Option.isSome_filter, Option.any_eq_true] at h
  obtain ⟨d, hd, -⟩ := h
  have halnum : c.isAlphanum = (c.isUpper || c.isLower || c.isDigit) := rfl
  rw [Numeral.digitValue] at hd
  grind

lemma takeWhile_of_stops (hp : ∀ c, p c = true → inName c = true) (h : Stops rest) :
    rest.takeWhile p = [] := by
  cases rest with
  | nil => rfl
  | cons c rest =>
    rw [List.takeWhile_cons_of_neg]
    intro hc
    cases (hp c hc).symm.trans (h c rfl)

/-- Characters of a name end where no further one follows. -/
lemma takeWhile_takeWhile_append (hp : ∀ c, p c = true → inName c = true) (h : Stops rest) :
    (cs.takeWhile p ++ rest).takeWhile p = cs.takeWhile p := by
  rw [List.takeWhile_append_of_pos (List.all_eq_true.mp List.all_takeWhile),
    takeWhile_of_stops hp h, List.append_nil]

lemma take_length_takeWhile (p : Char → Bool) (cs : List Char) :
    cs.take (cs.takeWhile p).length = cs.takeWhile p :=
  (List.prefix_iff_eq_take.mp (List.takeWhile_prefix p)).symm

lemma ofMarked_again {base : Nat} (hrest : Stops rest) :
    ofMarked c base (cs.take ((ofMarked c base cs).2 - 1) ++ rest) = ofMarked c base cs := by
  have hdigits : ∀ c, Numeral.isDigitOf base c = true → inName c = true :=
    fun _ => inName_of_isDigitOf
  have htake := @takeWhile_takeWhile_append cs rest _ hdigits hrest
  cases hds : cs.takeWhile (Numeral.isDigitOf base) with
  | nil =>
    have heq : ofMarked c base cs = (if c = '$' then .dollar else .unknown, 1) := by
      rw [ofMarked, hds]
    rw [hds, List.nil_append] at htake
    rw [heq, Nat.sub_self, List.take_zero, List.nil_append, ofMarked, htake]
  | cons d ds =>
    have heq : ofMarked c base cs = (.number, (d :: ds).length + 1) := by
      rw [ofMarked, hds]
    rw [heq, Nat.add_sub_cancel, ← hds, take_length_takeWhile, ofMarked, htake, hds]

/-- What is known of a string: its closing quote. -/
lemma exists_of_ofQuoted (hknown : (ofQuoted c cs).1 ≠ .unknown) :
    ∃ body tail, cs = body ++ c :: tail ∧ (∀ d ∈ body, (d != c && onLine d) = true) ∧
      ofQuoted c cs = (.string, body.length + 2) := by
  simp only [ofQuoted] at hknown ⊢
  split at hknown
  · rename_i hquote
    obtain ⟨tail, htail⟩ := List.head?_eq_some_iff.mp hquote
    refine ⟨_, tail, ?_, List.all_eq_true.mp List.all_takeWhile, if_pos hquote⟩
    rw [← htail, ← take_length_takeWhile, List.length_take_of_le (List.takeWhile_sublist _).length_le,
      List.take_append_drop]
  · exact absurd rfl hknown

lemma ofQuoted_of_closed {body : List Char} (hbody : ∀ d ∈ body, (d != c && onLine d) = true)
    (tail : List Char) : ofQuoted c (body ++ c :: tail) = (.string, body.length + 2) := by
  have htake : (body ++ c :: tail).takeWhile (fun d => d != c && onLine d) = body := by
    rw [List.takeWhile_append_of_pos hbody, List.takeWhile_cons_of_neg (by simp), List.append_nil]
  simp only [ofQuoted, htake, List.drop_left, List.head?_cons, if_true]

lemma ofQuoted_again (hknown : (ofQuoted c cs).1 ≠ .unknown) :
    ofQuoted c (cs.take ((ofQuoted c cs).2 - 1) ++ rest) = ofQuoted c cs := by
  obtain ⟨body, tail, rfl, hbody, heq⟩ := exists_of_ofQuoted hknown
  have htake : (body ++ c :: tail).take (body.length + 2 - 1) = body ++ [c] := by
    rw [Nat.add_sub_assoc (by decide), List.take_length_add_append]
    rfl
  rw [heq, htake, List.append_assoc, List.singleton_append, ofQuoted_of_closed hbody]

/-- A number takes up all letters and digits, or it is the decimal digits in front of a letter. -/
lemma ofRun_cases {run : List Char} (h : (ofRun run).1 ≠ .unknown) :
    ofRun run = (.number, run.length) ∨
      ofRun run = (.number, (run.takeWhile Char.isDigit).length) := by
  rw [ofRun] at h ⊢
  split
  · exact Or.inl rfl
  · rename_i htrailing
    rw [if_neg htrailing] at h
    split
    · exact Or.inl rfl
    · rename_i d ds hdrop
      rw [hdrop] at h
      simp only at h
      split
      · exact Or.inr rfl
      · rename_i hletter
        rw [if_neg hletter] at h
        exact absurd rfl h

lemma ofRun_again (hdigit : c.isDigit = true)
    (hknown : (ofRun (c :: cs.takeWhile Char.isAlphanum)).1 ≠ .unknown) (hrest : Stops rest) :
    ofRun (c :: (cs.take ((ofRun (c :: cs.takeWhile Char.isAlphanum)).2 - 1) ++ rest).takeWhile
      Char.isAlphanum) = ofRun (c :: cs.takeWhile Char.isAlphanum) := by
  have hname : ∀ c, c.isAlphanum = true → inName c = true := fun _ => inName_of_isAlphanum
  rcases ofRun_cases hknown with heq | heq
  · rw [heq, List.length_cons, Nat.add_sub_cancel, take_length_takeWhile,
      takeWhile_takeWhile_append hname hrest, heq]
    rfl
  · -- The number ends in front of a letter, so on its own it is decimal digits.
    have hdigits : (c :: cs.takeWhile Char.isAlphanum).takeWhile Char.isDigit =
        c :: cs.takeWhile Char.isDigit := by
      rw [List.takeWhile_cons_of_pos hdigit, List.takeWhile_takeWhile]
      refine congrArg (fun p => c :: cs.takeWhile p) (funext fun d => ?_)
      rw [Char.isAlphanum]
      cases d.isDigit <;> simp
    have htake : (cs.takeWhile Char.isDigit ++ rest).takeWhile Char.isAlphanum =
        cs.takeWhile Char.isDigit := by
      have halnum : ∀ d ∈ cs.takeWhile Char.isDigit, d.isAlphanum = true := by
        intro d hd
        rw [Char.isAlphanum, List.all_eq_true.mp List.all_takeWhile d hd, Bool.or_true]
      rw [List.takeWhile_append_of_pos halnum, takeWhile_of_stops hname hrest, List.append_nil]
    rw [heq, hdigits, List.length_cons, Nat.add_sub_cancel, take_length_takeWhile, htake]
    have hall : ∀ d ∈ c :: cs.takeWhile Char.isDigit, d.isDigit = true :=
      List.forall_mem_cons.mpr ⟨hdigit, List.all_eq_true.mp List.all_takeWhile⟩
    exact ofRun_of_reads ⟨c, rfl, hdigit⟩ ⟨_, 10, .decimal (List.cons_ne_nil _ _) hall⟩

/-- A lexeme of a known kind is the same in front of another text. The first character decides what
is done with those behind it. -/
lemma ofFirst_again (hkind : (ofFirst c cs).1.isLexeme = true) (hrest : Stops rest) :
    ofFirst c (cs.take ((ofFirst c cs).2 - 1) ++ rest) = ofFirst c cs := by
  have hknown : (ofFirst c cs).1 ≠ .unknown := by
    intro heq
    rw [heq] at hkind
    cases hkind
  cases hpunctuation : punctuation? c with
  | some kind => simp only [ofFirst, hpunctuation]
  | none =>
    cases hmark : Numeral.leadingBase? c with
    | some base =>
      have heq : ∀ cs, ofFirst c cs = ofMarked c base cs := fun cs => by
        simp only [ofFirst, hpunctuation, hmark]
      rw [heq, heq, ofMarked_again hrest]
    | none =>
      by_cases hcomment : c = ';'
      · have heq : (ofFirst c cs).1 = .comment := by
          simp only [ofFirst, hpunctuation, hmark, if_pos hcomment]
        rw [heq] at hkind
        cases hkind
      by_cases hquote : c = '\'' ∨ c = '"'
      · have heq : ∀ cs, ofFirst c cs = ofQuoted c cs := fun cs => by
          simp only [ofFirst, hpunctuation, hmark, if_neg hcomment, if_pos hquote]
        rw [heq] at hknown
        rw [heq, heq, ofQuoted_again hknown]
      by_cases hdigit : c.isDigit = true
      · have heq : ∀ cs, ofFirst c cs = ofRun (c :: cs.takeWhile Char.isAlphanum) := fun cs => by
          simp only [ofFirst, hpunctuation, hmark, if_neg hcomment, if_neg hquote, if_pos hdigit]
        rw [heq] at hknown
        rw [heq, heq, ofRun_again hdigit hknown hrest]
      by_cases hname : startsName c = true
      · have heq : ∀ cs, ofFirst c cs =
            (kindOfName (c :: cs.takeWhile inName), (c :: cs.takeWhile inName).length) :=
          fun cs => by
            simp only [ofFirst, hpunctuation, hmark, if_neg hcomment, if_neg hquote, if_neg hdigit,
              if_pos hname]
        rw [heq, heq, List.length_cons, Nat.add_sub_cancel, take_length_takeWhile,
          takeWhile_takeWhile_append (fun _ => id) hrest, List.length_cons]
      · refine absurd ?_ hknown
        simp only [ofFirst, hpunctuation, hmark, if_neg hcomment, if_neg hquote, if_neg hdigit,
          if_neg hname]

end Lexeme

/-! ### Tokens -/

lemma Lexeme.value_of_isLexeme {kind : TokenKind} (h : kind.isLexeme = true)
    (lexeme : List Char) : value kind lexeme = String.ofList lexeme := by
  cases kind <;> first | rfl | cases h

/-- Marks are punctuation, and directives are names: all other kinds are neither. -/
lemma Lexeme.ofFirst_sorts (c : Char) (cs : List Char) :
    (punctuation? c = some (ofFirst c cs).1 ∧ (ofFirst c cs).2 = 1) ∨
      ofFirst c cs = (kindOfName (c :: cs.takeWhile inName), (c :: cs.takeWhile inName).length) ∨
      ((ofFirst c cs).1.isMark = false ∧ (ofFirst c cs).1.isKeyword = false) := by
  have hmarked : ∀ base, (ofMarked c base cs).1.isMark = false ∧
      (ofMarked c base cs).1.isKeyword = false := by
    intro base
    rw [ofMarked]
    split
    · split <;> exact ⟨rfl, rfl⟩
    · exact ⟨rfl, rfl⟩
  have hquoted : (ofQuoted c cs).1.isMark = false ∧ (ofQuoted c cs).1.isKeyword = false := by
    simp only [ofQuoted]
    split <;> exact ⟨rfl, rfl⟩
  have hrun : ∀ run, (ofRun run).1.isMark = false ∧ (ofRun run).1.isKeyword = false := by
    intro run
    rw [ofRun]
    split
    · exact ⟨rfl, rfl⟩
    · split
      · exact ⟨rfl, rfl⟩
      · split <;> exact ⟨rfl, rfl⟩
  cases hpunctuation : punctuation? c with
  | some kind => simp only [ofFirst, hpunctuation, and_self, true_or]
  | none =>
    right
    cases hbase : Numeral.leadingBase? c with
    | some base =>
      simp only [ofFirst, hpunctuation, hbase]
      exact Or.inr (hmarked base)
    | none =>
      simp only [ofFirst, hpunctuation, hbase]
      split
      · exact Or.inr ⟨rfl, rfl⟩
      · split
        · exact Or.inr hquoted
        · split
          · exact Or.inr (hrun _)
          · split
            · exact Or.inl rfl
            · exact Or.inr ⟨rfl, rfl⟩

/-- A mark is a punctuation character. -/
lemma Lexeme.punctuation_of_isMark {c : Char} {cs : List Char}
    (h : (ofFirst c cs).1.isMark = true) :
    punctuation? c = some (ofFirst c cs).1 ∧ (ofFirst c cs).2 = 1 := by
  rcases ofFirst_sorts c cs with hmark | hname | hother
  · exact hmark
  · rw [hname, kindOfName, TokenKind.keyword?.eq_def] at h
    split at h <;> cases h
  · cases hother.1.symm.trans h

/-- A directive is the word for it. -/
lemma Lexeme.keyword_of_isKeyword {c : Char} {cs : List Char}
    (h : (ofFirst c cs).1.isKeyword = true) :
    TokenKind.keyword? (String.ofList ((c :: cs).take (ofFirst c cs).2)) =
      some (ofFirst c cs).1 := by
  rcases ofFirst_sorts c cs with hmark | hname | hother
  · generalize (ofFirst c cs).1 = kind at hmark h
    rw [punctuation?.eq_def] at hmark
    split at hmark <;> cases hmark.1 <;> cases h
  · have htake : (c :: cs).take (ofFirst c cs).2 = c :: cs.takeWhile inName := by
      rw [hname, List.length_cons, List.take_succ_cons, take_length_takeWhile]
    rw [htake, hname, kindOfName]
    cases hkeyword : TokenKind.keyword? (String.ofList (c :: cs.takeWhile inName)) with
    | some kind => rfl
    | none =>
      rw [hname, kindOfName, hkeyword] at h
      cases h
  · cases hother.2.symm.trans h

/-- The lexeme of the token is scanned as the same token in front of anything but a letter or a
digit, and if the token is a mark, in front of anything. -/
structure Token.Rescans (t : Token) : Prop where
  lexes : t.kind.isLexeme = true → Lexes t.kind t.value.toList
  mark : t.kind.isMark = true →
    ∃ c, Lexeme.punctuation? c = some t.kind ∧ t.value.toList = [c]
  keyword : t.kind.isKeyword = true → TokenKind.keyword? t.value = some t.kind

namespace Scanner

lemma rescans_nextToken (s : Scanner) : s.nextToken.1.Rescans := by
  have hmeasure : Lexeme.measure (s.rest.dropWhile Lexeme.isGap) =
      ((Lexeme.measure (s.rest.dropWhile Lexeme.isGap)).1,
        (Lexeme.measure (s.rest.dropWhile Lexeme.isGap)).2) := rfl
  obtain ⟨hkind, hvalue, -⟩ := nextToken_eq hmeasure
  have hgap := Lexeme.noGap_dropWhile s.rest
  rw [← hkind] at hvalue
  rcases Lexeme.measure_cases (s.rest.dropWhile Lexeme.isGap) with
    ⟨-, heq⟩ | ⟨lexeme, rest, -, heq, -⟩ | ⟨c, rest, hcs, hc, heq⟩
  · rw [heq] at hkind
    constructor <;> · rw [hkind]; rintro ⟨⟩
  · rw [heq] at hkind
    constructor <;> · rw [hkind]; rintro ⟨⟩
  · rw [heq] at hkind
    rw [heq, hcs] at hvalue
    rw [hcs] at hgap
    have hpos := Lexeme.ofFirst_pos c rest
    have hle := Lexeme.ofFirst_le c rest
    have htake : (c :: rest).take (Lexeme.ofFirst c rest).2 =
        c :: rest.take ((Lexeme.ofFirst c rest).2 - 1) := by
      obtain ⟨n, hn⟩ := Nat.exists_eq_succ_of_ne_zero (Nat.ne_of_gt hpos)
      rw [hn, List.take_succ_cons, Nat.succ_sub_one]
    constructor
    · intro hlexeme
      rw [hvalue, Lexeme.value_of_isLexeme hlexeme, String.toList_ofList, htake]
      rw [hkind] at hlexeme ⊢
      refine ⟨?_, ?_, List.cons_ne_nil _ _, ?_⟩
      · intro hfile
        rw [hfile] at hlexeme
        cases hlexeme
      · rintro d ⟨⟩
        exact hgap c rfl
      · intro tail htail
        rw [List.cons_append, Lexeme.measure_of_onLine hc, Lexeme.ofFirst_again hlexeme htail,
          List.length_cons, List.length_take_of_le (by omega), Nat.sub_add_cancel hpos]
    · intro hmark
      have hlexeme := TokenKind.isLexeme_of_isMark hmark
      obtain ⟨hpunctuation, hlength⟩ := Lexeme.punctuation_of_isMark (hkind ▸ hmark)
      refine ⟨c, hkind ▸ hpunctuation, ?_⟩
      rw [hvalue, Lexeme.value_of_isLexeme hlexeme, String.toList_ofList, hlength]
      rfl
    · intro hkeyword
      have hlexeme := TokenKind.isLexeme_of_isKeyword hkeyword
      rw [hvalue, Lexeme.value_of_isLexeme hlexeme, hkind]
      rw [hkind] at hkeyword
      exact Lexeme.keyword_of_isKeyword hkeyword

lemma rescans_of_mem_allTokens (s : Scanner) : ∀ t ∈ s.allTokens, t.Rescans := by
  refine tokens_rec (P := fun s => ∀ t ∈ s.allTokens, t.Rescans) ?_ ?_ s
  · intro s hkind
    rw [allTokens, tokens_of_eq hkind, List.nil_append, List.forall_mem_singleton]
    exact rescans_nextToken s
  · intro s hkind ih
    rw [allTokens, tokens_of_ne hkind, List.cons_append, List.forall_mem_cons]
    exact ⟨rescans_nextToken s, ih⟩

/-- A mark is a word of its own, whatever follows. -/
lemma Scans.mark {c : Char} {kind : TokenKind} {cs : List Char}
    {words : List (TokenKind × String)} (hmark : Lexeme.punctuation? c = some kind)
    (h : Scans cs words) : Scans (c :: cs) ((kind, String.ofList [c]) :: words) := by
  intro s rest hstops hrest
  have hc : Lexeme.isGap c = false ∧ Lexeme.onLine c = true ∧ kind ≠ .endOfFile ∧
      Lexeme.value kind [c] = String.ofList [c] := by
    rw [Lexeme.punctuation?.eq_def] at hmark
    split at hmark <;> cases hmark <;> decide
  have hdrop : s.rest.dropWhile Lexeme.isGap = c :: (cs ++ rest) := by
    rw [hrest, List.cons_append, List.dropWhile_cons_of_neg (by simp [hc.1])]
  have hmeasure : Lexeme.measure (s.rest.dropWhile Lexeme.isGap) = (kind, 1) := by
    rw [hdrop, Lexeme.measure_of_onLine hc.2.1, Lexeme.ofFirst, hmark]
  obtain ⟨hkind, hvalue, hrest'⟩ := nextToken_eq hmeasure
  rw [hdrop] at hvalue hrest'
  obtain ⟨ts, s', hs', hwords, htokens⟩ := h s.nextToken.2 rest hstops hrest'
  refine ⟨s.nextToken.1 :: ts, s', hs', ?_, ?_⟩
  · rw [List.map_cons, hwords, Token.word, hkind, hvalue, List.take_succ_cons, List.take_zero,
      hc.2.2.2]
  · rw [tokens_of_ne (by rw [hkind]; exact hc.2.2.1), htokens]
    rfl

lemma scans_nil : Scans [] [] :=
  fun s _ _ hrest => ⟨[], s, hrest, rfl, rfl⟩

end Scanner

/-! ### Tokens one behind the other -/

namespace Token

/-- The lexemes of tokens without gaps between them. -/
def glue (ts : List Token) : String :=
  String.join (ts.map value)

@[simp] lemma glue_nil : glue [] = "" := rfl

@[simp] lemma glue_cons (t : Token) (ts : List Token) : glue (t :: ts) = t.value ++ glue ts := by
  rw [glue, List.map_cons, String.join_cons]
  rfl

@[simp] lemma glue_append (ts us : List Token) : glue (ts ++ us) = glue ts ++ glue us := by
  rw [glue, List.map_append, String.join_append]
  rfl

/-- The tokens are those of operands, and of two neighbours at least one is a mark. -/
structure Glues (ts : List Token) : Prop where
  inOperands : ∀ t ∈ ts, t.kind.inOperands = true
  separated : ts.IsChain fun t u => t.kind.isMark = true ∨ u.kind.isMark = true

namespace Glues

variable {t mark : Token} {ts us : List Token}

lemma singleton (h : t.kind.inOperands = true) : Glues [t] :=
  ⟨List.forall_mem_singleton.mpr h, .singleton t⟩

/-- A mark may stand in front. -/
lemma cons_mark (hmark : mark.kind.isMark = true) (h : Glues ts) : Glues (mark :: ts) := by
  refine ⟨List.forall_mem_cons.mpr ⟨TokenKind.inOperands_of_isMark hmark, h.inOperands⟩, ?_⟩
  rw [List.isChain_cons]
  exact ⟨fun u _ => Or.inl hmark, h.separated⟩

/-- A mark may stand between. -/
lemma append_mark (h : Glues ts) (hmark : mark.kind.isMark = true) (h' : Glues us) :
    Glues (ts ++ mark :: us) := by
  have hrest := h'.cons_mark hmark
  refine ⟨List.forall_mem_append.mpr ⟨h.inOperands, hrest.inOperands⟩, ?_⟩
  refine List.isChain_append.mpr ⟨h.separated, hrest.separated, ?_⟩
  rintro t - u ⟨⟩
  exact Or.inr hmark

end Glues

/-- Tokens that marks keep apart can do without gaps. -/
lemma scans_glue {ts : List Token} (hglues : Glues ts) (h : ∀ t ∈ ts, t.Rescans) :
    Scanner.Scans (glue ts).toList (ts.map word) := by
  obtain ⟨hoperands, hseparated⟩ := hglues
  induction ts with
  | nil => exact Scanner.scans_nil
  | cons t ts ih =>
    rw [List.forall_mem_cons] at hoperands h
    have hrest := ih h.2 hoperands.2 (List.isChain_of_isChain_cons hseparated)
    have hlexeme := TokenKind.isLexeme_of_inOperands hoperands.1
    rw [glue_cons, String.toList_append, List.map_cons]
    by_cases hmark : t.kind.isMark = true
    · obtain ⟨c, hc, hvalue⟩ := h.1.mark hmark
      have hword : t.word = (t.kind, String.ofList [c]) := by
        rw [word, ← hvalue, String.ofList_toList]
      rw [hword, hvalue]
      exact hrest.mark hc
    · have hfirst := Scanner.scans_lexeme (h.1.lexes hlexeme)
      rw [Lexeme.value_of_isLexeme hlexeme, String.ofList_toList] at hfirst
      cases ts with
      | nil =>
        rw [glue_nil, String.toList_empty, List.append_nil]
        exact hfirst
      | cons u us =>
        have hmark' := (List.isChain_cons_cons.mp hseparated).1.resolve_left hmark
        obtain ⟨c, hc, hvalue⟩ := (h.2 u List.mem_cons_self).mark hmark'
        have hname : Lexeme.inName c = false := by
          rw [Lexeme.punctuation?.eq_def] at hc
          split at hc <;> first | rfl | cases hc
        rw [glue_cons, String.toList_append, hvalue] at hrest ⊢
        exact hfirst.append hname hrest

end Token

end MicroAsm
