import Mathlib.Data.List.Forall2
import MicroAsm.Token.Scanner

/-!
# Scanning a text of known words

A text that is put together from words with blanks and line breaks between them is scanned into
these words, line by line. Where a token stands does not matter here, only its kind and its value.
-/

namespace MicroAsm

/-- Kind and value of a token. -/
def Token.word (t : Token) : TokenKind × String :=
  (t.kind, t.value)

/-- A text starts with no character that a name or a number in front of it would take in. -/
def Stops (cs : List Char) : Prop :=
  ∀ c ∈ cs.head?, Lexeme.inName c = false

/-- The characters are a lexeme of the given kind if no letter or digit follows. -/
structure Lexes (kind : TokenKind) (cs : List Char) : Prop where
  kind_ne : kind ≠ .endOfFile
  noGap : ∀ c ∈ cs.head?, Lexeme.isGap c = false
  ne_nil : cs ≠ []
  measure : ∀ rest, Stops rest → Lexeme.measure (cs ++ rest) = (kind, cs.length)

namespace Lexeme

/-! ### Lexemes -/

/-- The character is no blank, no line break and no mark of any kind. -/
def Ordinary (c : Char) : Prop :=
  isGap c = false ∧ onLine c = true ∧ punctuation? c = none ∧ Numeral.leadingBase? c = none ∧
    c ≠ ';' ∧ ¬(c = '\'' ∨ c = '"')

instance : DecidablePred Ordinary :=
  fun _ => inferInstanceAs (Decidable (_ ∧ _))

lemma ordinary_of_isUpper {c : Char} (h : c.isUpper = true) :
    Ordinary c ∧ c.isDigit = false ∧ startsName c = true ∧ inName c = true := by
  have hall : ∀ n < 91, 65 ≤ n → Ordinary (Char.ofNat n) ∧ (Char.ofNat n).isDigit = false ∧
      startsName (Char.ofNat n) = true ∧ inName (Char.ofNat n) = true := by
    decide
  have hrange : 65 ≤ c.toNat ∧ c.toNat ≤ 90 := of_decide_eq_true h
  have hc := hall c.toNat (by omega) hrange.1
  rwa [Char.ofNat_toNat] at hc

lemma ordinary_of_isDigit {c : Char} (h : c.isDigit = true) : Ordinary c := by
  have hall : ∀ n < 58, 48 ≤ n → Ordinary (Char.ofNat n) := by decide
  have hrange : 48 ≤ c.toNat ∧ c.toNat ≤ 57 := by
    simp only [Char.isDigit, Bool.and_eq_true, decide_eq_true_eq] at h
    exact h
  have hc := hall c.toNat (by omega) hrange.1
  rwa [Char.ofNat_toNat] at hc

/-- An ordinary character starts a number, a name or nothing known. -/
lemma measure_of_ordinary {c : Char} (h : Ordinary c) (cs : List Char) :
    measure (c :: cs) =
      if c.isDigit then ofRun (c :: cs.takeWhile Char.isAlphanum)
      else if startsName c then
        (kindOfName (c :: cs.takeWhile inName), (c :: cs.takeWhile inName).length)
      else (.unknown, 1) := by
  obtain ⟨-, hline, hpunctuation, hmark, hcomment, hquote⟩ := h
  have hbreak : c ≠ '\r' := by
    rintro rfl
    cases hline
  rw [measure.eq_3 _ _ (by intro cs' hc; exact absurd hc hbreak), if_pos hline, ofFirst,
    hpunctuation, hmark]
  simp only [if_neg hcomment, if_neg hquote]

/-- Capital letters are a name. -/
lemma lexes_name {cs : List Char} (hne : cs ≠ []) (h : cs.all Char.isUpper = true) :
    Lexes (kindOfName cs) cs := by
  obtain ⟨c, cs, rfl⟩ := List.exists_cons_of_ne_nil hne
  rw [List.all_eq_true, List.forall_mem_cons] at h
  obtain ⟨hordinary, hdigit, hstart, -⟩ := ordinary_of_isUpper h.1
  refine ⟨?_, ?_, hne, ?_⟩
  · rw [kindOfName, TokenKind.keyword?.eq_def]
    split <;> simp
  · rintro c' hc'
    cases hc'
    exact hordinary.1
  · intro rest hstops
    have htake : (cs ++ rest).takeWhile inName = cs := by
      rw [List.takeWhile_append_of_pos fun c hc => (ordinary_of_isUpper (h.2 c hc)).2.2.2]
      cases rest with
      | nil => simp
      | cons c rest => simp [hstops c rfl]
    rw [List.cons_append, measure_of_ordinary hordinary, if_neg (by simp [hdigit]), if_pos hstart,
      htake]

/-- Letters and digits with a digit first are measured together. -/
lemma measure_run {c : Char} {cs rest : List Char} (hdigit : c.isDigit = true)
    (h : ∀ c ∈ cs, c.isAlphanum = true) (hrest : ∀ c ∈ rest.head?, c.isAlphanum = false) :
    measure (c :: cs ++ rest) = ofRun (c :: cs) := by
  have htake : (cs ++ rest).takeWhile Char.isAlphanum = cs := by
    rw [List.takeWhile_append_of_pos h]
    cases rest with
    | nil => simp
    | cons c rest => simp [hrest c rfl]
  rw [List.cons_append, measure_of_ordinary (ordinary_of_isDigit hdigit), if_pos hdigit, htake]

/-- Letters and digits are a number if they are one as a whole. -/
lemma lexes_run {c : Char} {cs : List Char} (hdigit : c.isDigit = true)
    (h : ∀ c ∈ cs, c.isAlphanum = true) (hrun : ofRun (c :: cs) = (.number, cs.length + 1)) :
    Lexes .number (c :: cs) := by
  refine ⟨by simp, ?_, by simp, ?_⟩
  · rintro c' hc'
    cases hc'
    exact (ordinary_of_isDigit hdigit).1
  · intro rest hstops
    have hrest : ∀ c ∈ rest.head?, c.isAlphanum = false := by
      intro c hc
      have hname := hstops c hc
      rw [inName, Bool.or_eq_false_iff] at hname
      exact hname.1
    rw [measure_run hdigit h hrest, hrun]
    rfl

end Lexeme

namespace Scanner

/-! ### Lines -/

/-- The characters are scanned into words if no letter or digit follows. -/
def Scans (cs : List Char) (words : List (TokenKind × String)) : Prop :=
  ∀ (s : Scanner) (rest : List Char), Stops rest → s.rest = cs ++ rest →
    ∃ (ts : List Token) (s' : Scanner), s'.rest = rest ∧ ts.map Token.word = words ∧
      s.tokens = (ts ++ s'.tokens.1, s'.tokens.2)

lemma tokens_of_ne {s : Scanner} (h : s.nextToken.1.kind ≠ .endOfFile) :
    s.tokens = (s.nextToken.1 :: s.nextToken.2.tokens.1, s.nextToken.2.tokens.2) := by
  rw [tokens]
  simp [h]

lemma tokens_of_eq {s : Scanner} (h : s.nextToken.1.kind = .endOfFile) :
    s.tokens = ([], s.nextToken.1, s.nextToken.2) := by
  rw [tokens]
  simp [h]

lemma tokens_congr {s s' : Scanner} (h : s.nextToken = s'.nextToken) : s.tokens = s'.tokens := by
  by_cases hkind : s.nextToken.1.kind = .endOfFile
  · have hkind' : s'.nextToken.1.kind = .endOfFile := h ▸ hkind
    rw [tokens_of_eq hkind, tokens_of_eq hkind', h]
  · have hkind' : s'.nextToken.1.kind ≠ .endOfFile := h ▸ hkind
    rw [tokens_of_ne hkind, h]
    exact (tokens_of_ne hkind').symm

/-- Kind and value of the next token, and the text behind it. -/
lemma nextToken_eq {s : Scanner} {kind : TokenKind} {length : Nat}
    (h : Lexeme.measure (s.rest.dropWhile Lexeme.isGap) = (kind, length)) :
    s.nextToken.1.kind = kind ∧
      s.nextToken.1.value = Lexeme.value kind ((s.rest.dropWhile Lexeme.isGap).take length) ∧
      s.nextToken.2.rest = (s.rest.dropWhile Lexeme.isGap).drop length := by
  simp only [nextToken, skipGap, h, cut]
  exact ⟨trivial, trivial, trivial⟩

/-- A lexeme is a word. -/
lemma scans_lexeme {cs : List Char} {kind : TokenKind} (h : Lexes kind cs) :
    Scans cs [(kind, Lexeme.value kind cs)] := by
  intro s rest hstops hrest
  have hdrop : s.rest.dropWhile Lexeme.isGap = cs ++ rest := by
    obtain ⟨c, cs', rfl⟩ := List.exists_cons_of_ne_nil h.ne_nil
    rw [hrest, List.cons_append, List.dropWhile_cons_of_neg]
    simpa using h.noGap c rfl
  have hmeasure : Lexeme.measure (s.rest.dropWhile Lexeme.isGap) = (kind, cs.length) := by
    rw [hdrop]
    exact h.measure rest hstops
  obtain ⟨hkind, hvalue, hrest'⟩ := nextToken_eq hmeasure
  rw [hdrop, List.take_left] at hvalue
  rw [hdrop, List.drop_left] at hrest'
  refine ⟨[s.nextToken.1], s.nextToken.2, hrest', ?_, ?_⟩
  · rw [List.map_singleton, Token.word, hkind, hvalue]
  · exact tokens_of_ne (by rw [hkind]; exact h.kind_ne)

/-- A comma is a word of its own, whatever follows. -/
lemma Scans.comma {cs : List Char} {words : List (TokenKind × String)} (h : Scans cs words) :
    Scans (',' :: cs) ((.comma, ",") :: words) := by
  intro s rest hstops hrest
  have hdrop : s.rest.dropWhile Lexeme.isGap = ',' :: (cs ++ rest) := by
    rw [hrest, List.cons_append, List.dropWhile_cons_of_neg]
    decide
  have hmeasure : Lexeme.measure (s.rest.dropWhile Lexeme.isGap) = (.comma, 1) := by
    rw [hdrop]
    rfl
  obtain ⟨hkind, hvalue, hrest'⟩ := nextToken_eq hmeasure
  rw [hdrop] at hvalue hrest'
  obtain ⟨ts, s', hs', hwords, htokens⟩ := h s.nextToken.2 rest hstops hrest'
  refine ⟨s.nextToken.1 :: ts, s', hs', ?_, ?_⟩
  · rw [List.map_cons, hwords, Token.word, hkind, hvalue]
    rfl
  · rw [tokens_of_ne (by simp [hkind]), htokens]
    rfl

/-- Words one behind the other, with something between them that is no letter and no digit. -/
lemma Scans.append {cs cs' : List Char} {words words' : List (TokenKind × String)} {c : Char}
    (hc : Lexeme.inName c = false) (h : Scans cs words) (h' : Scans (c :: cs') words') :
    Scans (cs ++ c :: cs') (words ++ words') := by
  intro s rest hrest hs
  rw [List.append_assoc] at hs
  have hstops : Stops (c :: cs' ++ rest) := by
    rintro c' hc'
    cases hc'
    exact hc
  obtain ⟨ts, s', hs', hwords, htokens⟩ := h s _ hstops hs
  obtain ⟨ts', s'', hs'', hwords', htokens'⟩ := h' s' rest hrest hs'
  refine ⟨ts ++ ts', s'', hs'', by rw [List.map_append, hwords, hwords'], ?_⟩
  rw [htokens, htokens', List.append_assoc]

/-- A blank in front of words does not matter. -/
lemma Scans.blank {cs : List Char} {words : List (TokenKind × String)} (h : Scans cs words) :
    Scans (' ' :: cs) words := by
  intro s rest hstops hrest
  have hskip : s.skipGap =
      skipGap { s with rest := cs ++ rest, location := s.location.advance ' ' } := by
    have hblank : Lexeme.isGap ' ' = true := by decide
    simp [skipGap, hrest, hblank]
  have htokens : s.tokens =
      tokens { s with rest := cs ++ rest, location := s.location.advance ' ' } :=
    tokens_congr (by rw [nextToken, nextToken, hskip])
  rw [htokens]
  exact h _ rest hstops rfl

/-- Nothing is left behind the last line. -/
lemma tokens_of_rest_eq_nil {s : Scanner} (h : s.rest = []) : s.tokens.1 = [] := by
  have hmeasure : Lexeme.measure (s.rest.dropWhile Lexeme.isGap) = (.endOfFile, 0) := by
    rw [h]
    rfl
  rw [tokens_of_eq (nextToken_eq hmeasure).1]

/-- A line break is a token of its own. -/
lemma tokens_of_rest_eq_newline {s : Scanner} {rest : List Char} (h : s.rest = '\n' :: rest) :
    ∃ (t : Token) (s' : Scanner), t.kind = .endOfLine ∧ s'.rest = rest ∧
      s.tokens = (t :: s'.tokens.1, s'.tokens.2) := by
  have hdrop : s.rest.dropWhile Lexeme.isGap = '\n' :: rest := by
    rw [h, List.dropWhile_cons_of_neg]
    decide
  have hmeasure : Lexeme.measure (s.rest.dropWhile Lexeme.isGap) = (.endOfLine, 1) := by
    rw [hdrop]
    rfl
  obtain ⟨hkind, -, hrest⟩ := nextToken_eq hmeasure
  refine ⟨s.nextToken.1, s.nextToken.2, hkind, ?_, tokens_of_ne (by simp [hkind])⟩
  rw [hrest, hdrop]
  rfl

end Scanner

namespace SourceLine

/-- The physical line has these words. -/
def HasWords (words : List (TokenKind × String)) (line : SourceLine) : Prop :=
  line.body.map Token.word = words

/-- Tokens up to a line break are the first line. -/
lemma split_append {last eol : Token} {ts : List Token} (us : List Token)
    (hts : ∀ t ∈ ts, t.kind ≠ .endOfLine) (heol : eol.kind = .endOfLine) :
    split last (ts ++ eol :: us) = (⟨ts, eol⟩, (split last us).1 :: (split last us).2) := by
  induction ts with
  | nil => simp [split, heol]
  | cons t ts ih =>
    rw [List.forall_mem_cons] at hts
    rw [List.cons_append, split, ih hts.2]
    simp [hts.1]

/-- The text is a line of these words. -/
def Spells (text : String) (words : List (TokenKind × String)) : Prop :=
  Scanner.Scans text.toList words ∧ ∀ word ∈ words, word.1 ≠ .endOfLine

lemma exists_split_tokens {texts : List String} {words : List (List (TokenKind × String))}
    (h : List.Forall₂ Spells texts words) {s : Scanner}
    (hrest : s.rest = (String.join (texts.map (· ++ "\n"))).toList) :
    ∃ (found : List SourceLine) (blank : SourceLine), blank.body = [] ∧
      List.Forall₂ HasWords words found ∧
      (split s.tokens.2.1 s.tokens.1).1 :: (split s.tokens.2.1 s.tokens.1).2 =
        found ++ [blank] := by
  induction h generalizing s with
  | nil =>
    rw [Scanner.tokens_of_rest_eq_nil hrest]
    exact ⟨[], _, rfl, .nil, rfl⟩
  | @cons text words texts _ hspells _ ih =>
    have hrest' : s.rest = text.toList ++
        '\n' :: (String.join (texts.map (· ++ "\n"))).toList := by
      rw [hrest, List.map_cons]
      simp
    obtain ⟨ts, s', hs', hwords, htokens⟩ :=
      hspells.1 s _ (by rintro c hc; cases hc; decide) hrest'
    obtain ⟨eol, s'', heol, hs'', htokens'⟩ := Scanner.tokens_of_rest_eq_newline hs'
    obtain ⟨found, blank, hblank, hfound, hsplit⟩ := ih hs''
    have hts : ∀ t ∈ ts, t.kind ≠ .endOfLine := by
      intro t ht
      exact hspells.2 t.word (by rw [← hwords]; exact List.mem_map_of_mem ht)
    refine ⟨⟨ts, eol⟩ :: found, blank, hblank, .cons hwords hfound, ?_⟩
    rw [htokens, htokens', split_append _ hts heol, hsplit]
    rfl

/-- A text of lines that each end with a line break: its physical lines have the words of the
lines, and the last one is blank. -/
lemma ofText_join {texts : List String} {words : List (List (TokenKind × String))}
    (h : List.Forall₂ Spells texts words) :
    ∃ (found : List SourceLine) (blank : SourceLine), blank.body = [] ∧
      List.Forall₂ HasWords words found ∧
      ofText (String.join (texts.map (· ++ "\n"))) = found ++ [blank] :=
  exists_split_tokens h rfl

end SourceLine

end MicroAsm
