import Mathlib.Data.List.Induction
import MicroAsm.Proofs.Token.Joining

/-!
# Nothing is lost in scanning

The lexemes of the tokens and the gaps between them are the whole text, and the location of a token
is that of its lexeme: lines are counted by line breaks, columns by characters and offsets by the
bytes of the characters in UTF-8. The scanner goes from place to place and never looks back, so
this comes from what is known of each place it reaches.
-/

namespace MicroAsm

/-! ### Places -/

/-- How many line breaks a text has. A carriage return is not counted in front of a line feed, as
the two are one line break. -/
def lineBreaks : List Char → Nat
  | [] => 0
  | c :: cs =>
    if c = '\n' ∨ c = '\r' ∧ cs.head? ≠ some '\n' then lineBreaks cs + 1 else lineBreaks cs

/-- The place of whatever stands behind a text. -/
def Location.behind (front : List Char) : Location where
  line := 1 + lineBreaks front
  column := 1 + (front.reverse.takeWhile fun c => c != '\r' && c != '\n').length
  offset := (String.ofList front).utf8ByteSize

/-- The end of the first text and the start of the second are not the two halves of a line
break. -/
def Apart (front cs : List Char) : Prop :=
  front.getLast? = some '\r' → cs.head? ≠ some '\n'

lemma lineBreaks_append {front cs : List Char} (h : Apart front cs) :
    lineBreaks (front ++ cs) = lineBreaks front + lineBreaks cs := by
  induction front with
  | nil => exact (Nat.zero_add _).symm
  | cons c front ih =>
    -- The character behind `c` is the same, unless `c` is the last one.
    have hhead : (c = '\n' ∨ c = '\r' ∧ (front ++ cs).head? ≠ some '\n') ↔
        c = '\n' ∨ c = '\r' ∧ front.head? ≠ some '\n' := by
      cases front with
      | nil =>
        refine or_congr_right (and_congr_right ?_)
        rintro rfl
        simpa using h rfl
      | cons d front => rfl
    have hrest : lineBreaks (front ++ cs) = lineBreaks front + lineBreaks cs := by
      refine ih ?_
      intro hlast
      refine h ?_
      rw [List.getLast?_cons, hlast]
      rfl
    rw [List.cons_append, lineBreaks, lineBreaks, hrest]
    simp only [hhead]
    split
    · exact Nat.add_right_comm _ _ _
    · rfl

lemma Lexeme.onLine_iff {c : Char} : onLine c = true ↔ c ≠ '\r' ∧ c ≠ '\n' := by
  simp [onLine]

lemma lineBreaks_of_onLine {cs : List Char} (h : ∀ c ∈ cs, Lexeme.onLine c = true) :
    lineBreaks cs = 0 := by
  induction cs with
  | nil => rfl
  | cons c cs ih =>
    rw [List.forall_mem_cons, Lexeme.onLine_iff] at h
    rw [lineBreaks, if_neg (by simp [h.1.1, h.1.2])]
    exact ih h.2

lemma Apart.of_onLine {cs : List Char} (h : ∀ c ∈ cs, Lexeme.onLine c = true) (front : List Char) :
    Apart front cs := by
  intro _ hhead
  exact (Lexeme.onLine_iff.mp (h _ (List.mem_of_head? hhead))).2 rfl

lemma Apart.of_onLine_left {cs : List Char} (h : ∀ c ∈ cs, Lexeme.onLine c = true)
    (rest : List Char) : Apart cs rest := by
  intro hlast
  exact absurd rfl (Lexeme.onLine_iff.mp (h _ (List.mem_of_getLast? hlast))).1

lemma Apart.append {front cs rest : List Char} (hfront : cs = [] → Apart front rest)
    (h : Apart cs rest) : Apart (front ++ cs) rest := by
  cases cs with
  | nil =>
    rw [List.append_nil]
    exact hfront rfl
  | cons c cs =>
    intro hlast
    refine h ?_
    rw [List.getLast?_append] at hlast
    simpa using hlast

namespace Location

variable {front cs : List Char}

/-- On the same line the place moves by characters. -/
lemma behind_append_of_onLine (h : ∀ c ∈ cs, Lexeme.onLine c = true) :
    behind (front ++ cs) = cs.foldl advance (behind front) := by
  induction cs using List.reverseRecOn with
  | nil => rw [List.append_nil, List.foldl_nil]
  | append_singleton cs c ih =>
    rw [List.forall_mem_append, List.forall_mem_singleton] at h
    have hbreaks : lineBreaks (front ++ (cs ++ [c])) = lineBreaks (front ++ cs) := by
      have hone : ∀ d ∈ [c], Lexeme.onLine d = true := List.forall_mem_singleton.mpr h.2
      rw [← List.append_assoc, lineBreaks_append (.of_onLine hone _), lineBreaks_of_onLine hone]
      rfl
    have hcolumn : (front ++ (cs ++ [c])).reverse.takeWhile (fun c => c != '\r' && c != '\n') =
        c :: (front ++ cs).reverse.takeWhile fun c => c != '\r' && c != '\n' := by
      rw [← List.append_assoc, List.reverse_append]
      exact List.takeWhile_cons_of_pos h.2
    rw [List.foldl_append, ← ih h.1, behind, hbreaks, hcolumn, ← List.append_assoc]
    simp [advance, behind, Nat.add_assoc]

/-- Behind a line break the next line starts. -/
lemma behind_append_of_break (hapart : Apart front cs)
    (h : cs = ['\r', '\n'] ∨ cs = ['\r'] ∨ cs = ['\n']) :
    behind (front ++ cs) =
      { line := (behind front).line + 1
        column := 1
        offset := (behind front).offset + cs.length } := by
  have hbreaks : lineBreaks cs = 1 := by
    rcases h with rfl | rfl | rfl <;> rfl
  have hcolumn : (front ++ cs).reverse.takeWhile (fun c => c != '\r' && c != '\n') = [] := by
    rcases h with rfl | rfl | rfl <;> simp
  have hsize : (String.ofList cs).utf8ByteSize = cs.length := by
    rcases h with rfl | rfl | rfl <;> rfl
  rw [behind, lineBreaks_append hapart, hbreaks, hcolumn, String.ofList_append,
    String.utf8ByteSize_append, hsize]
  rfl

end Location

/-! ### Lexemes -/

namespace Lexeme

variable {c : Char} {cs : List Char}

/-- The first characters of a kind that is not found in line breaks. -/
lemma onLine_of_mem_take {p : Char → Bool} (hp : ∀ c, p c = true → onLine c = true) {n : Nat}
    (hn : n ≤ (cs.takeWhile p).length) : ∀ c ∈ cs.take n, onLine c = true := by
  intro c hc
  rw [← List.takeWhile_append_dropWhile (p := p) (l := cs), List.take_append_of_le_length hn] at hc
  exact hp c (List.all_eq_true.mp List.all_takeWhile c (List.mem_of_mem_take hc))

/-- A kind of characters without those of line breaks. -/
lemma onLine_of {p : Char → Bool} (hr : p '\r' = false) (hn : p '\n' = false) (c : Char)
    (h : p c = true) : onLine c = true := by
  rw [onLine_iff]
  constructor
  · rintro rfl
    cases hr.symm.trans h
  · rintro rfl
    cases hn.symm.trans h

lemma onLine_ofQuoted {quote : Char} (h : onLine quote = true) (cs : List Char) :
    ∀ c ∈ (quote :: cs).take (ofQuoted quote cs).2, onLine c = true := by
  have hbody : ∀ c ∈ cs.take (cs.takeWhile fun c => c != quote && onLine c).length,
      onLine c = true :=
    onLine_of_mem_take (by simp) (Nat.le_refl _)
  simp only [ofQuoted]
  split
  · rename_i hquote
    rw [List.take_succ_cons, List.forall_mem_cons, List.take_add_one, List.forall_mem_append]
    refine ⟨h, hbody, ?_⟩
    rw [List.head?_drop] at hquote
    simp [hquote, h]
  · rw [List.take_succ_cons, List.forall_mem_cons]
    exact ⟨h, hbody⟩

/-- A lexeme that starts on a line stays on it. -/
lemma onLine_ofFirst (h : onLine c = true) (cs : List Char) :
    ∀ d ∈ (c :: cs).take (ofFirst c cs).2, onLine d = true := by
  have hfirst : ∀ {p : Char → Bool} {n : Nat}, (∀ c, p c = true → onLine c = true) →
      n ≤ (cs.takeWhile p).length + 1 → ∀ d ∈ (c :: cs).take n, onLine d = true := by
    intro p n hp hn
    cases n with
    | zero => simp
    | succ n =>
      rw [List.take_succ_cons, List.forall_mem_cons]
      exact ⟨h, onLine_of_mem_take hp (Nat.le_of_succ_le_succ hn)⟩
  have hrun : ∀ c, c.isAlphanum = true → onLine c = true := onLine_of rfl rfl
  simp only [ofFirst]
  split
  · exact hfirst hrun (Nat.le_add_left _ _)
  · rename_i base _ _
    have hdigit : ∀ c, Numeral.isDigitOf base c = true → onLine c = true := onLine_of rfl rfl
    refine hfirst hdigit ?_
    rw [ofMarked]
    split
    · exact Nat.le_add_left _ _
    · exact Nat.le_refl _
  · split
    · exact hfirst (fun _ => id) (Nat.le_refl _)
    · split
      · exact onLine_ofQuoted h cs
      · split
        · exact hfirst hrun (ofRun_le _)
        · split
          · exact hfirst (onLine_of rfl rfl) (Nat.le_refl _)
          · exact hfirst hrun (Nat.le_add_left _ _)

/-- What stands in front of a text: nothing, a line break, or a lexeme that stays on the line. -/
lemma measure_cases (cs : List Char) :
    cs = [] ∧ measure cs = (.endOfFile, 0) ∨
      (∃ lexeme rest, cs = lexeme ++ rest ∧ measure cs = (.endOfLine, lexeme.length) ∧
        (lexeme = ['\r', '\n'] ∨ lexeme = ['\r'] ∨ lexeme = ['\n']) ∧ Apart lexeme rest) ∨
      ∃ c rest, cs = c :: rest ∧ onLine c = true ∧ measure cs = ofFirst c rest := by
  rw [measure.eq_def]
  split
  · exact Or.inl ⟨rfl, rfl⟩
  · rename_i rest
    exact Or.inr (Or.inl ⟨['\r', '\n'], rest, rfl, rfl, Or.inl rfl, by simp [Apart]⟩)
  · rename_i c rest hpair
    by_cases hline : onLine c = true
    · exact Or.inr (Or.inr ⟨c, rest, rfl, hline, if_pos hline⟩)
    · refine Or.inr (Or.inl ⟨[c], rest, rfl, if_neg hline, ?_, ?_⟩)
      · rw [onLine_iff, not_and_or, not_not, not_not] at hline
        rcases hline with rfl | rfl
        · exact Or.inr (Or.inl rfl)
        · exact Or.inr (Or.inr rfl)
      · -- A line feed behind a carriage return would have been taken in.
        intro hlast hhead
        obtain ⟨rest, rfl⟩ := List.head?_eq_some_iff.mp hhead
        cases hlast
        exact hpair rest rfl rfl

end Lexeme

/-- The characters that a token stands for. -/
def Token.HasLexeme (t : Token) (cs : List Char) : Prop :=
  match t.kind with
  | .comment => cs = ';' :: t.value.toList
  | .endOfLine => cs = ['\r', '\n'] ∨ cs = ['\r'] ∨ cs = ['\n']
  | .endOfFile => cs = []
  | _ => cs = t.value.toList

lemma Token.hasLexeme_of_isWord {t : Token} {cs : List Char} (hkind : t.kind.isWord = true)
    (hvalue : t.value = Lexeme.value t.kind cs) : t.HasLexeme cs := by
  have hchars : t.value.toList = cs := by
    rw [hvalue, Lexeme.value.eq_def]
    split
    · rename_i heq
      rw [heq] at hkind
      cases hkind
    · rename_i heq
      rw [heq] at hkind
      cases hkind
    · exact String.toList_ofList
  rw [HasLexeme.eq_def]
  split
  · rename_i heq
    rw [heq] at hkind
    cases hkind
  · rename_i heq
    rw [heq] at hkind
    cases hkind
  · rename_i heq
    rw [heq] at hkind
    cases hkind
  · exact hchars.symm

/-! ### One token -/

namespace Scanner

/-- The scanner has read the text `front`, and knows the place it has reached. -/
structure Reached (front : List Char) (s : Scanner) : Prop where
  location : { s.location with column := s.location.column + 1 } = Location.behind front
  apart : Apart front s.rest

variable {s : Scanner} {front : List Char}

lemma next_foldl_advance (cs : List Char) (l : Location) :
    { cs.foldl Location.advance l with column := (cs.foldl Location.advance l).column + 1 } =
      cs.foldl Location.advance { l with column := l.column + 1 } := by
  induction cs generalizing l with
  | nil => rfl
  | cons c cs ih => exact ih (l.advance c)

lemma Reached.skipGap (h : Reached front s) :
    Reached (front ++ s.rest.takeWhile Lexeme.isGap) s.skipGap := by
  have hgap : ∀ c ∈ s.rest.takeWhile Lexeme.isGap, Lexeme.onLine c = true := by
    intro c hc
    have hblank := List.all_eq_true.mp List.all_takeWhile c hc
    exact (Bool.and_eq_true_iff.mp hblank).2
  refine ⟨?_, Apart.append ?_ (.of_onLine_left hgap _)⟩
  · rw [Location.behind_append_of_onLine hgap, ← h.location]
    exact next_foldl_advance _ _
  · intro hnil
    have hrest : s.rest = s.skipGap.rest := by
      calc s.rest
          = s.rest.takeWhile Lexeme.isGap ++ s.rest.dropWhile Lexeme.isGap :=
            List.takeWhile_append_dropWhile.symm
        _ = s.skipGap.rest := by rw [hnil]; rfl
    rw [← hrest]
    exact h.apart

/-- A lexeme that starts on a line is cut off as it is. -/
lemma hasLexeme_cut {kind : TokenKind} {length : Nat} {c : Char} {rest : List Char}
    (hrest : s.rest = c :: rest) (hmeasure : Lexeme.ofFirst c rest = (kind, length)) :
    kind ≠ .endOfLine ∧ (s.cut kind length).1.HasLexeme (s.rest.take length) := by
  rcases Lexeme.ofFirst_cases c rest with ⟨rfl, heq⟩ | hword
  · cases heq.symm.trans hmeasure
    refine ⟨by simp, ?_⟩
    simp [Token.HasLexeme, Scanner.cut, Lexeme.value, hrest]
  · rw [hmeasure] at hword
    refine ⟨?_, Token.hasLexeme_of_isWord hword rfl⟩
    rintro rfl
    cases hword

/-- A token takes its lexeme off the text. -/
lemma Reached.cut {kind : TokenKind} {length : Nat} (h : Reached front s)
    (hmeasure : Lexeme.measure s.rest = (kind, length)) :
    ∃ lexeme, s.rest = lexeme ++ (s.cut kind length).2.rest ∧
      (s.cut kind length).1.HasLexeme lexeme ∧ (kind ≠ .endOfFile → lexeme ≠ []) ∧
      Reached (front ++ lexeme) (s.cut kind length).2 := by
  have hlocation := h.location
  have hapart := h.apart
  rcases Lexeme.measure_cases s.rest with
    ⟨hrest, heq⟩ | ⟨lexeme, rest, hrest, heq, hbreak, hbehind⟩ | ⟨c, rest, hrest, hline, heq⟩
  · cases heq.symm.trans hmeasure
    refine ⟨[], ?_, rfl, by simp, ?_⟩
    · simp [Scanner.cut]
    · rw [List.append_nil]
      exact ⟨hlocation, hapart⟩
  · cases heq.symm.trans hmeasure
    have hafter : (s.cut .endOfLine lexeme.length).2.rest = rest := by
      simp [Scanner.cut, hrest]
    rw [hrest] at hapart
    have hfront : Apart front lexeme := by
      intro hlast hhead
      refine hapart hlast ?_
      rw [List.head?_append, hhead]
      rfl
    have hne : lexeme ≠ [] := by
      rcases hbreak with rfl | rfl | rfl <;> simp
    refine ⟨lexeme, by rw [hafter, hrest], hbreak, fun _ => hne, ?_, ?_⟩
    · rw [Location.behind_append_of_break hfront hbreak, ← hlocation]
      rfl
    · rw [hafter]
      exact Apart.append (fun hnil => absurd hnil hne) hbehind
  · rw [heq] at hmeasure
    obtain ⟨hkind, hlexeme⟩ := hasLexeme_cut hrest hmeasure
    have honline : ∀ d ∈ s.rest.take length, Lexeme.onLine d = true := by
      have hall := Lexeme.onLine_ofFirst hline rest
      rwa [hmeasure, ← hrest] at hall
    have hne : s.rest.take length ≠ [] := by
      have hpos := Lexeme.ofFirst_pos c rest
      rw [hmeasure] at hpos
      simp [hrest, Nat.ne_of_gt hpos]
    refine ⟨s.rest.take length, (List.take_append_drop _ _).symm, hlexeme, fun _ => hne, ?_, ?_⟩
    · rw [Location.behind_append_of_onLine honline, ← hlocation]
      simp only [Scanner.cut, if_neg hkind]
      exact next_foldl_advance _ _
    · exact Apart.append (fun hnil => absurd hnil hne) (.of_onLine_left honline _)

/-- A token behind a gap. -/
lemma Reached.nextToken (h : Reached front s) :
    ∃ gap lexeme, s.rest = gap ++ lexeme ++ s.nextToken.2.rest ∧
      (∀ c ∈ gap, Lexeme.isGap c = true) ∧ s.nextToken.1.HasLexeme lexeme ∧
      (s.nextToken.1.kind ≠ .endOfFile → lexeme ≠ []) ∧
      s.nextToken.1.location = Location.behind (front ++ gap) ∧
      Reached (front ++ gap ++ lexeme) s.nextToken.2 := by
  obtain ⟨lexeme, hrest, hlexeme, hne, hreached⟩ := h.skipGap.cut rfl
  refine ⟨s.rest.takeWhile Lexeme.isGap, lexeme, ?_, ?_, hlexeme, hne, h.skipGap.location,
    hreached⟩
  · calc s.rest
        = s.rest.takeWhile Lexeme.isGap ++ s.skipGap.rest :=
          List.takeWhile_append_dropWhile.symm
      _ = s.rest.takeWhile Lexeme.isGap ++ lexeme ++ s.nextToken.2.rest := by
          rw [hrest, List.append_assoc]
          rfl
  · exact List.all_eq_true.mp List.all_takeWhile

lemma rest_nextToken_of_endOfFile (h : s.nextToken.1.kind = .endOfFile) :
    s.nextToken.2.rest = [] := by
  have hkind : (Lexeme.measure s.skipGap.rest).1 = .endOfFile := h
  rcases Lexeme.measure_cases s.skipGap.rest with
    ⟨hrest, heq⟩ | ⟨lexeme, rest, -, heq, -⟩ | ⟨c, rest, -, -, heq⟩
  · have hdrop : s.nextToken.2.rest = s.skipGap.rest.drop (Lexeme.measure s.skipGap.rest).2 := rfl
    rw [hdrop, hrest]
    exact List.drop_nil
  · rw [heq] at hkind
    cases hkind
  · rw [heq] at hkind
    exact absurd hkind (Lexeme.ofFirst_kind c rest).2

end Scanner

/-! ### All tokens -/

/-- What stands in the text for one token: the gap in front of it, and its lexeme. -/
structure Piece where
  gap : List Char
  lexeme : List Char

def Piece.text (p : Piece) : List Char :=
  p.gap ++ p.lexeme

/-- The piece stands for the token. -/
structure Piece.IsOf (p : Piece) (t : Token) : Prop where
  gap : ∀ c ∈ p.gap, Text.isBlank c = true ∧ c ≠ '\r' ∧ c ≠ '\n'
  lexeme : t.HasLexeme p.lexeme
  ne_nil : t.kind ≠ .endOfFile → p.lexeme ≠ []

namespace Scanner

variable {s : Scanner} {front : List Char}

lemma isOf_of_gap {gap lexeme : List Char} {t : Token}
    (hgap : ∀ c ∈ gap, Lexeme.isGap c = true) (hlexeme : t.HasLexeme lexeme)
    (hne : t.kind ≠ .endOfFile → lexeme ≠ []) : Piece.IsOf ⟨gap, lexeme⟩ t := by
  refine ⟨?_, hlexeme, hne⟩
  intro c hc
  obtain ⟨hblank, hline⟩ := Bool.and_eq_true_iff.mp (hgap c hc)
  exact ⟨hblank, Lexeme.onLine_iff.mp hline⟩

/-- The pieces of the text that is still to be read, for the tokens to come. -/
lemma Reached.exists_pieces (h : Reached front s) :
    ∃ pieces : List Piece, pieces.flatMap Piece.text = s.rest ∧
      List.Forall₂ (fun t p => p.IsOf t) s.allTokens pieces ∧
      ∀ i t p, s.allTokens[i]? = some t → pieces[i]? = some p →
        t.location = Location.behind (front ++ (pieces.take i).flatMap Piece.text ++ p.gap) := by
  revert front
  refine tokens_rec (P := fun s => ∀ {front}, Reached front s →
    ∃ pieces : List Piece, pieces.flatMap Piece.text = s.rest ∧
      List.Forall₂ (fun t p => p.IsOf t) s.allTokens pieces ∧
      ∀ i t p, s.allTokens[i]? = some t → pieces[i]? = some p →
        t.location = Location.behind (front ++ (pieces.take i).flatMap Piece.text ++ p.gap))
    ?_ ?_ s
  · intro s hkind front h
    obtain ⟨gap, lexeme, hrest, hgap, hlexeme, hne, hlocation, -⟩ := h.nextToken
    rw [rest_nextToken_of_endOfFile hkind, List.append_nil] at hrest
    have htokens : s.allTokens = [s.nextToken.1] := by
      rw [allTokens, tokens_of_eq hkind]
      rfl
    rw [htokens]
    refine ⟨[⟨gap, lexeme⟩], ?_, .cons (isOf_of_gap hgap hlexeme hne) .nil, ?_⟩
    · simp [Piece.text, hrest]
    · intro i t p ht hp
      cases i with
      | zero =>
        cases ht
        cases hp
        simpa using hlocation
      | succ i => cases ht
  · intro s hkind ih front h
    obtain ⟨gap, lexeme, hrest, hgap, hlexeme, hne, hlocation, hreached⟩ := h.nextToken
    obtain ⟨pieces, htext, hpieces, hlocations⟩ := ih hreached
    have htokens : s.allTokens = s.nextToken.1 :: s.nextToken.2.allTokens := by
      rw [allTokens, tokens_of_ne hkind]
      rfl
    rw [htokens]
    refine ⟨⟨gap, lexeme⟩ :: pieces, ?_, .cons (isOf_of_gap hgap hlexeme hne) hpieces, ?_⟩
    · rw [List.flatMap_cons, htext, hrest]
      rfl
    · intro i t p ht hp
      cases i with
      | zero =>
        cases ht
        cases hp
        simpa using hlocation
      | succ i =>
        have hfront : front ++ gap ++ lexeme ++ (pieces.take i).flatMap Piece.text =
            front ++ ((⟨gap, lexeme⟩ :: pieces).take (i + 1)).flatMap Piece.text := by
          simp [Piece.text]
        rw [← hfront]
        exact hlocations i t p ht hp

end Scanner

/-- The lexemes of the tokens of a text and the gaps in front of them are the text. Gaps are blank
and have no line break in them, and every lexeme but that of the end of the file has a character.
The location of a token is the place behind all of the text in front of its lexeme. -/
theorem tokens_lossless (text : String) :
    ∃ pieces : List Piece, pieces.flatMap Piece.text = text.toList ∧
      List.Forall₂ (fun t p => p.IsOf t) (Scanner.ofText text).allTokens pieces ∧
      ∀ i t p, (Scanner.ofText text).allTokens[i]? = some t → pieces[i]? = some p →
        t.location = Location.behind ((pieces.take i).flatMap Piece.text ++ p.gap) := by
  have hstart : Scanner.Reached [] (Scanner.ofText text) := by
    refine ⟨rfl, ?_⟩
    intro hlast
    cases hlast
  exact hstart.exists_pieces

end MicroAsm
