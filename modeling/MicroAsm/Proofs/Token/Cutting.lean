import MicroAsm.Proofs.Token.Lossless

/-!
# Texts cut behind line breaks

A lexeme never goes on behind a line break, so a text is scanned line by line: the tokens of a line
are those it has on its own, at the place where it starts. A text that ends with a line break thus
has its lines in front of whatever follows.
-/

namespace MicroAsm

namespace Lexeme

/-- The text does not go on with the line in front of it. -/
def Breaks (cs : List Char) : Prop :=
  ∀ c ∈ cs.head?, onLine c = false

variable {c : Char} {cs rest : List Char} {p : Char → Bool}

/-! ### Lexemes in front of a line break -/

lemma takeWhile_breaks (hp : ∀ c, p c = true → onLine c = true) (h : Breaks rest)
    (cs : List Char) : (cs ++ rest).takeWhile p = cs.takeWhile p := by
  induction cs with
  | nil =>
    cases rest with
    | nil => rfl
    | cons d rest =>
      rw [List.nil_append, List.takeWhile_cons_of_neg, List.takeWhile_nil]
      intro hd
      cases (hp d hd).symm.trans (h d rfl)
  | cons c cs ih => rw [List.cons_append, List.takeWhile_cons, List.takeWhile_cons, ih]

lemma dropWhile_breaks (hp : ∀ c, p c = true → onLine c = true) (h : Breaks rest)
    (cs : List Char) : (cs ++ rest).dropWhile p = cs.dropWhile p ++ rest := by
  induction cs with
  | nil =>
    cases rest with
    | nil => rfl
    | cons d rest =>
      rw [List.nil_append, List.dropWhile_nil, List.nil_append, List.dropWhile_cons_of_neg]
      intro hd
      cases (hp d hd).symm.trans (h d rfl)
  | cons c cs ih =>
    rw [List.cons_append, List.dropWhile_cons, List.dropWhile_cons, ih]
    split <;> rfl

lemma ofMarked_breaks (h : Breaks rest) (mark : Char) (base : Nat) (cs : List Char) :
    ofMarked mark base (cs ++ rest) = ofMarked mark base cs := by
  rw [ofMarked, ofMarked, takeWhile_breaks (onLine_of rfl rfl) h]

lemma ofQuoted_breaks (h : Breaks rest) {quote : Char} (hquote : onLine quote = true)
    (cs : List Char) : ofQuoted quote (cs ++ rest) = ofQuoted quote cs := by
  have hbody : (cs ++ rest).takeWhile (fun c => c != quote && onLine c) =
      cs.takeWhile fun c => c != quote && onLine c :=
    takeWhile_breaks (fun c hc => (Bool.and_eq_true_iff.mp hc).2) h cs
  have hle : (cs.takeWhile fun c => c != quote && onLine c).length ≤ cs.length :=
    (List.takeWhile_sublist _).length_le
  simp only [ofQuoted, hbody]
  rw [List.drop_append_of_le_length hle]
  cases cs.drop (cs.takeWhile fun c => c != quote && onLine c).length with
  | cons d cs => rfl
  | nil =>
    -- Behind the end of the line there is no closing quote.
    have hnone : rest.head? ≠ some quote := by
      intro hhead
      cases hquote.symm.trans (h quote hhead)
    rw [List.nil_append, if_neg hnone]
    rfl

lemma onLine_of_quote (h : c = '\'' ∨ c = '"') : onLine c = true := by
  rcases h with rfl | rfl <;> rfl

/-- A lexeme in front of a line break is the same as at the end of the text. -/
lemma ofFirst_breaks (h : Breaks rest) (c : Char) (cs : List Char) :
    ofFirst c (cs ++ rest) = ofFirst c cs := by
  have hrun : ∀ c, c.isAlphanum = true → onLine c = true := onLine_of rfl rfl
  have hname : ∀ c, inName c = true → onLine c = true := onLine_of rfl rfl
  simp only [ofFirst, ofMarked_breaks h, takeWhile_breaks (fun _ => id) h, takeWhile_breaks hrun h,
    takeWhile_breaks hname h]
  by_cases hquote : c = '\'' ∨ c = '"'
  · rw [ofQuoted_breaks h (onLine_of_quote hquote)]
  · simp only [if_neg hquote]

lemma measure_of_onLine (h : onLine c = true) (cs : List Char) :
    measure (c :: cs) = ofFirst c cs := by
  rcases measure_cases (c :: cs) with
    ⟨hnil, -⟩ | ⟨lexeme, rest, hcs, -, hbreak, -⟩ | ⟨d, rest, hcs, -, heq⟩
  · cases hnil
  · rcases hbreak with rfl | rfl | rfl
    all_goals
      cases hcs
      cases h
  · cases hcs
    exact heq

end Lexeme

namespace Scanner

variable {line rest : List Char} {l : Location} {done : Bool}

/-! ### The tokens of a line -/

lemma skipGap_breaks (h : Lexeme.Breaks rest) :
    skipGap ⟨line ++ rest, l, done⟩ =
      ⟨(skipGap ⟨line, l, done⟩).rest ++ rest, (skipGap ⟨line, l, done⟩).location, done⟩ := by
  have hgap : ∀ c, Lexeme.isGap c = true → Lexeme.onLine c = true :=
    fun c hc => (Bool.and_eq_true_iff.mp hc).2
  simp only [skipGap, Lexeme.takeWhile_breaks hgap h, Lexeme.dropWhile_breaks hgap h]

lemma foldl_advance_skipGap :
    (skipGap ⟨line, l, done⟩).rest.foldl Location.advance (skipGap ⟨line, l, done⟩).location =
      line.foldl Location.advance l := by
  simp only [skipGap]
  rw [← List.foldl_append, List.takeWhile_append_dropWhile]

lemma mem_of_mem_skipGap {c : Char} (h : c ∈ (skipGap ⟨line, l, done⟩).rest) : c ∈ line :=
  (List.dropWhile_sublist Lexeme.isGap).subset h

/-- A line without a token is skipped. -/
lemma nextToken_of_endOfFile (hline : ∀ c ∈ line, Lexeme.onLine c = true)
    (h : Lexeme.Breaks rest)
    (hkind : (nextToken ⟨line, l, done⟩).1.kind = .endOfFile) :
    nextToken ⟨line ++ rest, l, done⟩ =
      nextToken ⟨rest, line.foldl Location.advance l, done⟩ := by
  have hnil : (skipGap ⟨line, l, done⟩).rest = [] := by
    have hkind' : (Lexeme.measure (skipGap ⟨line, l, done⟩).rest).1 = .endOfFile := hkind
    cases hrest : (skipGap ⟨line, l, done⟩).rest with
    | nil => rfl
    | cons c cs =>
      have hmem : c ∈ (skipGap ⟨line, l, done⟩).rest := by
        rw [hrest]
        exact List.mem_cons_self
      rw [hrest, Lexeme.measure_of_onLine (hline c (mem_of_mem_skipGap hmem))] at hkind'
      exact absurd hkind' (Lexeme.ofFirst_kind c cs).2
  have hskip : skipGap ⟨line ++ rest, l, done⟩ =
      skipGap ⟨rest, line.foldl Location.advance l, done⟩ := by
    have hlocation := @foldl_advance_skipGap line l done
    have hrest := @skipGap_breaks [] rest (line.foldl Location.advance l) done h
    rw [hnil] at hlocation
    rw [skipGap_breaks h, hnil, ← hlocation]
    rw [← hlocation] at hrest
    exact hrest.symm
  rw [nextToken, nextToken, hskip]

/-- The next token of a line is the same with a line break behind the line. -/
lemma nextToken_breaks (hline : ∀ c ∈ line, Lexeme.onLine c = true) (h : Lexeme.Breaks rest)
    (hkind : (nextToken ⟨line, l, done⟩).1.kind ≠ .endOfFile) :
    ∃ line' l', (∀ c ∈ line', Lexeme.onLine c = true) ∧ line'.length < line.length ∧
      (nextToken ⟨line, l, done⟩).1.kind ≠ .endOfLine ∧
      line'.foldl Location.advance l' = line.foldl Location.advance l ∧
      (nextToken ⟨line, l, done⟩).2 = ⟨line', l', done⟩ ∧
      nextToken ⟨line ++ rest, l, done⟩ =
        ((nextToken ⟨line, l, done⟩).1, ⟨line' ++ rest, l', done⟩) := by
  have hlt := nextToken_rest_lt ⟨line, l, done⟩ hkind
  have hfold := @foldl_advance_skipGap line l done
  have hsub : ∀ c ∈ (skipGap ⟨line, l, done⟩).rest, Lexeme.onLine c = true :=
    fun c hc => hline c (mem_of_mem_skipGap hc)
  cases hskip : (skipGap ⟨line, l, done⟩).rest with
  | nil =>
    have hnext : (nextToken ⟨line, l, done⟩).1.kind =
        (Lexeme.measure (skipGap ⟨line, l, done⟩).rest).1 := rfl
    rw [hskip] at hnext
    exact absurd hnext hkind
  | cons c cs =>
    rw [hskip] at hsub
    have hc := hsub c List.mem_cons_self
    have hmeasure := Lexeme.measure_of_onLine hc cs
    have hmeasure' : Lexeme.measure (c :: cs ++ rest) = Lexeme.ofFirst c cs := by
      rw [List.cons_append, Lexeme.measure_of_onLine hc, Lexeme.ofFirst_breaks h]
    have hword := (Lexeme.ofFirst_kind c cs).1
    have hnext : nextToken ⟨line, l, done⟩ = (skipGap ⟨line, l, done⟩).cut
        (Lexeme.ofFirst c cs).1 (Lexeme.ofFirst c cs).2 := by
      simp only [nextToken, hskip, hmeasure]
    have hnext' : nextToken ⟨line ++ rest, l, done⟩ = (skipGap ⟨line ++ rest, l, done⟩).cut
        (Lexeme.ofFirst c cs).1 (Lexeme.ofFirst c cs).2 := by
      simp only [nextToken, skipGap_breaks h, hskip, hmeasure']
    refine ⟨(c :: cs).drop (Lexeme.ofFirst c cs).2,
      ((c :: cs).take (Lexeme.ofFirst c cs).2).foldl Location.advance
        (skipGap ⟨line, l, done⟩).location, ?_, ?_, ?_, ?_, ?_, ?_⟩
    · intro d hd
      exact hsub d (List.mem_of_mem_drop hd)
    · rw [hnext] at hlt
      simpa only [cut, hskip] using hlt
    · rw [hnext]
      exact hword
    · rw [← List.foldl_append, List.take_append_drop, ← hskip]
      exact hfold
    · rw [hnext]
      simp only [cut, hskip, if_neg hword]
      rfl
    · rw [hnext', hnext, skipGap_breaks h, hskip]
      have hlength : (Lexeme.ofFirst c cs).2 ≤ (c :: cs).length := Lexeme.ofFirst_le c cs
      simp only [cut, hskip, if_neg hword, List.take_append_of_le_length hlength,
        List.drop_append_of_le_length hlength]

/-- The tokens of a line come in front of those behind it. -/
lemma tokens_breaks (hline : ∀ c ∈ line, Lexeme.onLine c = true) (h : Lexeme.Breaks rest)
    (l : Location) :
    tokens ⟨line ++ rest, l, done⟩ =
      ((tokens ⟨line, l, done⟩).1 ++
          (tokens ⟨rest, line.foldl Location.advance l, done⟩).1,
        (tokens ⟨rest, line.foldl Location.advance l, done⟩).2) ∧
    ∀ t ∈ (tokens ⟨line, l, done⟩).1, t.kind ≠ .endOfLine := by
  induction hlength : line.length using Nat.strongRecOn generalizing line l with
  | ind n ih =>
    by_cases hkind : (nextToken ⟨line, l, done⟩).1.kind = .endOfFile
    · rw [tokens_congr (nextToken_of_endOfFile hline h hkind), tokens_of_eq hkind]
      exact ⟨rfl, by simp⟩
    · obtain ⟨line', l', hline', hlt, heol, hfold, hafter, hnext⟩ := nextToken_breaks hline h hkind
      obtain ⟨htokens, hkinds⟩ := ih _ (hlength ▸ hlt) hline' l' rfl
      have hkind' : (nextToken ⟨line ++ rest, l, done⟩).1.kind ≠ .endOfFile := by
        rw [hnext]
        exact hkind
      rw [tokens_of_ne hkind', hnext, tokens_of_ne hkind, hafter, htokens, hfold]
      exact ⟨rfl, List.forall_mem_cons.mpr ⟨heol, hkinds⟩⟩

end Scanner

/-! ### Lines -/

lemma Apart.of_append {front tail rest : List Char} (h : Apart (front ++ tail) rest) :
    Apart tail rest := by
  intro hlast
  refine h ?_
  rw [List.getLast?_append, hlast]
  rfl

/-- The characters are a line break, with no other half of it behind them. -/
structure IsBreak (cs rest : List Char) : Prop where
  eq : cs = ['\r', '\n'] ∨ cs = ['\r'] ∨ cs = ['\n']
  apart : Apart cs rest

namespace IsBreak

variable {cs rest : List Char}

lemma ne_nil (h : IsBreak cs rest) : cs ≠ [] := by
  rcases h.eq with rfl | rfl | rfl <;> simp

lemma breaks (h : IsBreak cs rest) : Lexeme.Breaks (cs ++ rest) := by
  intro c hc
  rcases h.eq with rfl | rfl | rfl
  all_goals
    cases hc
    rfl

lemma measure (h : IsBreak cs rest) : Lexeme.measure (cs ++ rest) = (.endOfLine, cs.length) := by
  rcases h.eq with rfl | rfl | rfl
  · rfl
  · rw [List.singleton_append, Lexeme.measure.eq_3]
    · rfl
    · rintro tail - rfl
      exact h.apart rfl rfl
  · rfl

/-- A line break is the next token. -/
lemma nextToken (h : IsBreak cs rest) (l : Location) (done : Bool) :
    Scanner.nextToken ⟨cs ++ rest, l, done⟩ =
      (⟨.endOfLine, "\n", { l with column := l.column + 1 }⟩,
        ⟨rest, l.breakLine cs.length, done⟩) := by
  have hgap : Scanner.skipGap ⟨cs ++ rest, l, done⟩ = ⟨cs ++ rest, l, done⟩ := by
    have hskip := @Scanner.skipGap_breaks [] (cs ++ rest) l done h.breaks
    exact hskip
  rw [Scanner.nextToken, hgap]
  simp only [h.measure, Scanner.cut, Lexeme.value, List.drop_left, if_pos]

lemma append {tail : List Char} (h : IsBreak cs tail) (hapart : Apart (cs ++ tail) rest) :
    IsBreak cs (tail ++ rest) := by
  refine ⟨h.eq, ?_⟩
  cases tail with
  | nil =>
    rw [List.append_nil] at hapart
    exact hapart
  | cons c tail => exact h.apart

end IsBreak

/-- What holds of a line and, of a text, if it holds behind the first line break, holds of every
text. -/
lemma lines_rec {P : List Char → Prop}
    (hline : ∀ line, (∀ c ∈ line, Lexeme.onLine c = true) → P line)
    (hbreak : ∀ line cs rest, (∀ c ∈ line, Lexeme.onLine c = true) → IsBreak cs rest → P rest →
      P (line ++ (cs ++ rest)))
    (cs : List Char) : P cs := by
  induction hlength : cs.length using Nat.strongRecOn generalizing cs with
  | ind n ih =>
    have hfirst : ∀ c ∈ cs.takeWhile Lexeme.onLine, Lexeme.onLine c = true :=
      List.all_eq_true.mp List.all_takeWhile
    have hsplit : cs.takeWhile Lexeme.onLine ++ cs.dropWhile Lexeme.onLine = cs :=
      List.takeWhile_append_dropWhile
    rcases Lexeme.measure_cases (cs.dropWhile Lexeme.onLine) with
      ⟨hnil, -⟩ | ⟨lexeme, rest, hcs, -, heq, hapart⟩ | ⟨c, rest, hcs, hc, -⟩
    · rw [hnil, List.append_nil] at hsplit
      rw [← hsplit]
      exact hline _ hfirst
    · have hisBreak : IsBreak lexeme rest := ⟨heq, hapart⟩
      have hpos := List.length_pos_iff.mpr hisBreak.ne_nil
      rw [hcs] at hsplit
      have hlt : rest.length < n := by
        rw [← hlength, ← hsplit, List.length_append, List.length_append]
        omega
      rw [← hsplit]
      exact hbreak _ _ _ hfirst hisBreak (ih _ hlt rest rfl)
    · -- What follows the line does not go on with it.
      have hnot := List.head?_dropWhile_not Lexeme.onLine cs
      rw [hcs] at hnot
      simp [hc] at hnot

/-! ### The first lines of a text -/

/-- The first physical lines of a text with their line breaks. -/
def Text.firstLines : Nat → List Char → List Char
  | 0, _ => []
  | _ + 1, [] => []
  | n + 1, '\r' :: '\n' :: cs => '\r' :: '\n' :: firstLines n cs
  | n + 1, c :: cs => c :: firstLines (if Lexeme.onLine c then n + 1 else n) cs

namespace Text

variable {line cs rest : List Char}

lemma firstLines_line (hline : ∀ c ∈ line, Lexeme.onLine c = true) (n : Nat) (rest : List Char) :
    firstLines (n + 1) (line ++ rest) = line ++ firstLines (n + 1) rest := by
  induction line with
  | nil => rfl
  | cons c line ih =>
    rw [List.forall_mem_cons] at hline
    rw [List.cons_append, firstLines.eq_4, if_pos hline.1, ih hline.2, List.cons_append]
    rintro tail rfl -
    cases hline.1

lemma firstLines_break (h : IsBreak cs rest) (n : Nat) :
    firstLines (n + 1) (cs ++ rest) = cs ++ firstLines n rest := by
  rcases h.eq with rfl | rfl | rfl
  · rfl
  · rw [List.singleton_append, firstLines.eq_4]
    · rfl
    · rintro tail - rfl
      exact h.apart rfl rfl
  · rfl

/-- The first lines start as the text does, if there are any. -/
lemma head?_firstLines (n : Nat) (cs : List Char) :
    firstLines n cs = [] ∨ (firstLines n cs).head? = cs.head? := by
  cases n with
  | zero => exact Or.inl (firstLines.eq_1 cs)
  | succ n =>
    right
    match cs with
    | [] => rw [firstLines]
    | [c] =>
      rw [firstLines]
      · rfl
      · simp
    | c :: d :: cs =>
      by_cases hpair : c = '\r' ∧ d = '\n'
      · rw [hpair.1, hpair.2, firstLines]
        rfl
      · rw [firstLines]
        · rfl
        · rintro tail rfl htail
          cases htail
          exact hpair ⟨rfl, rfl⟩

lemma isBreak_firstLines (h : IsBreak cs rest) (n : Nat) : IsBreak cs (firstLines n rest) := by
  refine ⟨h.eq, ?_⟩
  rcases head?_firstLines n rest with hnil | hhead
  · rw [hnil]
    simp [Apart]
  · intro hlast
    rw [hhead]
    exact h.apart hlast

end Text

namespace SourceLine

variable {line cs rest : List Char} {l : Location} {done : Bool}

lemma split_of_ne {last : Token} {ts : List Token} (h : ∀ t ∈ ts, t.kind ≠ .endOfLine) :
    split last ts = (⟨ts, last⟩, []) := by
  induction ts with
  | nil => rfl
  | cons t ts ih =>
    rw [List.forall_mem_cons] at h
    simp [split, ih h.2, h.1]

/-- The last line of a text. -/
lemma ofScanner_line (hline : ∀ c ∈ line, Lexeme.onLine c = true) (l : Location) :
    ofScanner ⟨line, l, done⟩ =
      [⟨(Scanner.tokens ⟨line, l, done⟩).1, (Scanner.tokens ⟨line, l, done⟩).2.1⟩] := by
  have hkinds := (@Scanner.tokens_breaks line [] done hline (by simp [Lexeme.Breaks]) l).2
  rw [ofScanner, split_of_ne hkinds]

/-- The first line of a text, and the lines behind its line break. -/
lemma ofScanner_break (hline : ∀ c ∈ line, Lexeme.onLine c = true) (h : IsBreak cs rest)
    (l : Location) :
    ofScanner ⟨line ++ (cs ++ rest), l, done⟩ =
      ⟨(Scanner.tokens ⟨line, l, done⟩).1,
        (Scanner.nextToken ⟨cs ++ rest, line.foldl Location.advance l, done⟩).1⟩ ::
        ofScanner ⟨rest, (line.foldl Location.advance l).breakLine cs.length, done⟩ := by
  obtain ⟨htokens, hkinds⟩ := @Scanner.tokens_breaks line (cs ++ rest) done hline h.breaks l
  have hnext := h.nextToken (line.foldl Location.advance l) done
  have hbehind := Scanner.tokens_of_ne (s := ⟨cs ++ rest, line.foldl Location.advance l, done⟩)
    (by simp [hnext])
  rw [ofScanner, htokens, hbehind, hnext, split_append _ hkinds rfl]
  rfl

lemma ofScanner_firstLines_zero (cs : List Char) (l : Location) :
    ∃ blank : SourceLine, blank.body = [] ∧
      ofScanner ⟨Text.firstLines 0 cs, l, done⟩ =
        (ofScanner ⟨cs, l, done⟩).take 0 ++ [blank] := by
  have hblank := @ofScanner_line [] done (by simp) l
  rw [Text.firstLines, hblank]
  exact ⟨_, Scanner.tokens_of_rest_eq_nil rfl, rfl⟩

/-- The first lines of a text are all of its lines, or they are the same on their own, with a blank
line behind them. -/
lemma ofScanner_firstLines (n : Nat) (cs : List Char) (l : Location) :
    (ofScanner ⟨cs, l, done⟩).length ≤ n ∧ Text.firstLines n cs = cs ∨
      ∃ blank : SourceLine, blank.body = [] ∧
        ofScanner ⟨Text.firstLines n cs, l, done⟩ =
          (ofScanner ⟨cs, l, done⟩).take n ++ [blank] := by
  revert n l
  refine lines_rec (P := fun cs => ∀ n l,
    (ofScanner ⟨cs, l, done⟩).length ≤ n ∧ Text.firstLines n cs = cs ∨
      ∃ blank : SourceLine, blank.body = [] ∧
        ofScanner ⟨Text.firstLines n cs, l, done⟩ =
          (ofScanner ⟨cs, l, done⟩).take n ++ [blank]) ?_ ?_ cs
  · intro line hline n l
    cases n with
    | zero =>
      exact Or.inr (ofScanner_firstLines_zero _ l)
    | succ n =>
      left
      have hfirst := Text.firstLines_line hline n []
      rw [List.append_nil] at hfirst
      rw [ofScanner_line hline, hfirst]
      exact ⟨Nat.succ_le_succ (Nat.zero_le n), List.append_nil line⟩
  · intro line cs rest hline h ih n l
    cases n with
    | zero =>
      exact Or.inr (ofScanner_firstLines_zero _ l)
    | succ n =>
      have h' := Text.isBreak_firstLines h n
      rw [Text.firstLines_line hline, Text.firstLines_break h, ofScanner_break hline h,
        ofScanner_break hline h', h.nextToken, h'.nextToken]
      rcases ih n ((line.foldl Location.advance l).breakLine cs.length) with
        ⟨hle, hall⟩ | ⟨blank, hblank, hlines⟩
      · exact Or.inl ⟨Nat.succ_le_succ hle, by rw [hall]⟩
      · exact Or.inr ⟨blank, hblank, by rw [hlines]; rfl⟩

/-- The line break at the end of a text ends its last line. -/
def EndsLine (cs : List Char) : Prop :=
  ∀ c ∈ cs.getLast?, Lexeme.onLine c = false

lemma EndsLine.of_append {front tail : List Char} (h : EndsLine (front ++ tail)) :
    EndsLine tail := by
  intro c hc
  refine h c ?_
  rw [List.getLast?_append, hc]
  rfl

/-- Of two texts the first of which ends its last line: the lines of the first, without the blank
one at its end, and those of the second. -/
lemma ofScanner_append {front : List Char} (hends : EndsLine front) (hapart : Apart front rest)
    (l : Location) :
    ∃ l', ofScanner ⟨front ++ rest, l, done⟩ =
      (ofScanner ⟨front, l, done⟩).dropLast ++ ofScanner ⟨rest, l', done⟩ := by
  revert hends hapart l
  refine lines_rec (P := fun front => EndsLine front → Apart front rest → ∀ l,
    ∃ l', ofScanner ⟨front ++ rest, l, done⟩ =
      (ofScanner ⟨front, l, done⟩).dropLast ++ ofScanner ⟨rest, l', done⟩) ?_ ?_ front
  · intro line hline hends _ l
    cases hlast : line.getLast? with
    | none =>
      obtain rfl := List.getLast?_eq_none_iff.mp hlast
      have hblank := @ofScanner_line [] done (by simp) l
      refine ⟨l, ?_⟩
      rw [hblank]
      rfl
    | some c =>
      have hc := hline c (List.mem_of_getLast? hlast)
      cases hc.symm.trans (hends c hlast)
  · intro line cs tail hline h ih hends hapart l
    have hbehind := hapart.of_append
    have hisBreak := h.append hbehind
    obtain ⟨l', hl'⟩ := ih hends.of_append.of_append hbehind.of_append
      ((line.foldl Location.advance l).breakLine cs.length)
    have hnext := h.nextToken (line.foldl Location.advance l) done
    have hnext' := hisBreak.nextToken (line.foldl Location.advance l) done
    refine ⟨l', ?_⟩
    rw [List.append_assoc, List.append_assoc, ofScanner_break hline hisBreak,
      ofScanner_break hline h, hl', hnext, hnext',
      List.dropLast_cons_of_ne_nil (by simp [ofScanner])]
    rfl

/-- The lines of two texts one behind the other. -/
lemma ofText_append {first second : String} (hends : EndsLine first.toList)
    (hapart : Apart first.toList second.toList) :
    ∃ l, ofText (first ++ second) =
      (ofText first).dropLast ++ ofScanner ⟨second.toList, l, false⟩ := by
  obtain ⟨l, hl⟩ := @ofScanner_append second.toList false first.toList hends hapart Location.start
  refine ⟨l, ?_⟩
  rw [← String.toList_append] at hl
  exact hl

lemma endsLine_of_newline {cs : List Char} (h : cs.getLast? = some '\n') (rest : List Char) :
    EndsLine cs ∧ Apart cs rest := by
  constructor
  · intro c hc
    cases h.symm.trans hc
    rfl
  · intro hlast
    cases h.symm.trans hlast

/-- The lines of two texts, the first of which ends with a line break: its last line, which is
blank, is where the lines of the second begin. -/
lemma map_bare_ofText_append {first : String} (h : first.toList.getLast? = some '\n')
    (second : String) :
    (ofText (first ++ second)).map bare =
      (ofText first).dropLast.map bare ++ (ofText second).map bare := by
  obtain ⟨hends, hapart⟩ := endsLine_of_newline h second.toList
  obtain ⟨l, hl⟩ := ofText_append hends hapart
  have hsecond : (ofScanner ⟨second.toList, l, false⟩).map bare = (ofText second).map bare :=
    @map_bare_ofScanner_congr _ (Scanner.ofText second) rfl
  rw [hl, List.map_append, hsecond]

end SourceLine

end MicroAsm
