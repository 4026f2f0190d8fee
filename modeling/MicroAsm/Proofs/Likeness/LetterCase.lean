import Mathlib.Tactic.MkIffOfInductiveProp
import MicroAsm.Proofs.Likeness.Assembly
import MicroAsm.Proofs.Text.Case
import MicroAsm.Proofs.Token.Lexemes

/-!
# Names in small letters

Processors, mnemonics, registers and symbols are found whatever the case of their letters, and a
numeral may have letters of either case. A directive is written in capitals only, so a text is
scanned alike in small letters but for its directives, and with the letters of its names made small
it has the same tokens at the same places.
-/

namespace MicroAsm

open List (Forall₂)

/-! ### Characters -/

/-- Two characters are the same letter: neither a scanner nor the comparison of names tells them
apart. -/
@[mk_iff]
structure SameLetter (c c' : Char) : Prop where
  letters : c = c' ∨ c.isAlpha = true ∧ c'.isAlpha = true
  lower : c.toLower = c'.toLower
  upper : c.toUpper = c'.toUpper
  capital : Text.capital c = Text.capital c'
  size : c.utf8Size = c'.utf8Size
  onLine : Lexeme.onLine c = Lexeme.onLine c'
  isGap : Lexeme.isGap c = Lexeme.isGap c'
  startsName : Lexeme.startsName c = Lexeme.startsName c'
  inName : Lexeme.inName c = Lexeme.inName c'
  isDigit : c.isDigit = c'.isDigit
  isAlphanum : c.isAlphanum = c'.isAlphanum
  punctuation : Lexeme.punctuation? c = Lexeme.punctuation? c'
  leadingBase : Numeral.leadingBase? c = Numeral.leadingBase? c'
  digitValue : Numeral.digitValue c = Numeral.digitValue c'

instance (c c' : Char) : Decidable (SameLetter c c') :=
  decidable_of_iff' _ (sameLetter_iff c c')

/-- A capital letter and its small letter are the same. -/
lemma sameLetter_toLower (c : Char) : SameLetter c.toLower c := by
  by_cases hcapital : c.val ≥ 'A'.val ∧ c.val ≤ 'Z'.val
  · have hall : ∀ k < 26, SameLetter (Char.ofNat (65 + k)).toLower (Char.ofNat (65 + k)) := by
      decide +kernel
    have hrange : 65 ≤ c.toNat ∧ c.toNat ≤ 90 := hcapital
    have hc := hall (c.toNat - 65) (by omega)
    rwa [Nat.add_sub_cancel' hrange.1, Char.ofNat_toNat] at hc
  · have hself : c.toLower = c := dif_neg hcapital
    rw [hself]
    exact ⟨Or.inl rfl, rfl, rfl, rfl, rfl, rfl, rfl, rfl, rfl, rfl, rfl, rfl, rfl, rfl⟩

lemma SameLetter.eq_iff {c c' mark : Char} (h : SameLetter c c') (hmark : mark.isAlpha = false) :
    c = mark ↔ c' = mark := by
  rcases h.letters with rfl | ⟨hc, hc'⟩
  · exact Iff.rfl
  · refine iff_of_false ?_ ?_
    · rintro rfl
      cases hc.symm.trans hmark
    · rintro rfl
      cases hc'.symm.trans hmark

namespace Text

lemma map_toLower_map_toLower (cs : List Char) :
    (cs.map Char.toLower).map Char.toLower = cs.map Char.toLower := by
  rw [List.map_map]
  exact List.map_congr_left fun c _ => (sameLetter_toLower c).lower

lemma lowerAscii_lowerAscii (s : String) : lowerAscii (lowerAscii s) = lowerAscii s := by
  rw [lowerAscii, lowerAscii, String.toList_ofList, map_toLower_map_toLower]

end Text

/-! ### Lexemes in small letters -/

/-- The kind but for the case of letters: a directive is a name. -/
def TokenKind.folded (kind : TokenKind) : TokenKind :=
  if kind.isKeyword then .identifier else kind

lemma TokenKind.eq_of_folded {kind kind' : TokenKind} (h : kind.folded = kind'.folded)
    (hne : kind'.folded ≠ .identifier) : kind = kind' := by
  have heq : ∀ kind : TokenKind, kind.folded ≠ .identifier → kind.folded = kind := by
    intro kind hkind
    rw [folded] at hkind ⊢
    split
    · rename_i hkeyword
      exact absurd (if_pos hkeyword) hkind
    · rfl
  rw [← heq kind (h ▸ hne), h, heq kind' hne]

namespace Lexeme

variable {p : Char → Bool}

lemma takeWhile_toLower (hp : ∀ c, p c.toLower = p c) (cs : List Char) :
    (cs.map Char.toLower).takeWhile p = (cs.takeWhile p).map Char.toLower := by
  have hcomp : p ∘ Char.toLower = p := funext hp
  rw [List.takeWhile_map, hcomp]

lemma dropWhile_toLower (hp : ∀ c, p c.toLower = p c) (cs : List Char) :
    (cs.map Char.toLower).dropWhile p = (cs.dropWhile p).map Char.toLower := by
  have hcomp : p ∘ Char.toLower = p := funext hp
  rw [List.dropWhile_map, hcomp]

lemma all_toLower (hp : ∀ c, p c.toLower = p c) (cs : List Char) :
    (cs.map Char.toLower).all p = cs.all p := by
  have hcomp : p ∘ Char.toLower = p := funext hp
  rw [List.all_map, hcomp]

lemma isDigitOf_toLower (base : Nat) (c : Char) :
    Numeral.isDigitOf base c.toLower = Numeral.isDigitOf base c := by
  rw [Numeral.isDigitOf, Numeral.isDigitOf, Numeral.digit?, Numeral.digit?,
    (sameLetter_toLower c).digitValue]

lemma trailingBase?_toLower (c : Char) :
    Numeral.trailingBase? c.toLower = Numeral.trailingBase? c := by
  rw [Numeral.trailingBase?, Numeral.trailingBase?, (sameLetter_toLower c).upper]

lemma ofMarked_toLower (c : Char) (base : Nat) (cs : List Char) :
    ofMarked c.toLower base (cs.map Char.toLower) = ofMarked c base cs := by
  rw [ofMarked, ofMarked, takeWhile_toLower (isDigitOf_toLower base)]
  cases cs.takeWhile (Numeral.isDigitOf base) with
  | nil =>
    have hdollar : c.toLower = '$' ↔ c = '$' := (sameLetter_toLower c).eq_iff rfl
    simp only [List.map_nil, hdollar]
  | cons d ds => simp

lemma ofQuoted_toLower {quote : Char} (h : quote = '\'' ∨ quote = '"') (cs : List Char) :
    ofQuoted quote (cs.map Char.toLower) = ofQuoted quote cs := by
  have hmark : quote.isAlpha = false := by
    rcases h with rfl | rfl <;> rfl
  have hquote : ∀ c : Char, c.toLower = quote ↔ c = quote :=
    fun c => (sameLetter_toLower c).eq_iff hmark
  have hbody : (cs.map Char.toLower).takeWhile (fun c => c != quote && onLine c) =
      (cs.takeWhile fun c => c != quote && onLine c).map Char.toLower := by
    refine takeWhile_toLower (fun c => ?_) cs
    have hne : (c.toLower != quote) = (c != quote) := by
      rw [Bool.eq_iff_iff, bne_iff_ne, bne_iff_ne, Ne, Ne, hquote]
    rw [hne, (sameLetter_toLower c).onLine]
  have hend : ∀ rest : List Char,
      (rest.map Char.toLower).head? = some quote ↔ rest.head? = some quote := by
    intro rest
    cases rest with
    | nil => rfl
    | cons c rest => simp [hquote]
  simp only [ofQuoted, hbody, List.length_map, ← List.map_drop, hend]

lemma ofRun_toLower (run : List Char) : ofRun (run.map Char.toLower) = ofRun run := by
  have hbase : hasTrailingBase (run.map Char.toLower) = hasTrailingBase run := by
    have hlast : (run.map Char.toLower).getLast?.bind Numeral.trailingBase? =
        run.getLast?.bind Numeral.trailingBase? := by
      rw [List.getLast?_map]
      cases run.getLast? with
      | none => rfl
      | some c => exact trailingBase?_toLower c
    rw [hasTrailingBase, hasTrailingBase, hlast]
    simp only [← List.map_dropLast, all_toLower (isDigitOf_toLower _), List.length_map]
  rw [ofRun, ofRun, hbase, takeWhile_toLower fun c => (sameLetter_toLower c).isDigit,
    dropWhile_toLower fun c => (sameLetter_toLower c).isDigit,
    List.length_map, List.length_map]
  cases run.dropWhile Char.isDigit with
  | nil => rfl
  | cons c cs => simp only [List.map_cons, isDigitOf_toLower]

lemma folded_kindOfName (name : List Char) : (kindOfName name).folded = .identifier := by
  rw [kindOfName, TokenKind.keyword?.eq_def]
  split <;> rfl

/-- No name in small letters is a directive. -/
lemma kindOfName_toLower (name : List Char) :
    kindOfName (name.map Char.toLower) = .identifier := by
  have hsmall : (Text.lowerAscii (String.ofList (name.map Char.toLower))) =
      String.ofList (name.map Char.toLower) := by
    rw [Text.lowerAscii, String.toList_ofList, Text.map_toLower_map_toLower]
  rw [kindOfName]
  generalize String.ofList (name.map Char.toLower) = small at hsmall
  rw [TokenKind.keyword?.eq_def]
  split
  -- Directives have capital letters.
  all_goals first | rfl | exact absurd hsmall (by decide)

/-- A lexeme has the same length in small letters, and the same kind but for directives. -/
lemma ofFirst_toLower (c : Char) (cs : List Char) :
    (ofFirst c.toLower (cs.map Char.toLower)).1.folded = (ofFirst c cs).1.folded ∧
      (ofFirst c.toLower (cs.map Char.toLower)).2 = (ofFirst c cs).2 := by
  have hc := sameLetter_toLower c
  have hline : (cs.map Char.toLower).takeWhile onLine = (cs.takeWhile onLine).map Char.toLower :=
    takeWhile_toLower (fun c => (sameLetter_toLower c).onLine) cs
  have hrun : (cs.map Char.toLower).takeWhile Char.isAlphanum =
      (cs.takeWhile Char.isAlphanum).map Char.toLower :=
    takeWhile_toLower (fun c => (sameLetter_toLower c).isAlphanum) cs
  have hname : (cs.map Char.toLower).takeWhile inName = (cs.takeWhile inName).map Char.toLower :=
    takeWhile_toLower (fun c => (sameLetter_toLower c).inName) cs
  have hmarks : (c.toLower = ';' ↔ c = ';') ∧ (c.toLower = '\'' ↔ c = '\'') ∧
      (c.toLower = '"' ↔ c = '"') :=
    ⟨hc.eq_iff rfl, hc.eq_iff rfl, hc.eq_iff rfl⟩
  simp only [ofFirst, hc.punctuation, hc.leadingBase, hmarks.1, hmarks.2.1, hmarks.2.2,
    hc.isDigit, hc.startsName, hline, hrun, hname,
    ofMarked_toLower, ← List.map_cons, ofRun_toLower, List.length_map]
  split
  · exact ⟨rfl, rfl⟩
  · exact ⟨rfl, rfl⟩
  · split
    · exact ⟨rfl, rfl⟩
    · split
      · rename_i hquote
        have hlower : c.toLower = c := by
          rcases hquote with rfl | rfl <;> rfl
        rw [hlower, ofQuoted_toLower hquote]
        exact ⟨rfl, rfl⟩
      · split
        · exact ⟨rfl, rfl⟩
        · split
          · exact ⟨(folded_kindOfName _).trans (folded_kindOfName _).symm, rfl⟩
          · exact ⟨rfl, rfl⟩

lemma isBreak_toLower {lexeme rest : List Char} (h : IsBreak lexeme rest) :
    lexeme.map Char.toLower = lexeme ∧ IsBreak lexeme (rest.map Char.toLower) := by
  refine ⟨?_, h.eq, ?_⟩
  · rcases h.eq with rfl | rfl | rfl <;> rfl
  · intro hlast hhead
    refine h.apart hlast ?_
    cases rest with
    | nil => cases hhead
    | cons c rest =>
      rw [List.map_cons, List.head?_cons, Option.some.injEq,
        (sameLetter_toLower c).eq_iff (show '\n'.isAlpha = false from rfl)] at hhead
      rw [hhead]
      rfl

@[inherit_doc ofFirst_toLower]
lemma measure_toLower (cs : List Char) :
    (measure (cs.map Char.toLower)).1.folded = (measure cs).1.folded ∧
      (measure (cs.map Char.toLower)).2 = (measure cs).2 := by
  rcases measure_cases cs with
    ⟨rfl, -⟩ | ⟨lexeme, rest, rfl, heq, hbreak, hapart⟩ | ⟨c, rest, rfl, hc, heq⟩
  · exact ⟨rfl, rfl⟩
  · obtain ⟨hlexeme, hisBreak⟩ := isBreak_toLower ⟨hbreak, hapart⟩
    rw [List.map_append, hlexeme, hisBreak.measure, heq]
    exact ⟨rfl, rfl⟩
  · rw [List.map_cons, measure_of_onLine ((sameLetter_toLower c).onLine.trans hc), heq]
    exact ofFirst_toLower c rest

lemma folded_punctuation {c : Char} {kind : TokenKind} (h : punctuation? c = some kind) :
    kind.folded ≠ .identifier := by
  rw [punctuation?.eq_def] at h
  split at h <;> cases h <;> simp [TokenKind.folded, TokenKind.isKeyword]

lemma folded_ofMarked (c : Char) (base : Nat) (cs : List Char) :
    (ofMarked c base cs).1.folded ≠ .identifier := by
  rw [ofMarked]
  split
  · split <;> simp [TokenKind.folded, TokenKind.isKeyword]
  · simp [TokenKind.folded, TokenKind.isKeyword]

lemma folded_ofQuoted (quote : Char) (cs : List Char) :
    (ofQuoted quote cs).1.folded ≠ .identifier := by
  simp only [ofQuoted]
  split <;> simp [TokenKind.folded, TokenKind.isKeyword]

lemma folded_ofRun (run : List Char) : (ofRun run).1.folded ≠ .identifier := by
  rw [ofRun]
  split
  · simp [TokenKind.folded, TokenKind.isKeyword]
  · split
    · simp [TokenKind.folded, TokenKind.isKeyword]
    · split <;> simp [TokenKind.folded, TokenKind.isKeyword]

/-- What is a name or a directive is decided by its letters. -/
lemma ofFirst_of_folded {c : Char} {cs : List Char}
    (h : (ofFirst c cs).1.folded = .identifier) :
    (ofFirst c cs).1 = kindOfName ((c :: cs).take (ofFirst c cs).2) := by
  revert h
  simp only [ofFirst]
  split
  · rename_i kind hkind
    exact fun h => absurd h (folded_punctuation hkind)
  · exact fun h => absurd h (folded_ofMarked _ _ _)
  · split
    · simp [TokenKind.folded, TokenKind.isKeyword]
    · split
      · exact fun h => absurd h (folded_ofQuoted _ _)
      · split
        · exact fun h => absurd h (folded_ofRun _)
        · split
          · intro _
            have htake : cs.take (cs.takeWhile inName).length = cs.takeWhile inName :=
              (List.prefix_iff_eq_take.mp (List.takeWhile_prefix _)).symm
            rw [List.length_cons, List.take_succ_cons, htake]
          · simp [TokenKind.folded, TokenKind.isKeyword]

@[inherit_doc ofFirst_of_folded]
lemma measure_of_folded {cs : List Char} (h : (measure cs).1.folded = .identifier) :
    (measure cs).1 = kindOfName (cs.take (measure cs).2) := by
  rcases measure_cases cs with ⟨-, heq⟩ | ⟨lexeme, rest, -, heq, -⟩ | ⟨c, rest, rfl, -, heq⟩
  · rw [heq] at h
    cases h
  · rw [heq] at h
    cases h
  · rw [heq] at h ⊢
    exact ofFirst_of_folded h

/-- A text that is the same in small letters starts with a lexeme of the same length, and of the
same kind unless the letters make a name of it or a directive. -/
lemma measure_congr {cs cs' : List Char} (h : cs.map Char.toLower = cs'.map Char.toLower) :
    (measure cs).1.folded = (measure cs').1.folded ∧ (measure cs).2 = (measure cs').2 := by
  obtain ⟨hkind, hlength⟩ := measure_toLower cs
  obtain ⟨hkind', hlength'⟩ := measure_toLower cs'
  rw [h] at hkind hlength
  exact ⟨hkind.symm.trans hkind', hlength.symm.trans hlength'⟩

end Lexeme

/-! ### Texts with small names -/

/-- The lexeme with its letters made small if it is a name. -/
def Lexeme.lowerName (kind : TokenKind) (lexeme : List Char) : List Char :=
  if kind = .identifier then lexeme.map Char.toLower else lexeme

/-- The text with the letters of its names made small, and everything else as it is. -/
def Text.lowerNames (cs : List Char) : List Char :=
  match _h : cs.dropWhile Lexeme.isGap with
  | [] => cs
  | c :: rest =>
    let word := Lexeme.measure (c :: rest)
    cs.takeWhile Lexeme.isGap ++ (Lexeme.lowerName word.1 ((c :: rest).take word.2) ++
      lowerNames ((c :: rest).drop word.2))
termination_by cs.length
decreasing_by
  have hpos := Lexeme.measure_pos c rest
  have hle := (List.dropWhile_sublist (l := cs) Lexeme.isGap).length_le
  rw [_h, List.length_cons] at hle
  rw [List.length_drop, List.length_cons]
  omega

/-- The token with its letters made small if it is a name. -/
def Token.lowerName (t : Token) : Token :=
  if t.kind = .identifier then { t with value := Text.lowerAscii t.value } else t

namespace Lexeme

variable {cs : List Char}

lemma noGap_congr {cs' : List Char} (h : cs'.map Char.toLower = cs.map Char.toLower)
    (hgap : ∀ c ∈ cs.head?, isGap c = false) : ∀ c ∈ cs'.head?, isGap c = false := by
  intro c hc
  have hhead := congrArg List.head? h
  rw [List.head?_map, List.head?_map, hc] at hhead
  cases hcs : cs.head? with
  | none =>
    rw [hcs] at hhead
    cases hhead
  | some d =>
    rw [hcs] at hhead
    have hlower : c.toLower = d.toLower := Option.some.inj hhead
    rw [← (sameLetter_toLower c).isGap, hlower, (sameLetter_toLower d).isGap]
    exact hgap d hcs

lemma map_toLower_lowerName (kind : TokenKind) (lexeme : List Char) :
    (lowerName kind lexeme).map Char.toLower = lexeme.map Char.toLower := by
  rw [lowerName]
  split
  · exact Text.map_toLower_map_toLower lexeme
  · rfl

lemma length_lowerName (kind : TokenKind) (lexeme : List Char) :
    (lowerName kind lexeme).length = lexeme.length := by
  rw [lowerName]
  split
  · exact List.length_map _
  · rfl

lemma foldl_advance_lowerName (kind : TokenKind) (lexeme : List Char) (l : Location) :
    (lowerName kind lexeme).foldl Location.advance l = lexeme.foldl Location.advance l := by
  have hadvance : (fun l c => Location.advance l (Char.toLower c)) = Location.advance := by
    funext l c
    rw [Location.advance, Location.advance, (sameLetter_toLower c).size]
  rw [lowerName]
  split
  · rw [List.foldl_map, hadvance]
  · rfl

end Lexeme

namespace Text

variable {cs : List Char}

lemma lowerNames_eq_mapLexemes (cs : List Char) :
    lowerNames cs = mapLexemes Lexeme.lowerName cs := by
  fun_induction lowerNames cs with
  | case1 cs hrest =>
    rw [mapLexemes_gap, hrest, mapLexemes_nil, ← hrest, List.takeWhile_append_dropWhile]
  | case2 cs c rest hrest word ih =>
    have hgap := Lexeme.noGap_dropWhile cs
    rw [hrest] at hgap
    rw [mapLexemes_gap, hrest, mapLexemes_lexeme (List.cons_ne_nil _ _) hgap, ih]

/-- A lexeme in front of the text. -/
lemma lowerNames_lexeme (hgap : ∀ c ∈ cs.head?, Lexeme.isGap c = false) :
    lowerNames cs = Lexeme.lowerName (Lexeme.measure cs).1 (cs.take (Lexeme.measure cs).2) ++
      lowerNames (cs.drop (Lexeme.measure cs).2) := by
  rw [lowerNames_eq_mapLexemes, lowerNames_eq_mapLexemes]
  cases cs with
  | nil => simp [mapLexemes_nil, Lexeme.measure, Lexeme.lowerName]
  | cons c cs => exact mapLexemes_lexeme (List.cons_ne_nil _ _) hgap

lemma lowerNames_gap (cs : List Char) :
    lowerNames cs = cs.takeWhile Lexeme.isGap ++ lowerNames (cs.dropWhile Lexeme.isGap) := by
  rw [lowerNames_eq_mapLexemes, lowerNames_eq_mapLexemes, ← mapLexemes_gap]

/-- Only the case of letters changes. -/
lemma map_toLower_lowerNames (cs : List Char) :
    (lowerNames cs).map Char.toLower = cs.map Char.toLower := by
  fun_induction lowerNames cs with
  | case1 cs hrest => rfl
  | case2 cs c rest hrest word ih =>
    rw [List.map_append, List.map_append, ih, Lexeme.map_toLower_lowerName, ← List.map_append,
      List.take_append_drop, ← hrest, ← List.map_append, List.takeWhile_append_dropWhile]

end Text

/-- The lexeme in front stays what it is: a name in small letters is a name, and a directive keeps
its capitals. -/
lemma Lexeme.measure_lowerNames {cs : List Char} (hgap : ∀ c ∈ cs.head?, isGap c = false) :
    measure (Text.lowerNames cs) = measure cs := by
  obtain ⟨hfolded, hlength⟩ := measure_congr (Text.map_toLower_lowerNames cs)
  refine Prod.ext ?_ hlength
  by_cases hname : (measure cs).1.folded = .identifier
  · have htake : (lowerName (measure cs).1 (cs.take (measure cs).2)).length = (measure cs).2 := by
      rw [length_lowerName, List.length_take, Nat.min_eq_left (measure_le cs)]
    rw [measure_of_folded (hfolded.trans hname), hlength, Text.lowerNames_lexeme hgap,
      List.take_left' htake, lowerName]
    split
    · rename_i hkind
      rw [kindOfName_toLower, hkind]
    · exact (measure_of_folded hname).symm
  · exact TokenKind.eq_of_folded hfolded hname

/-! ### Scanning -/

namespace Scanner

/-- The same scanner for the text with its names in small letters. -/
def lowerNames (s : Scanner) : Scanner :=
  { s with rest := Text.lowerNames s.rest }

variable (s : Scanner)

lemma skipGap_lowerNames : s.lowerNames.skipGap = s.skipGap.lowerNames := by
  have hgap : ∀ c ∈ s.rest.takeWhile Lexeme.isGap, Lexeme.isGap c = true :=
    List.all_eq_true.mp List.all_takeWhile
  obtain ⟨htake, hdrop⟩ := Lexeme.noGap (Lexeme.noGap_congr
    (Text.map_toLower_lowerNames (s.rest.dropWhile Lexeme.isGap)) (Lexeme.noGap_dropWhile s.rest))
  simp only [skipGap, lowerNames]
  rw [Text.lowerNames_gap s.rest, List.takeWhile_append_of_pos hgap, htake, List.append_nil,
    List.dropWhile_append_of_pos hgap, hdrop]

lemma value_lowerName (kind : TokenKind) (lexeme : List Char) (l : Location) :
    (⟨kind, Lexeme.value kind (Lexeme.lowerName kind lexeme), l⟩ : Token) =
      Token.lowerName ⟨kind, Lexeme.value kind lexeme, l⟩ := by
  by_cases hkind : kind = .identifier
  · subst hkind
    simp [Lexeme.lowerName, Token.lowerName, Lexeme.value, Text.lowerAscii]
  · rw [Lexeme.lowerName, Token.lowerName, if_neg hkind, if_neg hkind]

/-- The next token is the same with its letters made small if it is a name. -/
lemma nextToken_lowerNames :
    s.lowerNames.nextToken = (s.nextToken.1.lowerName, s.nextToken.2.lowerNames) := by
  have hgap : ∀ c ∈ s.skipGap.rest.head?, Lexeme.isGap c = false := Lexeme.noGap_dropWhile s.rest
  have hlength : (Lexeme.lowerName (Lexeme.measure s.skipGap.rest).1
      (s.skipGap.rest.take (Lexeme.measure s.skipGap.rest).2)).length =
        (Lexeme.measure s.skipGap.rest).2 := by
    rw [Lexeme.length_lowerName, List.length_take, Nat.min_eq_left (Lexeme.measure_le _)]
  have hmeasure : Lexeme.measure s.skipGap.lowerNames.rest = Lexeme.measure s.skipGap.rest :=
    Lexeme.measure_lowerNames hgap
  have hrest : s.skipGap.lowerNames.rest = _ := Text.lowerNames_lexeme hgap
  have hlocation : s.skipGap.lowerNames.location = s.skipGap.location := rfl
  rw [nextToken, nextToken, skipGap_lowerNames, hmeasure]
  simp only [cut, hrest, List.take_left' hlength, List.drop_left' hlength, hlocation,
    Lexeme.foldl_advance_lowerName, value_lowerName]
  rfl

lemma tokens_lowerNames :
    s.lowerNames.tokens.1 = s.tokens.1.map Token.lowerName ∧
      s.lowerNames.tokens.2.1 = s.tokens.2.1.lowerName := by
  have hkinds : ∀ t : Token, t.lowerName.kind = t.kind := by
    intro t
    rw [Token.lowerName]
    split <;> rfl
  refine tokens_rec (P := fun s => s.lowerNames.tokens.1 = s.tokens.1.map Token.lowerName ∧
    s.lowerNames.tokens.2.1 = s.tokens.2.1.lowerName) ?_ ?_ s
  · intro s hkind
    have hnext := s.nextToken_lowerNames
    have hkind' : s.lowerNames.nextToken.1.kind = .endOfFile := by
      rw [hnext, hkinds, hkind]
    rw [tokens_of_eq hkind, tokens_of_eq hkind', hnext]
    exact ⟨rfl, rfl⟩
  · intro s hkind ih
    have hnext := s.nextToken_lowerNames
    have hkind' : s.lowerNames.nextToken.1.kind ≠ .endOfFile := by
      rwa [hnext, hkinds]
    rw [tokens_of_ne hkind, tokens_of_ne hkind', hnext, List.map_cons, ih.1, ih.2]
    exact ⟨rfl, rfl⟩

end Scanner

/-! ### Programs -/

/-- The case of letters in names may differ, and nothing else. -/
def Likeness.letterCase : Likeness where
  place := Eq
  spelled := False
  place_none := rfl

lemma Token.lowerName_alike (t : Token) : t.lowerName.Alike .letterCase t := by
  rw [lowerName]
  split
  · rename_i hkind
    exact ⟨rfl, fun hne => absurd hkind hne,
      ⟨Text.lowerAscii_lowerAscii _, Text.upper_lowerAscii _, False.elim⟩, rfl⟩
  · exact ⟨rfl, fun _ => rfl, .refl _, rfl⟩

/-- Like tokens make like lines. -/
lemma SourceLine.split_alike {L : Likeness} {last last' : Token} {ts ts' : List Token}
    (hlast : last.Alike L last') (h : Forall₂ (Token.Alike L) ts ts') :
    (split last ts).1.Alike L (split last' ts').1 ∧
      Forall₂ (SourceLine.Alike L) (split last ts).2 (split last' ts').2 := by
  induction h with
  | nil => exact ⟨⟨.nil, hlast⟩, .nil⟩
  | @cons t t' ts ts' ht _ ih =>
    obtain ⟨hline, hlines⟩ := ih
    simp only [split, ← ht.kind]
    split
    · exact ⟨⟨.nil, ht⟩, .cons hline hlines⟩
    · exact ⟨⟨.cons ht hline.body, hline.stop⟩, hlines⟩

/-- The letter case of names does not matter. With the letters of its identifiers made small a
source has the same tokens but for that. The object code, the processor and the placements of the
statements are the same, the symbols are the same but for the letter case of their names, and the
messages have the same severities and the same locations. -/
theorem assemble_lowerNames (cpu : Cpu) (moduleName source : String) :
    let small := String.ofList (Text.lowerNames source.toList)
    (Scanner.ofText small).allTokens = (Scanner.ofText source).allTokens.map Token.lowerName ∧
    (assemble cpu moduleName small).1.object = (assemble cpu moduleName source).1.object ∧
    (assemble cpu moduleName small).1.cpu = (assemble cpu moduleName source).1.cpu ∧
    (assemble cpu moduleName small).1.symbols.entries.map
        (fun e => (e.1, Text.lowerAscii e.2.name, e.2.value, e.2.kind)) =
      (assemble cpu moduleName source).1.symbols.entries.map
        (fun e => (e.1, Text.lowerAscii e.2.name, e.2.value, e.2.kind)) ∧
    (assemble cpu moduleName small).1.lines.map (fun l => (l.place, l.location)) =
      (assemble cpu moduleName source).1.lines.map (fun l => (l.place, l.location)) ∧
    (assemble cpu moduleName small).2.messages.toList.map (fun m => (m.severity, m.location)) =
      (assemble cpu moduleName source).2.messages.toList.map
        (fun m => (m.severity, m.location)) := by
  intro small
  have hsmall : Scanner.ofText small = (Scanner.ofText source).lowerNames := by
    rw [Scanner.ofText, String.toList_ofList]
    rfl
  obtain ⟨htokens, hend⟩ := (Scanner.ofText source).tokens_lowerNames
  rw [← hsmall] at htokens hend
  have halike : Forall₂ (Token.Alike .letterCase) (Scanner.ofText small).tokens.1
      (Scanner.ofText source).tokens.1 := by
    rw [htokens, List.forall₂_map_left_iff]
    exact List.forall₂_same.mpr fun t _ => t.lowerName_alike
  have hlines : Forall₂ (SourceLine.Alike .letterCase) (SourceLine.ofText small)
      (SourceLine.ofText source) := by
    obtain ⟨hfirst, hrest⟩ := SourceLine.split_alike (hend ▸ Token.lowerName_alike _) halike
    exact .cons hfirst hrest
  obtain ⟨hprogram, hlog⟩ := assemble_alike cpu moduleName hlines
  refine ⟨?_, hprogram.object, hprogram.cpu, ?_, ?_, ?_⟩
  · rw [Scanner.allTokens, Scanner.allTokens, htokens, hend, List.map_append, List.map_singleton]
  · refine map_eq_map_of_forall₂ hprogram.symbols ?_
    rintro ⟨key, s⟩ ⟨key', s'⟩ ⟨hkey, hs⟩
    change key = key' at hkey
    rw [hkey, hs.name.lower, hs.value, hs.kind]
  · refine map_eq_map_of_forall₂ hprogram.lines fun l l' hl => ?_
    rw [hl.place, hl.location]
  · refine map_eq_map_of_forall₂ hlog.messages fun m m' hm => ?_
    rw [hm.severity, hm.place]

/-- Strings, comments, numerals and directives keep their capitals. -/
example : Text.lowerNames "Start: MVI A,0FFH ; Go\n DB 'Ab',Start\n END".toList =
    "start: mvi a,0FFH ; Go\n DB 'Ab',start\n END".toList := by
  decide +kernel

end MicroAsm
