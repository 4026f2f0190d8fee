import MicroAsm.Text.Blank
import MicroAsm.Token.Numeral

/-!
# Scanning

A scanner holds the text still to be read and the place it has reached. Reading a token skips
blanks, measures the lexeme in front and cuts it off, so the gaps and lexemes of a text always
add up to the text.

`Scanner.nextToken_rest_lt` says that every token but the last takes something off the text.
-/

namespace MicroAsm

namespace Lexeme

/-- The character is not part of a line break. -/
def onLine (c : Char) : Bool := c != '\r' && c != '\n'

/-- The character separates tokens. -/
def isGap (c : Char) : Bool := Text.isBlank c && onLine c

def startsName (c : Char) : Bool := c.isAlpha || c == '_'

def inName (c : Char) : Bool := c.isAlphanum || c == '_'

/-- A run of letters and digits is a numeral with a letter for its base behind. -/
def hasTrailingBase (run : List Char) : Bool :=
  match run.getLast?.bind Numeral.trailingBase? with
  | some base => run.length > 1 && run.dropLast.all (Numeral.isDigitOf base)
  | none => false

/-- Kind and length of the token that starts a run of letters and digits with a digit first. A
decimal number stops in front of a letter that is a hexadecimal digit; any other letter makes
the whole run unknown. -/
def ofRun (run : List Char) : TokenKind × Nat :=
  if hasTrailingBase run then (.number, run.length)
  else
    match run.dropWhile Char.isDigit with
    | [] => (.number, run.length)
    | c :: _ =>
      if Numeral.isDigitOf 16 c then (.number, (run.takeWhile Char.isDigit).length)
      else (.unknown, run.length)

/-- Kind and length of a string whose opening quote has been read. -/
def ofQuoted (quote : Char) (cs : List Char) : TokenKind × Nat :=
  let body := cs.takeWhile fun c => c != quote && onLine c
  if (cs.drop body.length).head? = some quote then (.string, body.length + 2)
  else (.unknown, body.length + 1)

/-- Kind and length of a number whose mark has been read. Without digits the mark stands alone,
and only `$` means something then. -/
def ofMarked (mark : Char) (base : Nat) (cs : List Char) : TokenKind × Nat :=
  match cs.takeWhile (Numeral.isDigitOf base) with
  | [] => (if mark = '$' then .dollar else .unknown, 1)
  | ds => (.number, ds.length + 1)

/-- Kind of an identifier, which may be a directive. -/
def kindOfName (cs : List Char) : TokenKind :=
  (TokenKind.keyword? (String.ofList cs)).getD .identifier

/-- Characters that are tokens of their own. -/
def punctuation? : Char → Option TokenKind
  | ':' => some .colon
  | ',' => some .comma
  | '+' => some .plus
  | '-' => some .minus
  | _ => none

/-- Kind and length of the lexeme that starts with `c`, which is no blank and no line break. -/
def ofFirst (c : Char) (cs : List Char) : TokenKind × Nat :=
  match punctuation? c, Numeral.leadingBase? c with
  | some kind, _ => (kind, 1)
  | none, some base => ofMarked c base cs
  | none, none =>
    if c = ';' then (.comment, (cs.takeWhile onLine).length + 1)
    else if c = '\'' ∨ c = '"' then ofQuoted c cs
    else if c.isDigit then ofRun (c :: cs.takeWhile Char.isAlphanum)
    else if startsName c then
      let name := c :: cs.takeWhile inName
      (kindOfName name, name.length)
    else (.unknown, 1)

/-- Kind and length of the lexeme in front of a text that starts with no gap. -/
def measure : List Char → TokenKind × Nat
  | [] => (.endOfFile, 0)
  | '\r' :: '\n' :: _ => (.endOfLine, 2)
  | c :: cs => if onLine c then ofFirst c cs else (.endOfLine, 1)

theorem ofQuoted_pos (quote : Char) (cs : List Char) : 0 < (ofQuoted quote cs).2 := by
  unfold ofQuoted
  grind

theorem ofMarked_pos (mark : Char) (base : Nat) (cs : List Char) :
    0 < (ofMarked mark base cs).2 := by
  unfold ofMarked
  split <;> simp

theorem ofRun_pos {c : Char} (h : c.isDigit = true) (cs : List Char) :
    0 < (ofRun (c :: cs)).2 := by
  unfold ofRun
  grind [List.takeWhile]

theorem ofFirst_pos (c : Char) (cs : List Char) : 0 < (ofFirst c cs).2 := by
  have hq := ofQuoted_pos c cs
  have hm := fun base => ofMarked_pos c base cs
  have hr := fun h => ofRun_pos (c := c) h (cs.takeWhile Char.isAlphanum)
  unfold ofFirst
  grind

/-- A text that is not empty starts with a lexeme that is not empty. -/
theorem measure_pos (c : Char) (cs : List Char) : 0 < (measure (c :: cs)).2 := by
  have h := ofFirst_pos c cs
  unfold measure
  grind

/-- The text of a token with this lexeme. -/
def value (kind : TokenKind) (lexeme : List Char) : String :=
  match kind with
  | .comment => String.ofList lexeme.tail
  | .endOfLine => "\n"
  | _ => String.ofList lexeme

end Lexeme

/-- What reading one character gives. -/
inductive Reading where
  | char (c : Char)
  | lineEnd
  | textEnd
deriving DecidableEq, Repr

/-- A text that is being read. -/
structure Scanner where
  rest : List Char
  /-- The place of the last character read. -/
  location : Location := .start
  /-- The end of the text has been handed out. -/
  done : Bool := false

namespace Scanner

/-- A scanner at the start of a text. -/
def ofText (text : String) : Scanner := { rest := text.toList }

/-- Reads a character. A line break of one or two characters is read at once. -/
def nextChar (s : Scanner) : Reading × Scanner :=
  match s.rest with
  | [] => (.textEnd, s)
  | '\r' :: '\n' :: cs => (.lineEnd, { s with rest := cs, location := s.location.breakLine 2 })
  | c :: cs =>
    if Lexeme.onLine c then
      (.char c, { s with rest := cs, location := s.location.advance c })
    else (.lineEnd, { s with rest := cs, location := s.location.breakLine 1 })

/-- Skips the gap in front of a token. -/
def skipGap (s : Scanner) : Scanner :=
  { s with
    rest := s.rest.dropWhile Lexeme.isGap
    location := (s.rest.takeWhile Lexeme.isGap).foldl Location.advance s.location }

/-- Cuts a lexeme of the given kind and length off the text. -/
def cut (s : Scanner) (kind : TokenKind) (length : Nat) : Token × Scanner :=
  let lexeme := s.rest.take length
  let here := { s.location with column := s.location.column + 1 }
  let after :=
    if kind = .endOfLine then s.location.breakLine length
    else lexeme.foldl Location.advance s.location
  (⟨kind, Lexeme.value kind lexeme, here⟩, { s with rest := s.rest.drop length, location := after })

/-- Reads a token. At the end of the text there is always one more end of file. -/
def nextToken (s : Scanner) : Token × Scanner :=
  let s := s.skipGap
  let (kind, length) := Lexeme.measure s.rest
  s.cut kind length

theorem length_rest_skipGap_le (s : Scanner) : s.skipGap.rest.length ≤ s.rest.length :=
  (List.dropWhile_sublist _).length_le

/-- Every token but the end of file takes something off the text. -/
theorem nextToken_rest_lt (s : Scanner) (h : s.nextToken.1.kind ≠ .endOfFile) :
    s.nextToken.2.rest.length < s.rest.length := by
  have hle := s.length_rest_skipGap_le
  simp only [nextToken, cut] at h ⊢
  cases hr : s.skipGap.rest with
  | nil => simp [hr, Lexeme.measure] at h
  | cons c cs =>
    have hpos := Lexeme.measure_pos c cs
    rw [hr] at hle
    simp only [List.length_drop, List.length_cons] at hle ⊢
    omega

/-- Reads a token, until the end of file has been met once. -/
def next? (s : Scanner) : Option Token × Scanner :=
  if s.done then (none, s)
  else
    let (token, s) := s.nextToken
    if token.kind = .endOfFile then (none, { s with done := true }) else (some token, s)

/-- All tokens in front of the end of file, the end of file, and the scanner after it. -/
def tokens (s : Scanner) : List Token × Token × Scanner :=
  match s.nextToken, s.nextToken_rest_lt with
  | (token, after), shorter =>
    if hk : token.kind = .endOfFile then ([], token, after)
    else
      have := shorter hk
      let (ts, last) := tokens after
      (token :: ts, last)
termination_by s.rest.length

end Scanner

/-- The tokens of one physical line and the token that ends it. -/
structure SourceLine where
  body : List Token
  /-- The line break, or the end of the file. -/
  stop : Token
deriving DecidableEq, Repr

namespace SourceLine

/-- Splits tokens at the line breaks: the first line, and those after it. -/
def split (last : Token) : List Token → SourceLine × List SourceLine
  | [] => (⟨[], last⟩, [])
  | t :: ts =>
    let (line, lines) := split last ts
    if t.kind = .endOfLine then (⟨[], t⟩, line :: lines)
    else (⟨t :: line.body, line.stop⟩, lines)

def ofText (text : String) : List SourceLine :=
  let (ts, last, _) := (Scanner.ofText text).tokens
  let (line, lines) := split last ts
  line :: lines

end SourceLine

end MicroAsm
