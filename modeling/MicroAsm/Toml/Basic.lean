/-!
# TOML values

The values of a TOML document, and its characters. Floats and dates are kept as they are written.
-/

namespace MicroAsm.Toml

/-- A value of a document. -/
inductive Value where
  | string (s : String)
  | integer (n : Int)
  | float (literal : String)
  | boolean (b : Bool)
  | dateTime (literal : String)
  | array (items : List Value)
  | table (entries : List (String × Value))
deriving Repr, Inhabited

/-- Keys with their values, in the order of the document. -/
abbrev Table := List (String × Value)

/-- Reads a whole document: its table, or the reason why the text is none. -/
abbrev DocumentReader := String → Except String Table

/-- Reads something off the front of a text. -/
abbrev Reader (α : Type) := List Char → Option (α × List Char)

def isBlank (c : Char) : Bool := c == ' ' || c == '\t'

/-- A character that can stand in a comment: anything but control characters. -/
def isPlain (c : Char) : Bool :=
  c == '\t' || (0x20 ≤ c.toNat && c.toNat != 0x7F)

/-- A character that can stand in a key without quotes. -/
def isBare (c : Char) : Bool :=
  c.isAlphanum || c == '_' || c == '-'

def skipBlanks (cs : List Char) : List Char :=
  cs.dropWhile isBlank

/-- The text after a line break. -/
def lineBreak? : List Char → Option (List Char)
  | '\n' :: cs => some cs
  | '\r' :: '\n' :: cs => some cs
  | _ => none

/-- The text after the end of a line. -/
def lineEnd? (cs : List Char) : Option (List Char) :=
  if cs.isEmpty then some [] else lineBreak? cs

/-- The text after a comment, if there is one. -/
def skipComment : List Char → List Char
  | '#' :: cs => cs.dropWhile isPlain
  | cs => cs

/-- The text after a line on which only a comment follows. -/
def restOfLine? (cs : List Char) : Option (List Char) :=
  lineEnd? (skipComment (skipBlanks cs))

/-- The text after blanks, line breaks and comments; a comment has to end with a line break. -/
def skipFiller : (inComment : Bool) → List Char → Option (List Char)
  | inComment, [] => if inComment then none else some []
  | _, '\r' :: '\n' :: cs => skipFiller false cs
  | _, '\n' :: cs => skipFiller false cs
  | true, c :: cs => if isPlain c then skipFiller true cs else none
  | false, c :: cs =>
    if isBlank c then skipFiller false cs
    else if c = '#' then skipFiller true cs
    else if c = '\r' then none
    else some (c :: cs)

end MicroAsm.Toml
