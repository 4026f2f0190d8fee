import MicroAsm.Location

/-!
# Tokens

The words of the assembly language.
-/

namespace MicroAsm

/-- What a token is. -/
inductive TokenKind where
  | endOfFile
  | identifier
  | number
  | string
  | comment
  | colon
  | comma
  | endOfLine
  | unknown
  /-- A lone `$`, the location counter. -/
  | dollar
  | plus
  | minus
  | cpu
  | org
  | endUnit
  | equ
  | set
  | db
  | dw
deriving DecidableEq, Repr, Inhabited

namespace TokenKind

/-- The name of a kind, as messages show it. -/
def name : TokenKind → String
  | endOfFile => "EndOfFile"
  | identifier => "Identifier"
  | number => "Number"
  | string => "String"
  | comment => "Comment"
  | colon => "Colon"
  | comma => "Comma"
  | endOfLine => "EOL"
  | unknown => "Unknown"
  | dollar => "$"
  | plus => "+"
  | minus => "-"
  | cpu => "CPU"
  | org => "ORG"
  | endUnit => "END"
  | equ => "EQU"
  | set => "SET"
  | db => "DB"
  | dw => "DW"

/-- The directive written with this word. Directives are capital letters only. -/
def keyword? : String → Option TokenKind
  | "CPU" => some cpu
  | "ORG" => some org
  | "END" => some endUnit
  | "EQU" => some equ
  | "SET" => some set
  | "DB" => some db
  | "DW" => some dw
  | _ => none

def isKeyword : TokenKind → Bool
  | cpu | org | endUnit | equ | set | db | dw => true
  | _ => false

def endsLine : TokenKind → Bool
  | endOfLine | endOfFile => true
  | _ => false

end TokenKind

/-- A word of a source text. -/
structure Token where
  kind : TokenKind
  /-- The lexeme, without the `;` of a comment; `"\n"` for every line break. -/
  value : String
  /-- Where the lexeme starts. -/
  location : Location
deriving DecidableEq, Repr, Inhabited

/-- The token in a message: its text, or its kind where it has none to show. -/
def Token.shown (t : Token) : String :=
  if t.kind.endsLine then t.kind.name else t.value

end MicroAsm
