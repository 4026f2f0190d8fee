import MicroAsm.Toml.Basic
import MicroAsm.Token.Numeral

/-!
# TOML strings

Strings in double quotes know escapes, strings in single quotes do not. Either can be written in
three quotes and then go over several lines; the line break right after the opening quotes does
not count, and each line break inside is a single `\n`.
-/

namespace MicroAsm.Toml

/-- The character of a one-letter escape. -/
def escapeChar? : Char → Option Char
  | 'b' => some '\x08'
  | 't' => some '\t'
  | 'n' => some '\n'
  | 'f' => some '\x0c'
  | 'r' => some '\r'
  | '"' => some '"'
  | '\\' => some '\\'
  | _ => none

/-- The character with a number in hexadecimal digits. -/
def scalar? (digits : List Char) : Option Char := do
  let n ← Numeral.natValue? 16 digits
  if n.isValidChar then some (Char.ofNat n) else none

/-- Puts a character in front of what was read. -/
def prepend (c : Char) (r : Option (List Char × List Char)) : Option (List Char × List Char) :=
  r.map fun (cs, rest) => (c :: cs, rest)

/-- Reads a string in double quotes, after the opening one. -/
def readBasic : Reader (List Char)
  | '"' :: rest => some ([], rest)
  | '\\' :: 'u' :: a :: b :: c :: d :: rest => do
    prepend (← scalar? [a, b, c, d]) (readBasic rest)
  | '\\' :: 'U' :: a :: b :: c :: d :: e :: f :: g :: h :: rest => do
    prepend (← scalar? [a, b, c, d, e, f, g, h]) (readBasic rest)
  | '\\' :: c :: rest => do prepend (← escapeChar? c) (readBasic rest)
  | c :: rest => if isPlain c && c != '\\' then prepend c (readBasic rest) else none
  | [] => none

/-- Reads a string in single quotes, after the opening one. -/
def readLiteral : Reader (List Char)
  | '\'' :: rest => some ([], rest)
  | c :: rest => if isPlain c then prepend c (readLiteral rest) else none
  | [] => none

/-- Only blanks stand in front of the next line break. -/
def startsBreak (cs : List Char) : Bool :=
  (lineBreak? (skipBlanks cs)).isSome

/-- The character is skipped after an escaped line break. -/
def isSkipped (c : Char) (rest : List Char) : Bool :=
  isBlank c || (lineBreak? (c :: rest)).isSome

/-- Reads a string in three double quotes, after the opening ones. After an escaped line break,
blanks and line breaks are skipped. Up to two quotes can stand right in front of the closing
ones. -/
def readMultiBasic : (skipping : Bool) → Reader (List Char)
  | _, [] => none
  | skipping, c :: rest =>
    if skipping && isSkipped c rest then readMultiBasic true rest
    else if c = '"' then
      match rest with
      | '"' :: '"' :: '"' :: '"' :: rest => some (['"', '"'], rest)
      | '"' :: '"' :: '"' :: rest => some (['"'], rest)
      | '"' :: '"' :: rest => some ([], rest)
      | _ => prepend '"' (readMultiBasic false rest)
    else if c = '\\' then
      if startsBreak rest then readMultiBasic true rest
      else
        match rest with
        | 'u' :: a :: b :: c :: d :: rest => do
          prepend (← scalar? [a, b, c, d]) (readMultiBasic false rest)
        | 'U' :: a :: b :: c :: d :: e :: f :: g :: h :: rest => do
          prepend (← scalar? [a, b, c, d, e, f, g, h]) (readMultiBasic false rest)
        | c :: rest => do prepend (← escapeChar? c) (readMultiBasic false rest)
        | [] => none
    else if c = '\n' then prepend '\n' (readMultiBasic false rest)
    else if c = '\r' then
      match rest with
      | '\n' :: rest => prepend '\n' (readMultiBasic false rest)
      | _ => none
    else if isPlain c then prepend c (readMultiBasic false rest)
    else none

/-- Reads a string in three single quotes, after the opening ones. -/
def readMultiLiteral : Reader (List Char)
  | '\'' :: '\'' :: '\'' :: '\'' :: '\'' :: rest => some (['\'', '\''], rest)
  | '\'' :: '\'' :: '\'' :: '\'' :: rest => some (['\''], rest)
  | '\'' :: '\'' :: '\'' :: rest => some ([], rest)
  | '\r' :: '\n' :: rest => prepend '\n' (readMultiLiteral rest)
  | '\n' :: rest => prepend '\n' (readMultiLiteral rest)
  | c :: rest => if isPlain c then prepend c (readMultiLiteral rest) else none
  | [] => none

/-- The text without the line break it starts with, if it does. -/
def dropBreak (cs : List Char) : List Char :=
  (lineBreak? cs).getD cs

/-- What was read, as a text. -/
def asString (r : Option (List Char × List Char)) : Option (String × List Char) :=
  r.map fun (cs, rest) => (String.ofList cs, rest)

def readString : Reader String
  | '"' :: '"' :: '"' :: rest => asString (readMultiBasic false (dropBreak rest))
  | '\'' :: '\'' :: '\'' :: rest => asString (readMultiLiteral (dropBreak rest))
  | '"' :: rest => asString (readBasic rest)
  | '\'' :: rest => asString (readLiteral rest)
  | _ => none

/-- Reads a key of one part. -/
def readSimpleKey (cs : List Char) : Option (String × List Char) :=
  match cs with
  | '"' :: rest => asString (readBasic rest)
  | '\'' :: rest => asString (readLiteral rest)
  | _ =>
    match cs.takeWhile isBare with
    | [] => none
    | key => some (String.ofList key, cs.dropWhile isBare)

/-- No key has this many parts, and no value is nested this deep. -/
def depthLimit : Nat := 80

/-- Reads the parts of a key with dots and blanks between them. -/
def readKeyParts : (fuel : Nat) → Reader (List String)
  | 0, _ => none
  | fuel + 1, cs => do
    let (part, rest) ← readSimpleKey (skipBlanks cs)
    match skipBlanks rest with
    | '.' :: rest =>
      let (parts, rest) ← readKeyParts fuel rest
      return (part :: parts, rest)
    | rest => return ([part], rest)

def readKey : Reader (List String) :=
  readKeyParts (depthLimit - 1)

end MicroAsm.Toml
