import MicroAsm.Toml.Basic
import MicroAsm.Token.Numeral

/-!
# TOML numbers

Integers in four bases and floats. Digits may have single underscores between them, and a decimal
integer has no zero in front of other digits.
-/

namespace MicroAsm.Toml

/-- Takes digits off the front, without the underscores between them. -/
def digitRun (isDigit : Char → Bool) : List Char → List Char × List Char
  | '_' :: c :: rest =>
    if isDigit c then
      let (digits, rest) := digitRun isDigit rest
      (c :: digits, rest)
    else ([], '_' :: c :: rest)
  | c :: rest =>
    if isDigit c then
      let (digits, rest) := digitRun isDigit rest
      (c :: digits, rest)
    else ([], c :: rest)
  | [] => ([], [])

/-- Reads one digit or more. -/
def readDigits (isDigit : Char → Bool) : Reader (List Char)
  | c :: rest => if isDigit c then some (digitRun isDigit (c :: rest)) else none
  | [] => none

/-- Takes a sign off the front: whether it is a minus. -/
def takeSign : List Char → Bool × List Char
  | '+' :: rest => (false, rest)
  | '-' :: rest => (true, rest)
  | cs => (false, cs)

def readDecimal : Reader (List Char)
  | '0' :: rest => some (['0'], rest)
  | cs => readDigits Char.isDigit cs

def readBase (base : Nat) (cs : List Char) : Option (Int × List Char) := do
  let (digits, rest) ← readDigits (Numeral.isDigitOf base) cs
  let n ← Numeral.natValue? base digits
  if (n : Int) ≤ Int64Range.greatest then return (n, rest) else none

def readInteger : Reader Int
  | '0' :: 'x' :: rest => readBase 16 rest
  | '0' :: 'o' :: rest => readBase 8 rest
  | '0' :: 'b' :: rest => readBase 2 rest
  | cs => do
    let (negative, cs) := takeSign cs
    let (digits, rest) ← readDecimal cs
    let n ← Numeral.natValue? 10 digits
    let v : Int := if negative then -(n : Int) else n
    if Int64Range.least ≤ v ∧ v ≤ Int64Range.greatest then return (v, rest) else none

/-- The least number that no double is near enough to: it lies halfway between the greatest
double and the power of two after it. -/
def doubleLimit : Nat := (1 <<< 1024) - (1 <<< 970)

/-- Digits times a power of ten are too large for a double. -/
def overflows (digits : List Char) (exponent : Int) : Bool :=
  match digits.dropWhile (· == '0') with
  | [] => false
  | significant =>
    let magnitude := (significant.length : Int) + exponent
    let n := (Numeral.natValue? 10 significant).getD 0
    if magnitude > 400 then true
    else if magnitude < 300 then false
    else if 0 ≤ exponent then n * Nat.pow 10 exponent.toNat ≥ doubleLimit
    else n ≥ doubleLimit * Nat.pow 10 (-exponent).toNat

def readExponent : Reader Int
  | c :: cs =>
    if c = 'e' ∨ c = 'E' then do
      let (negative, cs) := takeSign cs
      let (digits, rest) ← readDigits Char.isDigit cs
      let n ← Numeral.natValue? 10 digits
      return (if negative then -(n : Int) else n, rest)
    else none
  | [] => none

/-- Reads the digits after the point of a float. -/
def readFraction : Reader (List Char)
  | '.' :: rest => readDigits Char.isDigit rest
  | _ => none

/-- Reads a word as it is. -/
def readWord (word : String) (cs : List Char) : Option (List Char) :=
  if word.toList.isPrefixOf cs then some (cs.drop word.length) else none

/-- Reads a float with a fraction or an exponent, and gives the text after it. -/
def readFinite (cs : List Char) : Option (List Char) := do
  let (negative, cs) := takeSign cs
  let (whole, cs) ← readDecimal cs
  let (fraction, exponent, rest) ←
    match readExponent cs with
    | some (exponent, rest) => some ([], exponent, rest)
    | none => do
      let (fraction, rest) ← readFraction cs
      match readExponent rest with
      | some (exponent, rest) => some (fraction, exponent, rest)
      | none => some (fraction, 0, rest)
  if !negative && overflows (whole ++ fraction) (exponent - fraction.length) then none
  else some rest

/-- Reads an infinite float or one that is no number, and gives the text after it. -/
def readSpecial (cs : List Char) : Option (List Char) :=
  let (_, cs) := takeSign cs
  (readWord "inf" cs).or (readWord "nan" cs)

/-- Reads a float, and gives the text after it. -/
def readFloat (cs : List Char) : Option (List Char) :=
  (readFinite cs).or (readSpecial cs)

end MicroAsm.Toml
