import MicroAsm.Toml.Number

/-!
# TOML dates and times

Dates of the calendar, times of the day, and both together, with or without an offset.
-/

namespace MicroAsm.Toml

/-- Reads a number of exactly so many digits within bounds. -/
def readField (width low high : Nat) (cs : List Char) : Option (Nat × List Char) := do
  let digits := cs.take width
  if digits.length = width ∧ digits.all Char.isDigit then
    let n ← Numeral.natValue? 10 digits
    if low ≤ n ∧ n ≤ high then return (n, cs.drop width) else none
  else none

def readChar (c : Char) : List Char → Option (List Char)
  | d :: rest => if d = c then some rest else none
  | [] => none

def isLeapYear (year : Nat) : Bool :=
  year % 4 == 0 && (year % 100 != 0 || year % 400 == 0)

def daysInMonth (year month : Nat) : Nat :=
  match month with
  | 2 => if isLeapYear year then 29 else 28
  | 4 | 6 | 9 | 11 => 30
  | _ => 31

/-- Reads a date, and gives the text after it. -/
def readDate (cs : List Char) : Option (List Char) := do
  let (year, cs) ← readField 4 0 9999 cs
  let cs ← readChar '-' cs
  let (month, cs) ← readField 2 1 12 cs
  let cs ← readChar '-' cs
  let (_, cs) ← readField 2 1 (daysInMonth year month) cs
  return cs

/-- The text after a fraction of a second, if there is one. -/
def skipFraction (cs : List Char) : List Char :=
  match cs with
  | '.' :: c :: rest => if c.isDigit then rest.dropWhile Char.isDigit else cs
  | _ => cs

/-- Reads a time of the day, and gives the text after it. -/
def readTime (cs : List Char) : Option (List Char) := do
  let (_, cs) ← readField 2 0 23 cs
  let cs ← readChar ':' cs
  let (_, cs) ← readField 2 0 59 cs
  let cs ← readChar ':' cs
  let (_, cs) ← readField 2 0 60 cs
  return skipFraction cs

/-- Reads an offset, and gives the text after it. -/
def readOffset : List Char → Option (List Char)
  | c :: rest =>
    if c = 'Z' ∨ c = 'z' then some rest
    else if c = '+' ∨ c = '-' then do
      let (_, cs) ← readField 2 0 23 rest
      let cs ← readChar ':' cs
      let (_, cs) ← readField 2 0 59 cs
      return cs
    else none
  | [] => none

/-- Reads the time after a date, with its offset, and gives the text after it. -/
def readTimeOfDate : List Char → Option (List Char)
  | c :: rest =>
    if c = 'T' ∨ c = 't' ∨ c = ' ' then do
      let cs ← readTime rest
      return (readOffset cs).getD cs
    else none
  | [] => none

/-- Reads a date, a time or both, and gives the text after it. -/
def readDateTime (cs : List Char) : Option (List Char) :=
  match readDate cs with
  | some rest => some ((readTimeOfDate rest).getD rest)
  | none => readTime cs

end MicroAsm.Toml
