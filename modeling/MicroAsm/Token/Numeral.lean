import MicroAsm.Token.Basic

/-!
# Numerals

A numeral names its base by a mark in front (`$`, `%`, `@`) or a letter behind (`H`, `O`, `Q`,
`B`); without either it is decimal. Its value has to fit in 64 bits with a sign.
-/

namespace MicroAsm

/-- The base named by a mark in front of the digits. -/
def Numeral.leadingBase? : Char → Option Nat
  | '$' => some 16
  | '%' => some 2
  | '@' => some 8
  | _ => none

/-- The base named by a letter behind the digits. -/
def Numeral.trailingBase? (c : Char) : Option Nat :=
  match c.toUpper with
  | 'H' => some 16
  | 'O' => some 8
  | 'Q' => some 8
  | 'B' => some 2
  | _ => none

def Numeral.digitValue (c : Char) : Option Nat :=
  if c.isDigit then some (c.toNat - '0'.toNat)
  else if c.isUpper then some (c.toNat - 'A'.toNat + 10)
  else if c.isLower then some (c.toNat - 'a'.toNat + 10)
  else none

/-- The value of a digit of the given base. -/
def Numeral.digit? (base : Nat) (c : Char) : Option Nat :=
  (digitValue c).filter (· < base)

/-- The character is a digit of the given base. -/
def Numeral.isDigitOf (base : Nat) (c : Char) : Bool :=
  (digit? base c).isSome

/-- The positional value of a list of digits, if all of them are digits. -/
def Numeral.natValue? (base : Nat) (cs : List Char) : Option Nat :=
  cs.foldlM (fun acc c => (digit? base c).map (acc * base + ·)) 0

/-- The least and the greatest value of a signed 64-bit word. -/
def Int64Range.least : Int := -0x8000000000000000

@[inherit_doc Int64Range.least]
def Int64Range.greatest : Int := 0x7FFFFFFFFFFFFFFF

/-- The value of digits with an optional sign in front, if it fits in 64 bits. -/
def Numeral.signedValue? (base : Nat) (cs : List Char) : Option Int :=
  let value : Option Int :=
    match cs with
    | [] => none
    | ['+'] => none
    | ['-'] => none
    | '+' :: ds => (natValue? base ds).map Int.ofNat
    | '-' :: ds => (natValue? base ds).map fun n => -(n : Int)
    | ds => (natValue? base ds).map Int.ofNat
  value.filter fun v => Int64Range.least ≤ v ∧ v ≤ Int64Range.greatest

/-- The digits of a numeral and their base. -/
def Numeral.split (cs : List Char) : List Char × Nat :=
  match cs.head?.bind leadingBase? with
  | some base => (cs.tail, base)
  | none =>
    match cs.getLast?.bind trailingBase? with
    | some base => (cs.dropLast, base)
    | none => (cs, 10)

def Numeral.value? (cs : List Char) : Option Int :=
  let (digits, base) := split cs
  signedValue? base digits

/-- The value of a number token; other tokens have none. -/
def Token.number? (t : Token) : Option Int :=
  if t.kind = .number then Numeral.value? t.value.toList else none

end MicroAsm
