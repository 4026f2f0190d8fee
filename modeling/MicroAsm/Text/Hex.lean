/-!
# Hexadecimal text

Words in capital hexadecimal digits, and the literal form that a source can contain: a trailing
`h`, and a leading zero where the digits would start with a letter.
-/

namespace MicroAsm.Text

/-- The digit for a value below sixteen. -/
def hexDigit (n : Nat) : Char :=
  if n < 10 then Char.ofNat (48 + n) else Char.ofNat (55 + n)

/-- The lowest `width` digits of `n`. -/
def hexDigits : (width n : Nat) → List Char
  | 0, _ => []
  | width + 1, n => hexDigits width (n / 16) ++ [hexDigit (n % 16)]

@[simp] theorem length_hexDigits (width n : Nat) : (hexDigits width n).length = width := by
  induction width generalizing n with
  | zero => rfl
  | succ width ih => simp [hexDigits, ih]

/-- How many digits a word needs. -/
def hexWidth (n : Nat) : Nat :=
  if n < 0x10 then 1 else if n < 0x100 then 2 else if n < 0x1000 then 3 else 4

/-- A word in hexadecimal, with zeros in front up to `width` digits. -/
def hex (width : Nat) (n : UInt16) : String :=
  String.ofList (hexDigits (max width (hexWidth n.toNat)) n.toNat)

def hexByte (b : UInt8) : String :=
  hex 2 b.toUInt16

/-- A word as a numeric literal of at least `width` digits. -/
def hexLiteral (width : Nat) (n : UInt16) : String :=
  let digits := hexDigits (max width (hexWidth n.toNat)) n.toNat
  match digits with
  | c :: _ => String.ofList (if c.isAlpha then '0' :: digits ++ ['h'] else digits ++ ['h'])
  | [] => "h"

end MicroAsm.Text
