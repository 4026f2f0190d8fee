/-!
# Bytes and words

Words of sixteen bits, their bytes, and whether a number fits.
-/

namespace MicroAsm

/-- The low byte and the high byte of a word. -/
def wordBytes (v : UInt16) : List UInt8 :=
  [v.toUInt8, (v >>> 8).toUInt8]

/-- The word with the given low and high byte. -/
def wordOf (low high : UInt8) : UInt16 :=
  low.toUInt16 ||| (high.toUInt16 <<< 8)

/-- A number fits in the given number of bits without a sign. -/
def fits (bits : Nat) (v : Int) : Bool :=
  0 ≤ v && v < ((1 <<< bits : Nat) : Int)

/-- A number that is known to fit, as a word. -/
def wordOfInt (v : Int) : UInt16 :=
  UInt16.ofNat v.toNat

/-- The complaint about a number that does not fit. -/
def outOfRangeText (bits : Nat) (v : Int) : String :=
  "Value out of range for " ++ toString bits ++ " bit value: " ++ toString v

/-- The size of a stored value. -/
inductive Width where
  | byte
  | word
deriving DecidableEq, Repr, Inhabited

namespace Width

def size : Width → Nat
  | byte => 1
  | word => 2

def bits (w : Width) : Nat := 8 * w.size

/-- The bytes of a value, the low one first. -/
def bytesOf (w : Width) (v : UInt16) : List UInt8 :=
  match w with
  | byte => [v.toUInt8]
  | word => wordBytes v

@[simp] theorem length_bytesOf (w : Width) (v : UInt16) : (w.bytesOf v).length = w.size := by
  cases w <;> rfl

end Width

end MicroAsm
