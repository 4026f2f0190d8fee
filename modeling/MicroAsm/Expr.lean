import MicroAsm.Symbol
import MicroAsm.Token.Numeral

/-!
# Expressions

An expression is a sum of terms, each possibly with a minus in front. It is added up from left to
right in signed 64-bit words that stop at their least and greatest value.
-/

namespace MicroAsm

inductive Term where
  | number (n : Int)
  | symbol (name : String)
  /-- The address of the line. -/
  | locationCounter
  /-- A string of one character. -/
  | char (c : Char)
deriving DecidableEq, Repr, Inhabited

structure SignedTerm where
  negative : Bool
  term : Term
deriving DecidableEq, Repr, Inhabited

/-- A sum of signed terms. -/
structure Expr where
  terms : List SignedTerm := []
deriving DecidableEq, Repr, Inhabited

/-- The nearest value of a signed 64-bit word. -/
def saturate (v : Int) : Int :=
  max Int64Range.least (min v Int64Range.greatest)

/-- The value of a term, or the name it needs. -/
def Term.eval (symbols : SymbolTable) (here : UInt16) : Term → Except String Int
  | number n => .ok n
  | char c => .ok c.toNat
  | locationCounter => .ok here.toNat
  | symbol name =>
    match symbols.get? name with
    | some s => .ok s.value.toNat
    | none => .error name

namespace Expr

/-- The value of an expression that is one literal. -/
def literal? (e : Expr) : Option Int :=
  match e.terms with
  | [⟨false, .number n⟩] => some n
  | [⟨false, .char c⟩] => some c.toNat
  | _ => none

/-- The name of an expression that is one symbol. -/
def symbol? (e : Expr) : Option String :=
  match e.terms with
  | [⟨false, .symbol name⟩] => some name
  | _ => none

/-- The expression is the location counter and nothing else. -/
def isLocationCounter (e : Expr) : Bool :=
  match e.terms with
  | [⟨false, .locationCounter⟩] => true
  | _ => false

/-- The names in an expression, from left to right. -/
def symbols (e : Expr) : List String :=
  e.terms.filterMap fun t =>
    match t.term with
    | .symbol name => some name
    | _ => none

/-- Adds a signed term to a sum. -/
def accumulate (symbols : SymbolTable) (here : UInt16) (sum : Int) (t : SignedTerm) :
    Except String Int :=
  (t.term.eval symbols here).map fun v => saturate (if t.negative then sum - v else sum + v)

/-- The value of an expression, or the first name without a value. -/
def eval (e : Expr) (symbols : SymbolTable) (here : UInt16) : Except String Int :=
  e.terms.foldlM (accumulate symbols here) 0

end Expr

end MicroAsm
