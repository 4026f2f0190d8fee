import MicroAsm.Text.Capital

/-!
# Symbols

The names of a unit and their values. A name is looked up by its capital form, and the table keeps
its entries in the order of that form, so two tables with the same entries are the same table.
-/

namespace MicroAsm

/-- How a symbol got its value. -/
inductive SymbolKind where
  /-- The address of a line. -/
  | label
  /-- A constant. -/
  | equ
  /-- A variable, the only kind that can be given a new value. -/
  | set
deriving DecidableEq, Repr, Inhabited

/-- A name with its value. -/
structure Symbol where
  /-- The spelling it was first given. -/
  name : String
  value : UInt16
  kind : SymbolKind
deriving DecidableEq, Repr, Inhabited

inductive SymbolError where
  | duplicate (name : String)
  | undefined (name : String)
deriving DecidableEq, Repr

def SymbolError.text : SymbolError → String
  | duplicate name => "Duplicate label: " ++ name
  | undefined name => "Undefined label: " ++ name

/-- The symbols of a unit, each under the capital form of its name and in the order of these. -/
structure SymbolTable where
  entries : List (String × Symbol) := []
deriving DecidableEq, Repr, Inhabited

namespace SymbolTable

/-- Puts an entry at its place, over one of the same key. -/
def place (key : String) (symbol : Symbol) :
    List (String × Symbol) → List (String × Symbol)
  | [] => [(key, symbol)]
  | entry :: rest =>
    if key = entry.1 then (key, symbol) :: rest
    else if key < entry.1 then (key, symbol) :: entry :: rest
    else entry :: place key symbol rest

def empty : SymbolTable := {}

def get? (t : SymbolTable) (name : String) : Option Symbol :=
  t.entries.lookup (Text.upper name)

/-- The table with a symbol put at its place. -/
def insert (t : SymbolTable) (symbol : Symbol) : SymbolTable :=
  ⟨place (Text.upper symbol.name) symbol t.entries⟩

def contains (t : SymbolTable) (name : String) : Bool :=
  (t.get? name).isSome

def add (t : SymbolTable) (name : String) (value : UInt16) (kind : SymbolKind) :
    Except SymbolError SymbolTable :=
  match t.get? name with
  | some _ => .error (.duplicate name)
  | none => .ok (t.insert ⟨name, value, kind⟩)

/-- Gives a variable a value. A new name becomes a variable. -/
def assign (t : SymbolTable) (name : String) (value : UInt16) : Except SymbolError SymbolTable :=
  match t.get? name with
  | some symbol =>
    if symbol.kind = .set then .ok (t.insert { symbol with value := value })
    else .error (.duplicate name)
  | none => .ok (t.insert ⟨name, value, .set⟩)

/-- The value of a name. -/
def value (t : SymbolTable) (name : String) : Except SymbolError UInt16 :=
  match t.get? name with
  | some symbol => .ok symbol.value
  | none => .error (.undefined name)

/-- The symbols in the order of the capital forms of their names. -/
def toList (t : SymbolTable) : List Symbol :=
  t.entries.map Prod.snd

def size (t : SymbolTable) : Nat :=
  t.entries.length

def isEmpty (t : SymbolTable) : Bool :=
  t.entries.isEmpty

end SymbolTable

end MicroAsm
