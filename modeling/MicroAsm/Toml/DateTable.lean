import MicroAsm.Toml.DateTime

/-!
# Dates given as tables

A date can be given as a table too: one whose first key is `dateKey` stands for the date in the
string there, and whatever else it holds is not looked at. The string is a date, a time or both as
a document has them.

The document itself is always a table. A table with the key in front and no date there makes no
sense, and with it the whole document.
-/

namespace MicroAsm.Toml

/-- The first key of a table that stands for a date. -/
def dateKey : String := "$__toml_private_datetime"

/-- The text is a date, a time or both and nothing else. -/
def isDateTime (cs : List Char) : Bool :=
  readDateTime cs == some []

/-- The date that a value under `dateKey` gives. -/
def dateOf? : Value → Option Value
  | .string s => if isDateTime s.toList then some (.dateTime s) else none
  | _ => none

/-- What the value under the first key is, if that key is `dateKey`. -/
def dateEntry? : Table → Option Value
  | (key, v) :: _ => if key = dateKey then some v else none
  | [] => none

mutual

/-- The value with the tables in it that stand for dates replaced by these. -/
def Value.resolve : Value → Option Value
  | .array items => (resolveAll items).map .array
  | .table entries =>
    match dateEntry? entries with
    | some v => dateOf? v
    | none => (resolveEntries entries).map .table
  | v => some v

/-- The values with the tables in them that stand for dates replaced by these. -/
def resolveAll : List Value → Option (List Value)
  | [] => some []
  | v :: rest => do return (← v.resolve) :: (← resolveAll rest)

/-- The entries with the tables in their values that stand for dates replaced by these. -/
def resolveEntries : List (String × Value) → Option (List (String × Value))
  | [] => some []
  | (key, v) :: rest => do return (key, ← v.resolve) :: (← resolveEntries rest)

end

end MicroAsm.Toml
