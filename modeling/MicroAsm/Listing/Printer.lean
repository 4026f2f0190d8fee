/-!
# Printing in columns

A printer collects text and knows how many characters stand on its last line, so that what comes
next can be lined up. It never takes anything back: a column that is already passed is left alone.
-/

namespace MicroAsm

/-- Text that was printed, and the column reached on its last line. -/
structure Printer where
  text : String := ""
  column : Nat := 0
deriving DecidableEq, Repr, Inhabited

namespace Printer

/-- The column after a text that is printed from the given column on. -/
def columnAfter (column : Nat) (cs : List Char) : Nat :=
  cs.foldl (fun column c => if c = '\n' then 0 else column + 1) column

def write (p : Printer) (text : String) : Printer :=
  { text := p.text ++ text, column := columnAfter p.column text.toList }

/-- Prints blanks up to a column. -/
def toColumn (p : Printer) (n : Nat) : Printer :=
  if p.column < n then
    { text := p.text ++ String.ofList (List.replicate (n - p.column) ' '), column := n }
  else p

/-- Ends the line. -/
def newline (p : Printer) : Printer :=
  { text := p.text ++ "\n", column := 0 }

def writeAll (p : Printer) (texts : List String) : Printer :=
  texts.foldl write p

end Printer

end MicroAsm
