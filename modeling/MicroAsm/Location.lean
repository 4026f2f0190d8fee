/-!
# Locations

Where something stands in a source text. Lines and columns count from one for anything that was
scanned; the location of all zeros is no place at all, and belongs to messages about the whole unit.
-/

namespace MicroAsm

/-- A place in a source text. -/
structure Location where
  line : Nat
  /-- Zero at the start of a line, one once its first character has been read. -/
  column : Nat
  /-- Bytes of the text before this place. -/
  offset : Nat
deriving DecidableEq, Repr, Inhabited

namespace Location

/-- The place where reading starts. -/
def start : Location := ⟨1, 0, 0⟩

/-- No place at all. -/
def none : Location := ⟨0, 0, 0⟩

def isNone (l : Location) : Bool := l == none

/-- The next place on the same line, one byte further. -/
def increment (l : Location) : Location :=
  { l with column := l.column + 1, offset := l.offset + 1 }

/-- The start of the next line. The bytes of the line break are not counted. -/
def newline (l : Location) : Location :=
  { l with line := l.line + 1, column := 0 }

/-- The place after a character of the same line. -/
def advance (l : Location) (c : Char) : Location :=
  { l with column := l.column + 1, offset := l.offset + c.utf8Size }

/-- The place after a line break of `bytes` bytes. -/
def breakLine (l : Location) (bytes : Nat) : Location :=
  { l.newline with offset := l.offset + bytes }

/-- Line and column, as messages show them. -/
def text (l : Location) : String :=
  toString l.line ++ ":" ++ toString l.column

end Location

end MicroAsm
