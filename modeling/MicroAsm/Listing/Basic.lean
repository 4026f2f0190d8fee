import MicroAsm.Assembly.Program
import MicroAsm.Listing.Printer

/-!
# Listings

A listing shows each line of a source with its address and bytes and the messages about it, and
the symbols at the end.
-/

namespace MicroAsm

/-- The columns where the fields of a listing start. -/
structure Columns where
  address : Nat := 0
  label : Nat := 20
  mnemonic : Nat := 30
  comment : Nat := 50
deriving DecidableEq, Repr, Inhabited

namespace Listing

/-- The text with every line break made a single `\n`. -/
def normalizeBreaks : List Char → List Char
  | '\r' :: '\n' :: cs => '\n' :: normalizeBreaks cs
  | c :: cs => (if c = '\r' then '\n' else c) :: normalizeBreaks cs
  | [] => []

/-- Splits a text at `\n`: the first line, and those after it. -/
def splitLines : List Char → List Char × List (List Char)
  | [] => ([], [])
  | c :: cs =>
    let (line, lines) := splitLines cs
    if c = '\n' then ([], line :: lines) else (c :: line, lines)

/-- The physical lines of a source. A break at the very end starts no further line. -/
def sourceLines (source : String) : List (List Char) :=
  let text := normalizeBreaks source.toList
  let (line, lines) := splitLines text
  if text.getLast? = some '\n' then (line :: lines).dropLast else line :: lines

/-- Bytes in rows of four. -/
def rows : List UInt8 → List (List UInt8)
  | a :: b :: c :: d :: rest => [a, b, c, d] :: rows rest
  | [] => []
  | short => [short]

/-- How many bytes a full row has. -/
def bytesPerRow : Nat := 4

def lineBytes (object : ObjectCode) (place : Placement) : List UInt8 :=
  match object.get? place.segment with
  | none => []
  | some s =>
    if place.start + place.size ≤ s.size then
      (s.bytes.extract place.start (place.start + place.size)).toList
    else []

/-- The value that an assignment gave to its symbol. -/
def assignedValue (symbols : SymbolTable) (l : Line) : Option UInt16 :=
  match l.operandNodes.head?.map Node.kind with
  | some (.data16 v) => some v
  | some (.locationCounter v) => some v
  | some (.refData v) => v
  | some (.expression e) =>
    match e.eval symbols l.place.address with
    | .ok n => if fits 16 n then some (wordOfInt n) else none
    | .error _ => none
  | _ => none

/-- The word in the address column of a line: the value of an assignment, otherwise the address,
unless the line has nothing to place. -/
def shownWord (symbols : SymbolTable) (l : Line) : Option UInt16 :=
  match l.statement.kind with
  | .equ | .set => assignedValue symbols l
  | .empty => if l.label.isNone then none else some l.place.address
  | _ => some l.place.address

/-- Prints an address and the bytes there. -/
def writeRow (columns : Columns) (address : UInt16) (row : List UInt8) (p : Printer) : Printer :=
  ((p.toColumn columns.address).write (Text.hex 4 address)).writeAll
    (row.map fun b => " " ++ Text.hexByte b)

/-- Prints rows of bytes below each other, the first one at the given address. -/
def writeRows (columns : Columns) : UInt16 → List (List UInt8) → Printer → Printer
  | _, [], p => p
  | address, row :: rest, p =>
    writeRows columns (address + UInt16.ofNat bytesPerRow) rest
      (writeRow columns address row p.newline)

/-- Prints a field in its column, if there is one. -/
def writeField (column : Nat) (field : Option String) (p : Printer) : Printer :=
  match field with
  | some text => (p.toColumn column).write text
  | none => p

def writeLine (columns : Columns) (program : Program) (l : Line) (p : Printer) : Printer :=
  let all := rows (lineBytes program.object l.place)
  let (first, p) :=
    match shownWord program.symbols l with
    | some word => (1, writeRow columns word (all.head?.getD []) p)
    | none => (0, p)
  let text := l.statementText
  let p := writeField columns.label (l.label.map (·.text ++ ":")) p
  let p := writeField columns.mnemonic (if text.isEmpty then none else some text) p
  let p := writeField columns.comment (l.comment.map (";" ++ ·.text)) p
  writeRows columns (l.place.address + UInt16.ofNat bytesPerRow) (all.drop first) p

/-- Prints a line that was not accepted, as it is. -/
def writeSource (columns : Columns) (line : List Char) (p : Printer) : Printer :=
  match Text.trim line with
  | [] => p
  | text => (p.toColumn columns.label).write (String.ofList text)

def writeMessages (ms : List Message) (p : Printer) : Printer :=
  ms.foldl (fun p m => (p.write ("--> " ++ m.severity.name ++ ": " ++ m.shown)).newline) p

/-- The line with a number, the last one if there is more than one. -/
def lineAt? (lines : List Line) (number : Nat) : Option Line :=
  lines.reverse.find? (·.location.line == number)

/-- Prints a source line with the messages about it. -/
def writeSourceLine (columns : Columns) (program : Program) (log : Log) (number : Nat)
    (line : List Char) (p : Printer) : Printer :=
  let p :=
    match lineAt? program.lines number with
    | some l => writeLine columns program l p
    | none => writeSource columns line p
  writeMessages (log.onLine number) p.newline

/-- Prints source lines, the first of them with the given number. -/
def writeSourceLines (columns : Columns) (program : Program) (log : Log) :
    Nat → List (List Char) → Printer → Printer
  | _, [], p => p
  | number, line :: lines, p =>
    writeSourceLines columns program log (number + 1) lines
      (writeSourceLine columns program log number line p)

def writeSymbols (columns : Columns) (symbols : SymbolTable) (p : Printer) : Printer :=
  if symbols.isEmpty then p
  else
    symbols.toList.foldl
      (fun p s => (((p.write s.name).toColumn columns.label).write (Text.hex 4 s.value)).newline)
      (p.newline.write "Symbols:").newline

def render (columns : Columns) (source : String) (program : Program) (log : Log) : String :=
  let p := writeSourceLines columns program log 1 (sourceLines source) {}
  let p := writeMessages log.global p
  (writeSymbols columns program.symbols p).text

end Listing

end MicroAsm
