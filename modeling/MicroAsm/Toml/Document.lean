import MicroAsm.Toml.DateTable
import MicroAsm.Toml.Quoted
import MicroAsm.Toml.Section

/-!
# TOML documents

Reads a document into a table. Keys keep the order in which the document has them, and tables that
stand for dates are replaced by these.
-/

namespace MicroAsm.Toml

/-- Reads a value that starts with a digit or a sign. -/
def readNumberOrDate (cs : List Char) : Option (Value × List Char) :=
  let literal (rest : List Char) : String := String.ofList (cs.take (cs.length - rest.length))
  match readDateTime cs with
  | some rest => some (.dateTime (literal rest), rest)
  | none =>
    match readFloat cs with
    | some rest => some (.float (literal rest), rest)
    | none => (readInteger cs).map fun (n, rest) => (.integer n, rest)

/-- Reads a value that is not made of others. -/
def readScalar (cs : List Char) : Option (Value × List Char) :=
  match cs with
  | [] => none
  | c :: _ =>
    if c = '"' ∨ c = '\'' then (readString cs).map fun (s, rest) => (.string s, rest)
    else if c.isDigit ∨ c = '+' ∨ c = '-' then readNumberOrDate cs
    else if c = 't' then (readWord "true" cs).map fun rest => (.boolean true, rest)
    else if c = 'f' then (readWord "false" cs).map fun rest => (.boolean false, rest)
    else if c = 'i' then (readWord "inf" cs).map fun rest => (.float "inf", rest)
    else if c = 'n' then (readWord "nan" cs).map fun rest => (.float "nan", rest)
    else none

mutual

/-- Reads a value. Brackets and braces nest up to a limit. -/
def readValue : (fuel depth : Nat) → Reader Value
  | 0, _, _ => none
  | fuel + 1, depth, cs =>
    match cs with
    | '[' :: rest =>
      if depth + 1 < depthLimit then
        (readElements fuel (depth + 1) rest).map fun (items, rest) => (.array items, rest)
      else none
    | '\x7b' :: rest =>
      if depth + 1 < depthLimit then
        (readEntries fuel (depth + 1) true [] rest).map fun (items, rest) =>
          (.table (Items.toTable items), rest)
      else none
    | _ => readScalar cs

/-- Reads the elements of an array up to its closing bracket. A comma can follow the last. -/
def readElements : (fuel depth : Nat) → Reader (List Value)
  | 0, _, _ => none
  | fuel + 1, depth, cs => do
    match ← skipFiller false cs with
    | ']' :: rest => return ([], rest)
    | cs =>
      let (v, rest) ← readValue fuel depth cs
      match ← skipFiller false rest with
      | ']' :: rest => return ([v], rest)
      | ',' :: rest =>
        let (vs, rest) ← readElements fuel depth rest
        return (v :: vs, rest)
      | _ => none

/-- Reads the entries of a table in braces up to the closing one, after those read so far. No
comma can follow the last. -/
def readEntries : (fuel depth : Nat) → (first : Bool) → Items → Reader Items
  | 0, _, _, _, _ => none
  | fuel + 1, depth, first, items, cs => do
    match skipBlanks cs with
    | '\x7d' :: rest => if first then return (items, rest) else none
    | cs =>
      let (keys, rest) ← readKey cs
      let rest ← readChar '=' rest
      let (v, rest) ← readValue fuel depth (skipBlanks rest)
      let key ← keys.getLast?
      let items ← addValue items keys.dropLast key (.value v)
      match skipBlanks rest with
      | '\x7d' :: rest => return (items, rest)
      | ',' :: rest => readEntries fuel depth false items rest
      | _ => none

end

/-- Reads a header: whether it has double brackets, and its key. -/
def readHeader (cs : List Char) : Option (Bool × List String × List Char) := do
  match cs with
  | '[' :: '[' :: rest =>
    let (path, rest) ← readKey rest
    let rest ← readWord "]]" rest
    return (true, path, ← restOfLine? rest)
  | '[' :: rest =>
    let (path, rest) ← readKey rest
    let rest ← readWord "]" rest
    return (false, path, ← restOfLine? rest)
  | _ => none

/-- Reads a line with a key and its value. -/
def readKeyValue (cs : List Char) : Option (List String × Value × List Char) := do
  let (keys, rest) ← readKey cs
  let rest ← readChar '=' rest
  let cs := skipBlanks rest
  let (v, rest) ← readValue (2 * cs.length + 2) 0 cs
  return (keys, v, ← restOfLine? rest)

def readLines : (fuel : Nat) → Builder → List Char → Option Builder
  | 0, _, _ => none
  | fuel + 1, b, cs =>
    match skipBlanks cs with
    | [] => some b
    | c :: cs =>
      if c = '#' ∨ c = '\n' ∨ c = '\r' then do
        readLines fuel b (← restOfLine? (c :: cs))
      else if c = '[' then do
        let (inArray, path, rest) ← readHeader (c :: cs)
        let b ← if inArray then b.openArray path else b.openTable path
        readLines fuel b rest
      else do
        let (keys, v, rest) ← readKeyValue (c :: cs)
        let b ← b.add keys v
        readLines fuel b rest

/-- Reads a document, which may start with a byte order mark. -/
def parse? (text : String) : Option Table := do
  let cs :=
    match text.toList with
    | '\ufeff' :: cs => cs
    | cs => cs
  let b ← readLines (cs.length + 1) {} cs
  let items ← b.close
  resolveEntries (Items.toTable items)

def read : DocumentReader := fun text =>
  match parse? text with
  | some t => .ok t
  | none => .error "invalid document"

theorem read_eq_ok_iff {text : String} {t : Table} : read text = .ok t ↔ parse? text = some t := by
  rw [read]
  cases parse? text <;> simp

end MicroAsm.Toml
