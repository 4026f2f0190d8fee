import MicroAsm.Proofs.Listing.Rows

/-!
# Printing rows

A listing is printed as rows below each other. A row has a word in the address column with bytes
behind it, a text behind these, or both: the first bytes of a line share their row with its label,
its statement and its comment.
-/

namespace MicroAsm

/-! ### Printing -/

namespace Printer

lemma columnAfter_append (column : Nat) (cs cs' : List Char) :
    columnAfter column (cs ++ cs') = columnAfter (columnAfter column cs) cs' :=
  List.foldl_append

lemma write_write (p : Printer) (text text' : String) :
    (p.write text).write text' = p.write (text ++ text') := by
  simp [write, String.append_assoc, columnAfter_append]

lemma writeAll_eq (p : Printer) (texts : List String) :
    p.writeAll texts = p.write (String.join texts) := by
  induction texts generalizing p with
  | nil => simp [writeAll, write, columnAfter]
  | cons text texts ih =>
    have hcons : p.writeAll (text :: texts) = (p.write text).writeAll texts := rfl
    rw [hcons, ih, write_write, String.join_cons]

lemma columnAfter_replicate (column n : Nat) :
    columnAfter column (List.replicate n ' ') = column + n := by
  induction n generalizing column with
  | zero => rfl
  | succ n ih => exact (ih (column + 1)).trans (by omega)

/-- Blanks up to a column are a text at the start of a line. -/
lemma toColumn_eq (n : Nat) :
    ({} : Printer).toColumn n = ({} : Printer).write (String.ofList (List.replicate n ' ')) := by
  rw [toColumn, write, String.toList_ofList, columnAfter_replicate]
  split
  · simp
  · rename_i hzero
    have hn : n = 0 := Nat.eq_zero_of_not_pos hzero
    subst hn
    rfl

end Printer

namespace Listing

/-! ### Rows -/

/-- A row of a listing: the word in the address column, the bytes behind it, and the text behind
these. -/
structure Row where
  word : Option UInt16 := none
  bytes : List UInt8 := []
  rest : String := ""

/-- The row as it is printed. -/
def Row.text (columns : Columns) (r : Row) : String :=
  (match r.word with
    | some word => String.ofList (List.replicate columns.address ' ') ++ Text.hex 4 word
    | none => "") ++
  String.join (r.bytes.map fun b => " " ++ Text.hexByte b) ++ r.rest

/-- Prints the label, the statement and the comment of a line. -/
def writeFields (columns : Columns) (l : Line) (p : Printer) : Printer :=
  writeField columns.comment (l.comment.map (";" ++ ·.text))
    (writeField columns.mnemonic
      (if l.statementText.isEmpty then none else some l.statementText)
      (writeField columns.label (l.label.map (·.text ++ ":")) p))

/-- A row with the label, the statement and the comment of a line behind it. -/
def Row.withFields (columns : Columns) (l : Line) (r : Row) : Row :=
  { r with rest := (writeFields columns l { column := (({} : Printer).write (r.text columns)).column }).text }

/-- Rows of bytes, the first one at the given address. -/
def byteRows : UInt16 → List (List UInt8) → List Row
  | _, [] => []
  | address, row :: rest =>
    { word := some address, bytes := row } ::
      byteRows (address + UInt16.ofNat bytesPerRow) rest

/-- The rows of a line that was accepted. -/
def statementRows (columns : Columns) (program : Program) (l : Line) : List Row :=
  let all := rows (lineBytes program.object l.place)
  match shownWord program.symbols l with
  | some word =>
    Row.withFields columns l { word := some word, bytes := all.head?.getD [] } ::
      byteRows (l.place.address + UInt16.ofNat bytesPerRow) (all.drop 1)
  | none =>
    Row.withFields columns l {} :: byteRows (l.place.address + UInt16.ofNat bytesPerRow) all

/-- The rows of a physical line: those of its statement and bytes if it was accepted, otherwise the
line as it is, and those of the messages about it. -/
def physicalRows (columns : Columns) (program : Program) (log : Log) (number : Nat)
    (line : List Char) : List Row :=
  (match lineAt? program.lines number with
  | some l => statementRows columns program l
  | none => [{ rest := (writeSource columns line {}).text }]) ++
  (log.onLine number).map fun m => { rest := messageRow m }

/-- The row of a symbol. -/
def symbolRow (columns : Columns) (s : Symbol) : String :=
  (((({} : Printer).write s.name).toColumn columns.label).write (Text.hex 4 s.value)).text

/-- The rows of the symbols, with a heading. -/
def symbolTableRows (columns : Columns) (symbols : SymbolTable) : List Row :=
  if symbols.isEmpty then []
  else {} :: { rest := "Symbols:" } :: symbols.toList.map fun s => { rest := symbolRow columns s }

/-- The rows of a listing. -/
def allRows (columns : Columns) (source : String) (program : Program) (log : Log) : List Row :=
  ((sourceLines source).zipIdx 1).flatMap
    (fun (line, number) => physicalRows columns program log number line) ++
  symbolTableRows columns program.symbols

/-- Rows below each other. -/
def joinRows (columns : Columns) (rs : List Row) : String :=
  String.join (rs.map fun r => r.text columns ++ "\n")

variable (columns : Columns)

@[simp] lemma joinRows_nil : joinRows columns [] = "" := rfl

@[simp] lemma joinRows_cons (r : Row) (rs : List Row) :
    joinRows columns (r :: rs) = r.text columns ++ "\n" ++ joinRows columns rs := by
  rw [joinRows, List.map_cons, String.join_cons]
  rfl

@[simp] lemma joinRows_append (rs rs' : List Row) :
    joinRows columns (rs ++ rs') = joinRows columns rs ++ joinRows columns rs' := by
  rw [joinRows, List.map_append, String.join_append]
  rfl

@[simp] lemma Row.text_rest (text : String) : Row.text columns { rest := text } = text := by
  simp [Row.text]

/-! ### Printing rows -/

lemma writeRow_eq (address : UInt16) (row : List UInt8) :
    writeRow columns address row {} =
      ({} : Printer).write (Row.text columns { word := some address, bytes := row }) := by
  rw [writeRow, Printer.toColumn_eq, Printer.write_write, Printer.writeAll_eq,
    Printer.write_write]
  simp [Row.text]

lemma text_writeRows (address : UInt16) (rs : List (List UInt8)) (p : Printer) :
    (writeRows columns address rs p).text ++ "\n" =
      p.text ++ "\n" ++ joinRows columns (byteRows address rs) := by
  induction rs generalizing address p with
  | nil => simp [writeRows, byteRows]
  | cons row rs ih =>
    rw [writeRows, ih, Printer.newline_eq_after, writeRow_after, writeRow_eq, byteRows]
    simp [Printer.write, String.append_assoc]

/-- The fields of a line behind a row are printed where the row ends. -/
lemma text_writeFields (l : Line) (r : Row) (hrest : r.rest = "") :
    (writeFields columns l (({} : Printer).write (r.text columns))).text =
      (r.withFields columns l).text columns := by
  have hprinter : ({} : Printer).write (r.text columns) =
      Printer.after (r.text columns)
        { column := (({} : Printer).write (r.text columns)).column } := by
    simp [Printer.write, Printer.after]
  have hafter : ∀ front p, writeFields columns l (Printer.after front p) =
      (writeFields columns l p).after front := by
    simp [writeFields, writeField_after]
  rw [hprinter, hafter, Printer.after_text]
  simp [Row.withFields, Row.text, hrest]

/-- What is printed of a line is its rows. -/
lemma text_writeLine (program : Program) (l : Line) :
    (writeLine columns program l {}).text ++ "\n" =
      joinRows columns (statementRows columns program l) := by
  cases hword : shownWord program.symbols l with
  | some word =>
    have hline : writeLine columns program l {} =
        writeRows columns (l.place.address + UInt16.ofNat bytesPerRow)
          ((rows (lineBytes program.object l.place)).drop 1)
          (writeFields columns l (writeRow columns word
            ((rows (lineBytes program.object l.place)).head?.getD []) {})) := by
      rw [writeLine, hword]
      rfl
    rw [hline, text_writeRows, writeRow_eq, text_writeFields columns l _ rfl, statementRows, hword,
      joinRows_cons]
  | none =>
    have hline : writeLine columns program l {} =
        writeRows columns (l.place.address + UInt16.ofNat bytesPerRow)
          (rows (lineBytes program.object l.place)) (writeFields columns l {}) := by
      rw [writeLine, hword]
      rfl
    have hstart : ({} : Printer) = ({} : Printer).write (Row.text columns {}) := rfl
    rw [hline, text_writeRows, hstart, text_writeFields columns l _ rfl, statementRows, hword,
      joinRows_cons]

/-- The rows of a physical line with the messages about it. -/
lemma lineRows_eq (program : Program) (log : Log) (number : Nat) (line : List Char) :
    lineRows columns program log number line =
      joinRows columns (physicalRows columns program log number line) := by
  have hmessages : String.join ((log.onLine number).map (messageRow · ++ "\n")) =
      joinRows columns ((log.onLine number).map fun m => { rest := messageRow m }) := by
    rw [joinRows, List.map_map]
    exact congrArg _ (List.map_congr_left fun m _ => by simp)
  rw [lineRows, hmessages, physicalRows, joinRows_append, sourceRows]
  cases lineAt? program.lines number with
  | some l => exact congrArg (· ++ _) (text_writeLine columns program l)
  | none => simp

lemma symbolRows_eq (symbols : SymbolTable) :
    symbolRows columns symbols = joinRows columns (symbolTableRows columns symbols) := by
  have hfold : ∀ (found : List Symbol) (front : String),
      (found.foldl (fun p s => (((p.write s.name).toColumn columns.label).write
          (Text.hex 4 s.value)).newline) (({} : Printer).after front)).text =
        front ++ joinRows columns (found.map fun s => { rest := symbolRow columns s }) := by
    intro found
    induction found with
    | nil => exact fun front => rfl
    | cons s found ih =>
      intro front
      have hrow : ((((({} : Printer).after front).write s.name).toColumn columns.label).write
          (Text.hex 4 s.value)).newline =
            ({} : Printer).after (front ++ (symbolRow columns s ++ "\n")) := by
        rw [Printer.write_after, Printer.toColumn_after, Printer.write_after,
          Printer.newline_after, Printer.newline_eq_after, Printer.after_after]
        rfl
      rw [List.foldl_cons, hrow, ih]
      simp [String.append_assoc]
  rw [symbolRows, writeSymbols, symbolTableRows]
  split
  · rfl
  · have hheading : ((({} : Printer).newline.write "Symbols:").newline) =
        ({} : Printer).after "\nSymbols:\n" := rfl
    rw [hheading, hfold, joinRows_cons, joinRows_cons, Row.text_rest, ← String.append_assoc]
    rfl

/-- A listing of messages that all have places is its rows below each other. -/
lemma render_eq_joinRows {program : Program} {log : Log} (source : String)
    (h : ∀ m ∈ log.messages.toList, m.isGlobal = false) :
    render columns source program log =
      joinRows columns (allRows columns source program log) := by
  rw [render_eq columns source h, symbolRows_eq, allRows, joinRows_append]
  refine congrArg (· ++ _) ?_
  induction (sourceLines source).zipIdx 1 with
  | nil => rfl
  | cons numbered lines ih =>
    rw [List.map_cons, List.flatMap_cons, String.join_cons, joinRows_append, ih, lineRows_eq]

end Listing

end MicroAsm
