import Mathlib.Data.List.Perm.Basic
import MicroAsm.Proofs.Assembly.Messages
import MicroAsm.Proofs.Likeness.LineBreaks

/-!
# The rows of a listing

A listing splits a source at its line breaks in its own way, and leaves out a blank line at the
end. Every message is about a token of a line that is not blank, so its line is among those of the
listing. There it has a row of its own, below those of its line.
-/

namespace MicroAsm

/-! ### Printing behind a text -/

namespace Printer

/-- The printer with a text in front of all it has printed. -/
def after (front : String) (p : Printer) : Printer :=
  { p with text := front ++ p.text }

variable (front : String) (p : Printer)

@[simp] lemma after_text : (p.after front).text = front ++ p.text := rfl

@[simp] lemma write_after (text : String) :
    (p.after front).write text = (p.write text).after front := by
  simp [write, after, String.append_assoc]

@[simp] lemma toColumn_after (n : Nat) :
    (p.after front).toColumn n = (p.toColumn n).after front := by
  have hcolumn : (p.after front).column = p.column := rfl
  rw [toColumn, toColumn, hcolumn]
  split
  · simp [after, String.append_assoc]
  · rfl

@[simp] lemma newline_after : (p.after front).newline = p.newline.after front := by
  simp [newline, after, String.append_assoc]

@[simp] lemma writeAll_after (texts : List String) :
    (p.after front).writeAll texts = (p.writeAll texts).after front := by
  induction texts generalizing p with
  | nil => rfl
  | cons text texts ih =>
    have hcons : ∀ q : Printer, q.writeAll (text :: texts) = (q.write text).writeAll texts :=
      fun _ => rfl
    rw [hcons, hcons, write_after, ih]

lemma after_after (front' : String) :
    (p.after front).after front' = p.after (front' ++ front) := by
  simp [after, String.append_assoc]

/-- At the start of a line nothing but the text so far matters. -/
lemma newline_eq_after : p.newline = ({} : Printer).after (p.text ++ "\n") := by
  simp [newline, after]

end Printer

namespace Listing

variable (columns : Columns) (front : String) (p : Printer)

lemma writeRow_after (address : UInt16) (row : List UInt8) :
    writeRow columns address row (p.after front) =
      (writeRow columns address row p).after front := by
  simp [writeRow]

lemma writeRows_after (address : UInt16) (rows : List (List UInt8)) :
    writeRows columns address rows (p.after front) =
      (writeRows columns address rows p).after front := by
  induction rows generalizing address p with
  | nil => rfl
  | cons row rows ih => rw [writeRows, writeRows, Printer.newline_after, writeRow_after, ih]

lemma writeField_after (column : Nat) (field : Option String) :
    writeField column field (p.after front) = (writeField column field p).after front := by
  cases field <;> simp [writeField]

lemma writeLine_after (program : Program) (l : Line) :
    writeLine columns program l (p.after front) = (writeLine columns program l p).after front := by
  cases hword : shownWord program.symbols l with
  | none => simp only [writeLine, hword, writeField_after, writeRows_after]
  | some word => simp only [writeLine, hword, writeRow_after, writeField_after, writeRows_after]

lemma writeSource_after (line : List Char) :
    writeSource columns line (p.after front) = (writeSource columns line p).after front := by
  rw [writeSource, writeSource]
  split <;> simp

lemma writeSymbols_after (symbols : SymbolTable) :
    writeSymbols columns symbols (p.after front) =
      (writeSymbols columns symbols p).after front := by
  have hfold : ∀ (found : List Symbol) (q : Printer),
      found.foldl (fun p s => (((p.write s.name).toColumn columns.label).write
          (Text.hex 4 s.value)).newline) (q.after front) =
        (found.foldl (fun p s => (((p.write s.name).toColumn columns.label).write
          (Text.hex 4 s.value)).newline) q).after front := by
    intro found
    induction found with
    | nil => exact fun _ => rfl
    | cons s found ih => exact fun q => by simp [ih]
  rw [writeSymbols, writeSymbols]
  split
  · rfl
  · rw [Printer.newline_after, Printer.write_after, Printer.newline_after, hfold]

/-! ### Rows -/

/-- The row of a message about a line. -/
def messageRow (m : Message) : String :=
  "--> " ++ m.severity.name ++ ": " ++ m.location.text ++ " - " ++ m.text

/-- The rows of a physical line: those of its statement and bytes if it was accepted, otherwise the
line as it is. -/
def sourceRows (columns : Columns) (program : Program) (number : Nat) (line : List Char) : String :=
  (match lineAt? program.lines number with
  | some l => writeLine columns program l {}
  | none => writeSource columns line {}).text

/-- The rows of the symbols. -/
def symbolRows (columns : Columns) (symbols : SymbolTable) : String :=
  (writeSymbols columns symbols {}).text

/-- The rows of a physical line, with a row below them for each message about the line. -/
def lineRows (columns : Columns) (program : Program) (log : Log) (number : Nat)
    (line : List Char) : String :=
  sourceRows columns program number line ++ "\n" ++
    String.join ((log.onLine number).map (messageRow · ++ "\n"))

lemma writeMessages_eq {ms : List Message} (h : ∀ m ∈ ms, m.isGlobal = false) :
    writeMessages ms (({} : Printer).after front) =
      ({} : Printer).after (front ++ String.join (ms.map (messageRow · ++ "\n"))) := by
  induction ms generalizing front with
  | nil => simp [writeMessages]
  | cons m ms ih =>
    rw [List.forall_mem_cons] at h
    have hcons : ∀ q, writeMessages (m :: ms) q =
        writeMessages ms (q.write ("--> " ++ m.severity.name ++ ": " ++ m.shown)).newline :=
      fun _ => rfl
    have hshown : "--> " ++ m.severity.name ++ ": " ++ m.shown = messageRow m := by
      rw [Message.shown, if_neg (by simp [h.1])]
      simp [messageRow, String.append_assoc]
    rw [hcons, hshown, Printer.newline_eq_after, ih _ h.2, List.map_cons, String.join_cons]
    simp [Printer.write, String.append_assoc]

lemma writeSourceLine_eq {program : Program} {log : Log} (number : Nat) (line : List Char)
    (h : ∀ m ∈ log.messages.toList, m.isGlobal = false) :
    writeSourceLine columns program log number line (({} : Printer).after front) =
      ({} : Printer).after (front ++ lineRows columns program log number line) := by
  have hmessages : ∀ m ∈ log.onLine number, m.isGlobal = false :=
    fun m hm => h m (List.mem_filter.mp hm).1
  cases hfind : lineAt? program.lines number with
  | some l =>
    simp only [writeSourceLine, lineRows, sourceRows, hfind, writeLine_after]
    rw [Printer.newline_after, Printer.newline_eq_after, Printer.after_after,
      writeMessages_eq _ hmessages, String.append_assoc, String.append_assoc]
  | none =>
    simp only [writeSourceLine, lineRows, sourceRows, hfind, writeSource_after]
    rw [Printer.newline_after, Printer.newline_eq_after, Printer.after_after,
      writeMessages_eq _ hmessages, String.append_assoc, String.append_assoc]

lemma writeSourceLines_eq {program : Program} {log : Log} (number : Nat)
    (lines : List (List Char)) (h : ∀ m ∈ log.messages.toList, m.isGlobal = false) :
    writeSourceLines columns program log number lines (({} : Printer).after front) =
      ({} : Printer).after (front ++ String.join ((lines.zipIdx number).map
        fun numbered => lineRows columns program log numbered.2 numbered.1)) := by
  induction lines generalizing front number with
  | nil => simp [writeSourceLines]
  | cons line lines ih =>
    rw [writeSourceLines, writeSourceLine_eq columns front number line h, ih,
      List.zipIdx_cons, List.map_cons, String.join_cons, String.append_assoc]

/-- A listing of messages that all have places is made of the rows of the physical lines, and those
of the symbols. -/
lemma render_eq {program : Program} {log : Log} (source : String)
    (h : ∀ m ∈ log.messages.toList, m.isGlobal = false) :
    render columns source program log =
      String.join (((sourceLines source).zipIdx 1).map
        fun numbered => lineRows columns program log numbered.2 numbered.1) ++
      symbolRows columns program.symbols := by
  have hglobal : log.global = [] := by
    rw [Log.global, List.filter_eq_nil_iff]
    intro m hm
    simp [h m hm]
  have hlines := @writeSourceLines_eq columns "" program log 1 (sourceLines source) h
  have hstart : ({} : Printer).after "" = {} := rfl
  rw [hstart, String.empty_append] at hlines
  simp only [render, hlines, hglobal, writeMessages, List.foldl_nil, writeSymbols_after,
    Printer.after_text, symbolRows]

/-! ### Physical lines -/

variable {source : String}

lemma splitLines_line {line : List Char} (h : ∀ c ∈ line, Lexeme.onLine c = true)
    (rest : List Char) : splitLines (line ++ rest) =
      (line ++ (splitLines rest).1, (splitLines rest).2) := by
  induction line with
  | nil => rfl
  | cons c line ih =>
    rw [List.forall_mem_cons] at h
    have hne : c ≠ '\n' := by
      rintro rfl
      cases h.1
    simp only [List.cons_append, splitLines, ih h.2, if_neg hne]

/-- A listing splits a text into as many lines as it has, and if the text ends with a line break
the last of them is blank. -/
lemma length_splitLines (cs : List Char) (l : Location) (done : Bool) :
    (splitLines (normalizeBreaks cs)).2.length + 1 = (SourceLine.ofScanner ⟨cs, l, done⟩).length ∧
      (SourceLine.EndsLine (normalizeBreaks cs) →
        ∀ last ∈ (SourceLine.ofScanner ⟨cs, l, done⟩).getLast?, last.body = []) := by
  revert l
  refine lines_rec (P := fun cs => ∀ l,
    (splitLines (normalizeBreaks cs)).2.length + 1 =
        (SourceLine.ofScanner ⟨cs, l, done⟩).length ∧
      (SourceLine.EndsLine (normalizeBreaks cs) →
        ∀ last ∈ (SourceLine.ofScanner ⟨cs, l, done⟩).getLast?, last.body = [])) ?_ ?_ cs
  · intro line hline l
    have hnormal := normalizeBreaks_line hline []
    have hsplit := splitLines_line hline []
    rw [List.append_nil, normalizeBreaks, List.append_nil] at hnormal
    rw [List.append_nil] at hsplit
    rw [hnormal, hsplit, SourceLine.ofScanner_line hline]
    refine ⟨rfl, ?_⟩
    rintro hends last ⟨⟩
    -- A line that ends with a line break has nothing else.
    cases hlast : line.getLast? with
    | none =>
      obtain rfl := List.getLast?_eq_none_iff.mp hlast
      exact Scanner.tokens_of_rest_eq_nil rfl
    | some c => cases (hline c (List.mem_of_getLast? hlast)).symm.trans (hends c hlast)
  · intro line cs rest hline h ih l
    obtain ⟨hlength, hlast⟩ := ih ((line.foldl Location.advance l).breakLine cs.length)
    rw [normalizeBreaks_line hline, normalizeBreaks_break h, splitLines_line hline,
      SourceLine.ofScanner_break hline h]
    refine ⟨congrArg (· + 1) hlength, ?_⟩
    intro hends
    rw [← List.singleton_append] at hends
    have hrest := hlast hends.of_append.of_append
    rwa [SourceLine.ofScanner, List.getLast?_cons_cons]

/-- A listing leaves out no line that is not blank. -/
lemma lt_length_sourceLines {k : Nat} (hk : k < (SourceLine.ofText source).length)
    (hbody : (SourceLine.ofText source)[k].body ≠ []) : k < (sourceLines source).length := by
  obtain ⟨hlength, hlast⟩ := length_splitLines source.toList .start false
  change _ = (SourceLine.ofText source).length at hlength
  simp only [sourceLines]
  split
  · rename_i hnewline
    have hends : SourceLine.EndsLine (normalizeBreaks source.toList) := by
      rw [SourceLine.EndsLine, hnewline]
      rintro c ⟨⟩
      rfl
    have hne : k ≠ (SourceLine.ofText source).length - 1 := by
      rintro rfl
      refine hbody (hlast hends _ ?_)
      rw [List.getLast?_eq_getElem?]
      exact List.getElem?_eq_getElem hk
    rw [List.length_dropLast, List.length_cons]
    omega
  · rw [List.length_cons]
    omega

/-- The messages about the first lines, one line after the other. -/
lemma perm_onLine (log : Log) (n : Nat) :
    ((List.range' 1 n).flatMap log.onLine).Perm
      (log.messages.toList.filter fun m => 1 ≤ m.location.line ∧ m.location.line ≤ n) := by
  induction n with
  | zero =>
    rw [List.filter_eq_nil_iff.mpr]
    · exact .refl _
    · intro m _ h
      have hbounds := of_decide_eq_true h
      omega
  | succ n ih =>
    rw [List.range'_1_concat, List.flatMap_append, List.flatMap_singleton]
    refine (ih.append_right _).trans ?_
    have hsplit := List.filter_append_perm (fun m : Message => m.location.line ≤ n)
      (log.messages.toList.filter fun m => 1 ≤ m.location.line ∧ m.location.line ≤ n + 1)
    rw [List.filter_filter, List.filter_filter] at hsplit
    refine (List.Perm.of_eq ?_).trans hsplit
    congr 1
    · refine List.filter_congr fun m _ => ?_
      grind
    · refine List.filter_congr fun m _ => ?_
      grind

/-- The message has its place on a physical line of the source. -/
lemma bounds_of_has {location : Location} (h : SourceLine.Has source location) :
    1 ≤ location.line ∧ location.line ≤ (sourceLines source).length := by
  obtain ⟨line, hline, hbody, t, ht, rfl⟩ := h
  obtain ⟨k, hk, rfl⟩ := List.mem_iff_getElem.mp hline
  have hlt := lt_length_sourceLines hk hbody
  rw [(SourceLine.divide_ofText source).line_getElem hk t ht]
  omega

lemma oneRow_messageRow {m : Message} (h : Text.OneRow m.text) : Text.OneRow (messageRow m) := by
  have hseverity : Text.OneRow m.severity.name := by
    cases m.severity <;> decide
  have hlocation : Text.OneRow m.location.text :=
    ((Text.oneRow_nat _).append (by decide)).append (Text.oneRow_nat _)
  have hmark := Text.OneRow.append (s := "--> ") (by decide) hseverity
  exact (((hmark.append (by decide)).append hlocation).append (by decide)).append h

end Listing

/-- Every message about a source has the place of a token of the source, so it is never about the
unit as a whole, and it fits on one row. A listing shows the physical lines of the source in their
order. Below the rows of each line is a row for each message about that line, in the order of
their report, and together these are all messages, each of them once. -/
theorem messages_located_and_listed_once (cpu : Cpu) (moduleName source : String)
    (columns : Columns) :
    let program := (assemble cpu moduleName source).1
    let log := (assemble cpu moduleName source).2
    (∀ m ∈ log.messages.toList,
      (∃ t ∈ (Scanner.ofText source).allTokens, m.location = t.location) ∧
        m.location ≠ .none ∧ '\n' ∉ (Listing.messageRow m).toList) ∧
    Listing.render columns source program log =
      String.join (((Listing.sourceLines source).zipIdx 1).map fun (line, number) =>
        Listing.sourceRows columns program number line ++ "\n" ++
          String.join ((log.onLine number).map (Listing.messageRow · ++ "\n"))) ++
      Listing.symbolRows columns program.symbols ∧
    ((List.range' 1 (Listing.sourceLines source).length).flatMap log.onLine).Perm
      log.messages.toList := by
  intro program log
  have hwithin : log.Within (SourceLine.Has source) := within_assemble cpu moduleName source
  have hbounds := fun m hm => Listing.bounds_of_has (hwithin m hm).1
  have hplaced : ∀ m ∈ log.messages.toList, m.isGlobal = false :=
    fun m hm => Location.isNone_of_pos (hbounds m hm).1
  refine ⟨?_, Listing.render_eq columns source hplaced, ?_⟩
  · intro m hm
    obtain ⟨⟨line, hline, -, t, ht, hlocation⟩, hrow⟩ := hwithin m hm
    refine ⟨⟨t, ?_, hlocation⟩, ?_, Listing.oneRow_messageRow hrow⟩
    · rw [← (SourceLine.divide_ofText source).tokens]
      exact List.mem_flatMap.mpr ⟨line, hline, ht⟩
    · intro hnone
      have hpos := (hbounds m hm).1
      rw [hnone] at hpos
      exact absurd hpos (by decide)
  · have hperm := Listing.perm_onLine log (Listing.sourceLines source).length
    rw [List.filter_eq_self.mpr] at hperm
    · exact hperm
    · exact fun m hm => decide_eq_true (hbounds m hm)

end MicroAsm
