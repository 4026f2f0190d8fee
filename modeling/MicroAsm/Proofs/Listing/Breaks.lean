import MicroAsm.Proofs.Listing.Assignments
import MicroAsm.Proofs.Listing.Printing
import MicroAsm.Proofs.Tree.Texts

/-!
# Line breaks in a listing

The labels, statements and comments that a listing shows are made of tokens, and so are the names of
the symbols. A token stays on its line, and a line that was not accepted is shown without its line
break. So no row of a listing has a line break in it: the rows are the lines of the listing.
-/

namespace MicroAsm

/-! ### Texts -/

namespace Text

lemma oneRow_empty : OneRow "" := by
  decide

lemma oneRow_join {texts : List String} (h : ∀ text ∈ texts, OneRow text) :
    OneRow (String.join texts) := by
  induction texts with
  | nil => exact oneRow_empty
  | cons text texts ih =>
    rw [List.forall_mem_cons] at h
    rw [String.join_cons]
    exact h.1.append (ih h.2)

lemma oneRow_intercalate {separator : String} (hseparator : OneRow separator)
    {texts : List String} (h : ∀ text ∈ texts, OneRow text) :
    OneRow (separator.intercalate texts) := by
  induction texts with
  | nil =>
    rw [String.intercalate_nil]
    exact oneRow_empty
  | cons text texts ih =>
    rw [List.forall_mem_cons] at h
    cases texts with
    | nil =>
      rw [String.intercalate_singleton]
      exact h.1
    | cons text' texts =>
      rw [String.intercalate_cons_cons]
      exact (h.1.append hseparator).append (ih h.2)

lemma oneRow_blanks (n : Nat) : OneRow (String.ofList (List.replicate n ' ')) := by
  intro h
  rw [String.toList_ofList, List.mem_replicate] at h
  cases h.2

lemma mem_of_mem_trim {c : Char} {cs : List Char} (h : c ∈ trim cs) : c ∈ cs := by
  rw [trim, List.mem_reverse] at h
  have hinner := (List.dropWhile_sublist _).subset h
  rw [List.mem_reverse] at hinner
  exact (List.dropWhile_sublist _).subset hinner

end Text

namespace Printer

variable {p : Printer}

lemma oneRow_write (h : Text.OneRow p.text) {text : String} (htext : Text.OneRow text) :
    Text.OneRow (p.write text).text :=
  h.append htext

lemma oneRow_toColumn (h : Text.OneRow p.text) (n : Nat) : Text.OneRow (p.toColumn n).text := by
  rw [toColumn]
  split
  · exact h.append (Text.oneRow_blanks _)
  · exact h

lemma oneRow_writeField (h : Text.OneRow p.text) (column : Nat) {field : Option String}
    (hfield : ∀ text ∈ field, Text.OneRow text) :
    Text.OneRow (Listing.writeField column field p).text := by
  cases field with
  | none => exact h
  | some text => exact oneRow_write (oneRow_toColumn h column) (hfield text rfl)

end Printer

/-! ### Statements -/

lemma NodeKind.oneRow_name (kind : NodeKind) : Text.OneRow kind.name := by
  rw [name.eq_def]
  split <;> decide

lemma Node.oneRow_statementText {head : Node} {operands : List Node}
    (hhead : Text.OneRow head.text) (h : ∀ n ∈ operands, Text.OneRow n.text) :
    Text.OneRow (head.statementText operands) := by
  have hblank : Text.OneRow " " := by decide
  have htexts : ∀ text ∈ (operands.map Node.text).filter (! ·.isEmpty), Text.OneRow text := by
    intro text htext
    obtain ⟨n, hn, rfl⟩ := List.mem_map.mp (List.mem_filter.mp htext).1
    exact h n hn
  rw [statementText]
  split
  · decide
  · exact ((NodeKind.oneRow_name _).append hblank).append hhead
  · have hname : Text.OneRow (if head.kind = .opcode then head.text else head.kind.name) := by
      split
      · exact hhead
      · exact NodeKind.oneRow_name _
    simp only
    split
    · exact hname
    · exact (hname.append hblank).append (Text.oneRow_intercalate (by decide) htexts)

lemma Token.oneRow_glue {ts : List Token} (h : ∀ t ∈ ts, Text.OneRow t.value) :
    Text.OneRow (glue ts) :=
  Text.oneRow_join (List.forall_mem_map.mpr h)

/-- What tokens of one row write is on one row. -/
lemma Token.WritesAll.oneRow {ts : List Token} {texts : List String} (h : WritesAll ts texts)
    (hts : ∀ t ∈ ts, Text.OneRow t.value) : ∀ text ∈ texts, Text.OneRow text := by
  induction h with
  | nil => exact List.forall_mem_nil _
  | last h =>
    rw [List.forall_mem_singleton, ← h.glue_eq]
    exact oneRow_glue hts
  | cons h _ _ _ ih =>
    rw [List.forall_mem_append, List.forall_mem_cons] at hts
    rw [List.forall_mem_cons, ← h.glue_eq]
    exact ⟨oneRow_glue hts.1, ih hts.2.2⟩

/-- The operands of a statement that was read are on one row. -/
lemma SourceLine.oneRow_operandTexts {cpu : Cpu} {line : SourceLine}
    {label comment : Option Token} {s : Statement} (hline : ∀ t ∈ line.body, t.Rescans)
    (hrow : ∀ t ∈ line.body, Text.OneRow t.value)
    (h : line.read cpu = .accepted label s comment) : ∀ text ∈ s.operandTexts, Text.OneRow text := by
  by_cases hempty : s.isEmpty = true
  · cases s with
    | empty location => exact List.forall_mem_nil _
    | _ => cases hempty
  · rw [Bool.not_eq_true] at hempty
    obtain ⟨t, ts, hbody, -, hstatement, -, -⟩ := hasTokens_of_read hline h hempty
    refine hstatement.operands.oneRow fun u hu => hrow u ?_
    refine (Reader.readLabel_suffix line.body).subset ?_
    rw [hbody]
    exact List.mem_append_left _ (List.mem_cons_of_mem _ hu)

lemma oneRow_stringEmission (t : Token) {text : String} (htext : Text.OneRow text)
    (cs : List Char) : ∀ o ∈ (stringEmission t text cs).operands, Text.OneRow o.node.text := by
  induction cs generalizing text with
  | nil => exact List.forall_mem_nil _
  | cons c cs ih =>
    rw [stringEmission, List.forall_mem_cons]
    exact ⟨htext, ih (by decide)⟩

lemma Item.oneRow_emissions (symbols : SymbolTable) (here : UInt16) (width : Width) (offset : Nat)
    {items : List Item} (h : ∀ item ∈ items, Text.OneRow item.text) :
    ∀ o ∈ (Item.emissions symbols here width offset items).operands, Text.OneRow o.node.text := by
  induction items generalizing offset with
  | nil => exact List.forall_mem_nil _
  | cons item items ih =>
    rw [List.forall_mem_cons] at h
    rw [emissions, List.forall_mem_append]
    refine ⟨?_, ih _ h.2⟩
    cases item with
    | string t => exact oneRow_stringEmission t h.1 _
    | value v =>
      rw [emission, List.forall_mem_singleton, v.text_settle]
      exact h.1

namespace Assembly

variable {a : Assembly} {label comment : Option Token} {location : Location}

lemma oneRow_statement_lineOf {S : Location → Prop} {s : Statement} (h : s.Within S) :
    Text.OneRow (a.lineOf location label s comment).statement.text := by
  have hkeywords : ∀ text ∈ ["", "END", "ORG", "EQU", "SET", "DB", "DW"], Text.OneRow text := by
    decide
  cases s with
  | empty location' => exact hkeywords "" (by decide)
  | cpu location' name => exact h.2
  | endUnit location' => exact hkeywords "END" (by decide)
  | org location' v => exact hkeywords "ORG" (by decide)
  | assign how location' v => exact hkeywords how.keyword (by cases how <;> decide)
  | data width location' items =>
    cases width with
    | byte => exact hkeywords "DB" (by decide)
    | word => exact hkeywords "DW" (by decide)
  | instruction i location' arguments => exact h.1

/-- The operands that are kept of a line have the texts of its statement, or none. -/
lemma oneRow_operands_lineOf {s : Statement} (h : ∀ text ∈ s.operandTexts, Text.OneRow text) :
    ∀ n ∈ (a.lineOf location label s comment).operandNodes, Text.OneRow n.text := by
  rw [Line.operandNodes, List.forall_mem_map]
  cases s with
  | empty location' | endUnit location' | cpu location' name => exact List.forall_mem_nil _
  | org location' v | assign how location' v =>
    exact List.forall_mem_singleton.mpr (h v.text List.mem_cons_self)
  | data width location' items =>
    rw [Statement.operandTexts, List.forall_mem_map] at h
    exact Item.oneRow_emissions _ _ width 0 h
  | instruction i location' arguments =>
    rw [Statement.operandTexts, List.forall_mem_map] at h
    intro o ho
    have htexts := i.nodeTexts_emission location' (arguments.map (Argument.settle
      (a.defineLabel label a.code.locationCounter).symbols a.code.locationCounter))
    have hmem : o.node.text ∈ nodeTexts (a.lineOf location label
        (.instruction i location' arguments) comment).operands := List.mem_map_of_mem ho
    rw [lineOf, execute, htexts, List.mem_map] at hmem
    obtain ⟨settled, hsettled, htext⟩ := hmem
    obtain ⟨x, hx, rfl⟩ := List.mem_map.mp hsettled
    rw [← htext, x.text_settle]
    exact h x hx

end Assembly

/-! ### Names of symbols -/

namespace SymbolTable

variable {t t' : SymbolTable} {name : String} {value : UInt16}

/-- The names of all symbols are on one row. -/
def OneRow (t : SymbolTable) : Prop :=
  ∀ s ∈ t.toList, Text.OneRow s.name

lemma OneRow.insert (h : t.OneRow) {symbol : Symbol} (hname : Text.OneRow symbol.name) :
    (t.insert symbol).OneRow := by
  intro s hs
  obtain ⟨entry, hentry, rfl⟩ := List.mem_map.mp hs
  rcases mem_place entry hentry with rfl | hold
  · exact hname
  · exact h _ (List.mem_map_of_mem hold)

lemma mem_of_get? {symbol : Symbol} (h : t.get? name = some symbol) : symbol ∈ t.toList := by
  obtain ⟨front, back, hentries, -⟩ := List.lookup_eq_some_iff.mp h
  rw [toList, hentries]
  simp

lemma OneRow.of_add (h : t.OneRow) (hname : Text.OneRow name) {kind : SymbolKind}
    (hadd : t.add name value kind = .ok t') : t'.OneRow := by
  obtain ⟨-, rfl⟩ := add_eq_ok hadd
  exact h.insert hname

/-- A variable that gets another value keeps its name. -/
lemma OneRow.of_assign (h : t.OneRow) (hname : Text.OneRow name)
    (hassign : t.assign name value = .ok t') : t'.OneRow := by
  rw [assign] at hassign
  split at hassign
  · rename_i symbol hsymbol
    split at hassign
    · cases hassign
      exact h.insert (h symbol (mem_of_get? hsymbol))
    · cases hassign
  · cases hassign
    exact h.insert hname

end SymbolTable

namespace Layout

variable {y : Layout} {label : Option Token}

lemma oneRow_withSymbols (h : y.symbols.OneRow) {result : Except SymbolError SymbolTable}
    (hresult : ∀ t, result = .ok t → t.OneRow) : (y.withSymbols result).symbols.OneRow := by
  cases result with
  | ok t => exact hresult t rfl
  | error e => exact h

section

variable (h : y.symbols.OneRow) (hlabel : ∀ t ∈ label, Text.OneRow t.value)

include h hlabel

lemma oneRow_define (value : UInt16) : (y.define label value).symbols.OneRow := by
  cases label with
  | none => exact h
  | some t => exact oneRow_withSymbols h fun _ => h.of_add (hlabel t rfl)

lemma oneRow_assign (how : Assignment) (value : Option UInt16) :
    (y.assign how label value).symbols.OneRow := by
  cases label with
  | none => exact h
  | some t =>
    cases value with
    | none => exact h
    | some v =>
      cases how with
      | equ => exact oneRow_withSymbols h fun _ => h.of_add (hlabel t rfl)
      | set => exact oneRow_withSymbols h fun _ => h.of_assign (hlabel t rfl)

lemma oneRow_execute (statement : Statement) : (y.execute label statement).symbols.OneRow := by
  cases statement with
  | org location origin =>
    simp only [execute]
    cases (origin.evaluate y.symbols y.here).1 with
    | none => exact oneRow_define h hlabel _
    | some target => exact oneRow_define (y := y.moveTo target) h hlabel _
  | assign how location v => exact oneRow_assign h hlabel how _
  | _ => exact oneRow_define h hlabel _

lemma oneRow_examine (fragment : Fragment) : (y.examine label fragment).symbols.OneRow := by
  cases fragment with
  | org location | assign how location => exact h
  | _ => exact oneRow_define h hlabel _

end

/-- A line names symbols by its label only. -/
lemma oneRow_step (h : y.symbols.OneRow) {line : SourceLine}
    (hline : line.Within fun _ => True) : (y.step line).symbols.OneRow := by
  have hread := hline.read y.cpu
  rw [step]
  cases heq : line.read y.cpu with
  | accepted label statement comment =>
    rw [heq] at hread
    exact oneRow_execute h (fun t ht => (hread.1 t ht).2) statement
  | rejected label fragment failure =>
    rw [heq] at hread
    exact oneRow_examine h (fun t ht => (hread.1 t ht).2) fragment

end Layout

/-- The symbols of lines are named by tokens of these lines. -/
lemma Assembly.oneRow_steps {a : Assembly} (h : a.symbols.OneRow) {lines : List SourceLine}
    (hlines : ∀ line ∈ lines, line.Within fun _ => True) : (a.steps lines).symbols.OneRow := by
  induction lines generalizing a with
  | nil => exact h
  | cons line lines ih =>
    rw [List.forall_mem_cons] at hlines
    have hlayout := a.layout_step line
    have hstep : (a.step line).layout.symbols.OneRow := by
      rw [hlayout]
      exact Layout.oneRow_step h hlines.1
    exact ih hstep hlines.2

/-! ### Lines of a source -/

namespace SourceLine

variable {source : String} {line : SourceLine}

/-- The tokens of a line of a source stay on the line. -/
lemma stays_of_mem (h : line ∈ ofText source) : line.Within fun _ => True := by
  refine ⟨fun t ht => ⟨trivial, ?_⟩, trivial, (divide_ofText source).endsLine_stop line h⟩
  exact ((within_of_mem h (List.ne_nil_of_mem ht)).body t ht).2

lemma Within.comment_of_read {S : Location → Prop} (h : line.Within S) {cpu : Cpu}
    {label comment : Option Token} {s : Statement}
    (hread : line.read cpu = .accepted label s comment) : ∀ c ∈ comment, c.Word S := by
  have hts : ∀ t ∈ (Reader.readLabel line.body).2, t.Word S :=
    fun t ht => h.body t ((Reader.readLabel_suffix line.body).subset ht)
  have hstatement := Reader.reads_readStatement cpu h.stop hts
  simp only [SourceLine.read] at hread
  split at hread
  · cases hread
  · cases hread
    rintro c ⟨⟩
  · rename_i hok
    cases hread
    intro c hc
    cases hc
    exact (hstatement.of_ok hok).2 _ List.mem_cons_self
  · cases hread

end SourceLine

namespace Listing

/-- A text is split at its line breaks. -/
lemma newline_not_mem_splitLines (cs : List Char) :
    '\n' ∉ (splitLines cs).1 ∧ ∀ line ∈ (splitLines cs).2, '\n' ∉ line := by
  induction cs with
  | nil => exact ⟨List.not_mem_nil, List.forall_mem_nil _⟩
  | cons c cs ih =>
    simp only [splitLines]
    split
    · exact ⟨List.not_mem_nil, List.forall_mem_cons.mpr ih⟩
    · rename_i hne
      refine ⟨fun hmem => ?_, ih.2⟩
      rcases List.mem_cons.mp hmem with heq | hmem
      · exact hne heq.symm
      · exact ih.1 hmem

lemma newline_not_mem_sourceLines (source : String) :
    ∀ line ∈ sourceLines source, '\n' ∉ line := by
  obtain ⟨hfirst, hrest⟩ := newline_not_mem_splitLines (normalizeBreaks source.toList)
  have hall : ∀ line ∈ (splitLines (normalizeBreaks source.toList)).1 ::
      (splitLines (normalizeBreaks source.toList)).2, '\n' ∉ line :=
    List.forall_mem_cons.mpr ⟨hfirst, hrest⟩
  simp only [sourceLines]
  split
  · exact fun line hline => hall line ((List.dropLast_sublist _).subset hline)
  · exact hall

variable (columns : Columns)

/-! ### Rows -/

/-- The texts of a line that a listing shows are on one row. -/
structure OnRow (l : Line) : Prop where
  label : ∀ n ∈ l.label, Text.OneRow n.text
  statement : Text.OneRow l.statementText
  comment : ∀ n ∈ l.comment, Text.OneRow n.text

variable {columns} {l : Line} {program : Program} {log : Log}

lemma Row.oneRow_text {r : Row} (h : Text.OneRow r.rest) : Text.OneRow (r.text columns) := by
  have hbytes : ∀ text ∈ r.bytes.map fun b => " " ++ Text.hexByte b, Text.OneRow text := by
    rw [List.forall_mem_map]
    exact fun b _ => Text.OneRow.append (s := " ") (by decide) (Text.oneRow_hex 2 _)
  refine Text.OneRow.append (Text.OneRow.append ?_ (Text.oneRow_join hbytes)) h
  split
  · exact (Text.oneRow_blanks _).append (Text.oneRow_hex 4 _)
  · exact Text.oneRow_empty

lemma OnRow.writeFields (h : OnRow l) {p : Printer} (hp : Text.OneRow p.text) :
    Text.OneRow (writeFields columns l p).text := by
  refine Printer.oneRow_writeField (Printer.oneRow_writeField (Printer.oneRow_writeField hp _ ?_)
    _ ?_) _ ?_
  · intro text htext
    obtain ⟨n, hn, rfl⟩ := Option.mem_map.mp htext
    exact (h.label n hn).append (by decide)
  · intro text htext
    split at htext
    · cases htext
    · cases htext
      exact h.statement
  · intro text htext
    obtain ⟨n, hn, rfl⟩ := Option.mem_map.mp htext
    exact Text.OneRow.append (s := ";") (by decide) (h.comment n hn)

lemma oneRow_byteRows (address : UInt16) (rs : List (List UInt8)) :
    ∀ r ∈ byteRows address rs, Text.OneRow r.rest := by
  induction rs generalizing address with
  | nil => exact List.forall_mem_nil _
  | cons row rs ih =>
    rw [byteRows, List.forall_mem_cons]
    exact ⟨Text.oneRow_empty, ih _⟩

lemma OnRow.statementRows (h : OnRow l) :
    ∀ r ∈ statementRows columns program l, Text.OneRow r.rest := by
  have hfields : ∀ r : Row, Text.OneRow (r.withFields columns l).rest :=
    fun r => h.writeFields Text.oneRow_empty
  rw [Listing.statementRows]
  split <;> exact List.forall_mem_cons.mpr ⟨hfields _, oneRow_byteRows _ _⟩

lemma oneRow_writeSource {line : List Char} (h : '\n' ∉ line) :
    Text.OneRow (writeSource columns line {}).text := by
  rw [writeSource]
  split
  · decide
  · refine Printer.oneRow_write (Printer.oneRow_toColumn (by decide) _) ?_
    rw [Text.OneRow, String.toList_ofList]
    exact fun hmem => h (Text.mem_of_mem_trim hmem)

lemma oneRow_physicalRows (hlines : ∀ l ∈ program.lines, OnRow l)
    (hlog : ∀ m ∈ log.messages.toList, Text.OneRow m.text) (number : Nat) {line : List Char}
    (hline : '\n' ∉ line) :
    ∀ r ∈ physicalRows columns program log number line, Text.OneRow r.rest := by
  rw [physicalRows, List.forall_mem_append, List.forall_mem_map]
  constructor
  · split
    · rename_i l hl
      exact (hlines l (location_of_lineAt? hl).1).statementRows
    · exact List.forall_mem_singleton.mpr (oneRow_writeSource hline)
  · intro m hm
    exact oneRow_messageRow (hlog m (List.mem_filter.mp hm).1)

lemma oneRow_symbolTableRows {symbols : SymbolTable} (h : symbols.OneRow) :
    ∀ r ∈ symbolTableRows columns symbols, Text.OneRow r.rest := by
  rw [symbolTableRows]
  split
  · exact List.forall_mem_nil _
  · rw [List.forall_mem_cons, List.forall_mem_cons, List.forall_mem_map]
    refine ⟨by decide, by decide, fun s hs => ?_⟩
    exact Printer.oneRow_write (Printer.oneRow_toColumn
      (Printer.oneRow_write (by decide) (h s hs)) _) (Text.oneRow_hex 4 _)

end Listing

section

variable {cpu : Cpu} {moduleName source : String}

/-- The texts of an accepted line come from tokens of one physical line. -/
lemma onRow_of_mem_lines {l : Line} (h : l ∈ (assemble cpu moduleName source).1.lines) :
    Listing.OnRow l := by
  obtain ⟨before, line, after, hsplit, -, -, first, label, statement, comment, kept, hkeeps, rfl⟩ :=
    exists_keeps_of_mem_lines h
  have hmem := Assembly.mem_of_mem_unitLines
    (hsplit ▸ List.mem_append_right before List.mem_cons_self)
  have hwithin := SourceLine.stays_of_mem hmem
  have hread := hwithin.read (({ cpu } : Assembly).steps before).cpu
  rw [hkeeps.hread] at hread
  have hoperands := SourceLine.oneRow_operandTexts (SourceLine.rescans_of_mem hmem)
    (fun t ht => (hwithin.body t ht).2) hkeeps.hread
  rw [hkeeps.hline]
  refine ⟨?_, ?_, ?_⟩
  · intro n hn
    obtain ⟨t, ht, rfl⟩ := Option.mem_map.mp hn
    exact (hread.1 t ht).2
  · rw [Line.statementText_resolved]
    exact Node.oneRow_statementText (Assembly.oneRow_statement_lineOf hread.2)
      (Assembly.oneRow_operands_lineOf hoperands)
  · intro n hn
    obtain ⟨t, ht, rfl⟩ := Option.mem_map.mp hn
    exact (hwithin.comment_of_read hkeeps.hread t ht).2

lemma oneRow_symbols_assemble : (assemble cpu moduleName source).1.symbols.OneRow := by
  obtain ⟨rest, hfinish, -⟩ := assemble_eq_unitLines cpu moduleName source
  have hlines : ∀ line ∈ unitLines cpu (SourceLine.ofText source), line.Within fun _ => True :=
    fun line hline => SourceLine.stays_of_mem (Assembly.mem_of_mem_unitLines hline)
  have hsteps := Assembly.oneRow_steps (a := { cpu }) (List.forall_mem_nil _) hlines
  rw [hfinish, Assembly.finish_eq]
  rwa [← (Assembly.warnAfterEnd_frame _ rest).2.1] at hsteps

/-- No row of a listing has a line break in it. -/
lemma oneRow_allRows (columns : Columns) :
    let program := (assemble cpu moduleName source).1
    let log := (assemble cpu moduleName source).2
    ∀ r ∈ Listing.allRows columns source program log, Text.OneRow (r.text columns) := by
  intro program log r hr
  refine Listing.Row.oneRow_text ?_
  revert r
  have hlog : ∀ m ∈ log.messages.toList, Text.OneRow m.text :=
    fun m hm => (within_assemble cpu moduleName source m hm).2
  rw [Listing.allRows, List.forall_mem_append]
  refine ⟨?_, Listing.oneRow_symbolTableRows oneRow_symbols_assemble⟩
  intro r hr
  obtain ⟨⟨line, number⟩, hnumbered, hr⟩ := List.mem_flatMap.mp hr
  have hline := Listing.newline_not_mem_sourceLines source line
    (List.fst_mem_of_mem_zipIdx hnumbered)
  exact Listing.oneRow_physicalRows (fun _ => onRow_of_mem_lines) hlog number hline r hr

end

end MicroAsm
