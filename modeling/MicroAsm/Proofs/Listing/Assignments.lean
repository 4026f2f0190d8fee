import MicroAsm.Proofs.Assembly.Accounting
import MicroAsm.Proofs.Assembly.Addresses
import MicroAsm.Proofs.Assembly.Agreement
import MicroAsm.Proofs.Expr
import MicroAsm.Proofs.Listing.Rows

/-!
# Assignments in a listing

A listing shows a word in the address column of an EQU or a SET. If the expression is one number,
one symbol or the location counter, the word was kept since the line was taken, and it is the value
that the line gave to its symbol. The value of any other expression is found anew, with the symbols
as they are at the end. So it is the value from then only as long as no variable in the expression
makes a difference.
-/

namespace MicroAsm

/-! ### Values -/

namespace SymbolTable

variable {t t' : SymbolTable} {name : String} {value : UInt16}

lemma value?_of_add {kind : SymbolKind} (h : t.add name value kind = .ok t') :
    t'.value? name = some value := by
  obtain ⟨-, rfl⟩ := add_eq_ok h
  rw [value?, get?_insert, if_pos rfl, Option.map_some]

lemma value?_of_assign (hkeyed : t.Keyed) (h : t.assign name value = .ok t') :
    t'.value? name = some value := by
  rw [assign] at h
  split at h
  · rename_i symbol hsymbol
    split at h
    · cases h
      rw [value?, get?_insert, if_pos (hkeyed name symbol hsymbol).symm, Option.map_some]
    · cases h
  · cases h
    rw [value?, get?_insert, if_pos rfl, Option.map_some]

end SymbolTable

/-- The expression is one number, one character, one symbol or the location counter. -/
def Expr.isSingle (e : Expr) : Bool :=
  e.literal?.isSome || e.isLocationCounter || e.symbol?.isSome

lemma Value.evaluate_of_isLocationCounter {v : Value} (h : v.expr.isLocationCounter = true)
    (symbols : SymbolTable) (here : UInt16) : v.evaluate symbols here = (some here, []) := by
  have hhere := here.toNat_lt
  rw [Value.evaluate, Expr.eval_of_isLocationCounter h]
  simp only [@fits_toNat 16 here hhere, if_true, wordOfInt_toNat]

lemma Expr.nodeKind_word (e : Expr) (here value : UInt16) :
    e.nodeKind here .word (some value) =
      if e.literal?.isSome then .data16 value
      else if e.isLocationCounter then .locationCounter here
      else if e.symbol?.isSome then .refData (some value)
      else .expression e := rfl

/-- What a listing shows of an assignment whose operand was made on a line with the address
`here`. -/
lemma Listing.assignedValue_eq {l : Line} {v : Value} {symbols last : SymbolTable}
    {here value : UInt16} (hoperands : l.operands = [{ node := v.node here .word (some value) }])
    (haddress : l.place.address = here) (hvalue : v.evaluate symbols here = (some value, [])) :
    assignedValue last l =
      if v.expr.isSingle then some value else (v.evaluate last here).1 := by
  have hkind : l.operandNodes.head?.map Node.kind =
      some (v.expr.nodeKind here .word (some value)) := by
    rw [Line.operandNodes, hoperands]
    rfl
  rw [assignedValue, hkind, Expr.nodeKind_word, Expr.isSingle]
  by_cases hliteral : v.expr.literal?.isSome = true
  · simp [hliteral]
  · by_cases hcounter : v.expr.isLocationCounter = true
    · rw [Value.evaluate_of_isLocationCounter hcounter] at hvalue
      cases hvalue
      simp [hliteral, hcounter]
    · by_cases hsymbol : v.expr.symbol?.isSome = true
      · simp [hliteral, hcounter, hsymbol]
      · simp only [hliteral, hcounter, hsymbol, haddress, Value.evaluate]
        cases heval : v.expr.eval last here with
        | error name => simp [heval]
        | ok n => by_cases hfits : fits 16 n = true <;> simp [heval, hfits]

namespace Assembly

variable {a : Assembly}

/-! ### Lines that were kept -/

/-- The line was accepted in this state, and this is kept of it. -/
structure Keeps (a : Assembly) (line : SourceLine) (first : Token) (label : Option Token)
    (statement : Statement) (comment : Option Token) (l : Line) : Prop where
  hfirst : line.body.head? = some first
  hread : line.read a.cpu = .accepted label statement comment
  hstep : a.step line = a.accept first.location label statement comment
  hline : l = a.lineOf first.location label statement comment

/-- Every line that is kept comes from a physical line. -/
lemma exists_of_mem_lines {cpu : Cpu} {lines : List SourceLine} {l : Line}
    (h : l ∈ (({ cpu } : Assembly).steps lines).lines) :
    ∃ before line after, lines = before ++ line :: after ∧
      ∃ first label statement comment,
        (({ cpu } : Assembly).steps before).Keeps line first label statement comment l := by
  induction lines using List.reverseRecOn with
  | nil => simp [Assembly.lines] at h
  | append_singleton lines line ih =>
    have hcases : l ∈ (({ cpu } : Assembly).steps lines).lines ∨
        ∃ first label statement comment,
          (({ cpu } : Assembly).steps lines).Keeps line first label statement comment l := by
      rw [steps_concat] at h
      rcases (({ cpu } : Assembly).steps lines).step_eq_cases line with
        ⟨-, heq⟩ | ⟨first, label, statement, comment, hfirst, hread, heq⟩ |
          ⟨first, label, fragment, failure, -, -, heq⟩
      · rw [heq] at h
        exact Or.inl h
      · rw [heq, lines_accept, List.mem_append, List.mem_singleton] at h
        exact h.imp_right fun hl => ⟨first, label, statement, comment, hfirst, hread, heq, hl⟩
      · rw [heq] at h
        exact Or.inl (by simpa [Assembly.lines, Record.line?] using h)
    rcases hcases with hl | hkeeps
    · obtain ⟨before, line', after, heq, hkeeps⟩ := ih hl
      exact ⟨before, line', after ++ [line], by rw [heq, List.append_assoc]; rfl, hkeeps⟩
    · exact ⟨lines, line, [], rfl, hkeeps⟩

/-- An assignment without an error has a label and a value, and gives the value to the label. -/
lemma value?_execute_assign {how : Assignment} {location : Location} {label : Option Token}
    {v : Value} (hkeyed : a.symbols.Keyed) {here : UInt16}
    (h : (a.execute here label (.assign how location v)).1.log.errors = a.log.errors) :
    ∃ t value, label = some t ∧ v.evaluate a.symbols here = (some value, []) ∧
      (a.execute here label (.assign how location v)).1.symbols.value? t.value = some value := by
  rcases evaluate_cases v a.symbols here with ⟨value, hvalue⟩ | ⟨ms, hvalue, hms⟩
  · simp only [execute, hvalue, report_nil] at h ⊢
    cases label with
    | none =>
      rw [assign, errors_error] at h
      omega
    | some t =>
      refine ⟨t, value, rfl, rfl, ?_⟩
      cases how with
      | equ => exact SymbolTable.value?_of_add (a.ok_of_withSymbols h)
      | set => exact SymbolTable.value?_of_assign hkeyed (a.ok_of_withSymbols h)
  · have hle := errors_le_assign (a.report ms) how location label none
    simp only [execute, hvalue] at h
    rw [errors_report] at hle
    omega

/-- What is kept of an assignment with a value. -/
lemma lineOf_assign {how : Assignment} {location location' : Location}
    {label comment : Option Token} {v : Value} {value : UInt16}
    (h : v.evaluate a.symbols a.code.locationCounter = (some value, [])) :
    let l := a.lineOf location' label (.assign how location v) comment
    l.operands = [{ node := v.node a.code.locationCounter .word (some value) }] ∧
      l.place.address = a.code.locationCounter ∧ l.statement.kind = how.nodeKind := by
  intro l
  refine ⟨?_, ?_, rfl⟩
  · simp only [l, lineOf, execute, h]
  · have hkind : how.nodeKind ≠ .org := by
      cases how <;> decide
    simp only [l, lineOf, execute, h, placement, Assignment.directive, if_neg hkind, report_nil,
      (a.assign_frame _ _ _ _).2.1]
    exact (Segment.locationCounter_eq _).symm

/-- Only assignments leave an EQU or a SET. -/
lemma exists_assign_of_kind {location : Location} {label comment : Option Token}
    {statement : Statement}
    (h : (a.lineOf location label statement comment).statement.kind = .equ ∨
      (a.lineOf location label statement comment).statement.kind = .set) :
    ∃ how location' v, statement = .assign how location' v := by
  cases statement with
  | assign how location' v => exact ⟨how, location', v, rfl⟩
  | data width location' items => cases width <;> simp [lineOf, execute, Width.directive] at h
  | _ => simp [lineOf, execute, orgDirective, Instruction.node] at h

end Assembly

section Sources

variable {cpu : Cpu} {moduleName source : String} {l : Line}

/-- Every accepted line of a source comes from a physical line of the unit, has its number, and
stands in a listing. -/
lemma exists_keeps_of_mem_lines (h : l ∈ (assemble cpu moduleName source).1.lines) :
    ∃ before line after, unitLines cpu (SourceLine.ofText source) = before ++ line :: after ∧
      l.location.line = before.length + 1 ∧
      before.length < (Listing.sourceLines source).length ∧
      ∃ first label statement comment kept,
        (({ cpu } : Assembly).steps before).Keeps line first label statement comment kept ∧
        l = kept.resolved (assemble cpu moduleName source).1.symbols := by
  obtain ⟨rest, hfinish, -⟩ := assemble_eq_unitLines cpu moduleName source
  have hlines : (assemble cpu moduleName source).1.lines =
      (({ cpu } : Assembly).steps (unitLines cpu (SourceLine.ofText source))).lines.map
        (Line.resolved (assemble cpu moduleName source).1.symbols) := by
    rw [hfinish, Assembly.finish_eq, Program.lines, Assembly.lines_resolved,
      Assembly.lines_warnAfterEnd]
  rw [hlines] at h
  obtain ⟨kept, hkept, rfl⟩ := List.mem_map.mp h
  obtain ⟨before, line, after, hsplit, first, label, statement, comment, hkeeps⟩ :=
    Assembly.exists_of_mem_lines hkept
  -- The physical line is the one with this number.
  obtain ⟨rest', hunit, -⟩ := ({ cpu } : Assembly).run_eq_unitLines rfl (SourceLine.ofText source)
  rw [hsplit, List.append_assoc, List.cons_append] at hunit
  have hlt : before.length < (SourceLine.ofText source).length := by
    rw [hunit, List.length_append, List.length_cons]
    omega
  have hline : (SourceLine.ofText source)[before.length] = line := by
    simp only [hunit, List.getElem_append_right (Nat.le_refl _), Nat.sub_self,
      List.getElem_cons_zero]
  have hfirst := List.mem_of_head? hkeeps.hfirst
  have hnumber := (SourceLine.divide_ofText source).line_getElem hlt first
    (by rw [hline]; exact List.mem_append_left _ hfirst)
  refine ⟨before, line, after, hsplit, ?_, ?_, first, label, statement, comment, kept, hkeeps, rfl⟩
  · rw [hkeeps.hline]
    exact hnumber.trans (Nat.add_comm _ _)
  · refine Listing.lt_length_sourceLines hlt ?_
    rw [hline]
    exact List.ne_nil_of_mem hfirst

/-- The accepted lines of a source have increasing numbers. -/
lemma pairwise_line_assemble :
    ((assemble cpu moduleName source).1.lines.map (·.location.line)).Pairwise (· < ·) := by
  obtain ⟨rest, hfinish, -⟩ := assemble_eq_unitLines cpu moduleName source
  obtain ⟨rest', hunit, -⟩ := ({ cpu } : Assembly).run_eq_unitLines rfl (SourceLine.ofText source)
  have hnumber := (SourceLine.divide_ofText source).number
  rw [hunit, List.zipIdx_append, List.forall_mem_append] at hnumber
  rw [hfinish, Assembly.map_line_finish, Assembly.lines_warnAfterEnd]
  exact (Assembly.accounted_steps cpu hnumber.1).lines_lt

end Sources

/-! ### Rows -/

/-- A printing operation that does the same behind any text only adds to the text. -/
lemma Printer.exists_text_eq (f : Printer → Printer)
    (h : ∀ front p, f (p.after front) = (f p).after front) (p : Printer) :
    ∃ added, (f p).text = p.text ++ added := by
  have hp : p = after p.text { column := p.column } := by
    rw [after, String.append_empty]
  refine ⟨(f { column := p.column }).text, ?_⟩
  conv_lhs => rw [hp, h, after_text]

namespace Listing

/-- The rows of a line that shows a word start with it. -/
lemma exists_text_writeLine (columns : Columns) {program : Program} {l : Line} {word : UInt16}
    (hword : shownWord program.symbols l = some word) :
    ∃ back, (writeLine columns program l {}).text =
      String.ofList (List.replicate columns.address ' ') ++ Text.hex 4 word ++ back := by
  obtain ⟨back, hback⟩ := Printer.exists_text_eq
    (fun p => writeRows columns (l.place.address + UInt16.ofNat bytesPerRow)
      ((rows (lineBytes program.object l.place)).drop 1)
      (writeField columns.comment (l.comment.map (";" ++ ·.text))
        (writeField columns.mnemonic
          (if l.statementText.isEmpty then none else some l.statementText)
          (writeField columns.label (l.label.map (·.text ++ ":"))
            (p.writeAll (((rows (lineBytes program.object l.place)).head?.getD []).map
              fun b => " " ++ Text.hexByte b))))))
    (by simp only [Printer.writeAll_after, writeField_after, writeRows_after, implies_true])
    ((({} : Printer).toColumn columns.address).write (Text.hex 4 word))
  have hblanks : (({} : Printer).toColumn columns.address).text =
      String.ofList (List.replicate columns.address ' ') := by
    rw [Printer.toColumn]
    split
    · simp
    · rename_i hzero
      have hcolumn : columns.address = 0 := Nat.eq_zero_of_not_pos hzero
      rw [hcolumn]
      rfl
  refine ⟨back, ?_⟩
  rw [← hblanks]
  simp only [writeLine, hword, writeRow]
  exact hback

lemma lineAt?_cons (first : Line) (lines : List Line) (number : Nat) :
    lineAt? (first :: lines) number =
      (lineAt? lines number).or (if first.location.line = number then some first else none) := by
  rw [lineAt?, List.reverse_cons, List.find?_append, List.find?_singleton, ← lineAt?]
  simp only [beq_iff_eq]

lemma location_of_lineAt? {lines : List Line} {number : Nat} {l : Line}
    (h : lineAt? lines number = some l) : l ∈ lines ∧ l.location.line = number := by
  refine ⟨List.mem_reverse.mp (List.mem_of_find?_eq_some h), ?_⟩
  simpa using List.find?_some h

/-- Where lines have increasing numbers, a line is found by its number. -/
lemma lineAt?_of_mem {lines : List Line} (h : (lines.map (·.location.line)).Pairwise (· < ·))
    {l : Line} (hl : l ∈ lines) : lineAt? lines l.location.line = some l := by
  induction lines with
  | nil => cases hl
  | cons first lines ih =>
    rw [List.map_cons, List.pairwise_cons] at h
    rw [lineAt?_cons]
    rcases List.mem_cons.mp hl with rfl | hrest
    · -- The lines behind it have greater numbers.
      have hnone : lineAt? lines l.location.line = none := by
        refine Option.eq_none_iff_forall_not_mem.mpr fun l' hl' => ?_
        obtain ⟨hmem, hnumber⟩ := location_of_lineAt? hl'
        exact Nat.ne_of_gt (h.1 _ (List.mem_map_of_mem hmem)) hnumber
      rw [hnone, Option.none_or, if_pos rfl]
    · rw [ih h.2 hrest, Option.some_or]

/-- The numbered lines of a source in front of one of them, the line, and those behind it. -/
lemma zipIdx_sourceLines {source : String} {k : Nat} (hk : k < (sourceLines source).length) :
    (sourceLines source).zipIdx 1 = ((sourceLines source).take k).zipIdx 1 ++
      ((sourceLines source)[k], k + 1) :: ((sourceLines source).drop (k + 1)).zipIdx (k + 2) := by
  conv_lhs => rw [← List.take_append_drop k (sourceLines source)]
  rw [List.zipIdx_append, List.drop_eq_getElem_cons hk, List.zipIdx_cons, List.length_take,
    Nat.min_eq_left (Nat.le_of_lt hk), Nat.add_comm 1 k]

/-- Behind the rows of the lines in front of it a listing has those of a line with its word. -/
lemma exists_render_eq (columns : Columns) {program : Program} {log : Log} {source : String}
    (hplaced : ∀ m ∈ log.messages.toList, m.isGlobal = false)
    (hlines : (program.lines.map (·.location.line)).Pairwise (· < ·)) {l : Line}
    (hl : l ∈ program.lines) {k : Nat} (hnumber : l.location.line = k + 1)
    (hk : k < (sourceLines source).length) {word : UInt16}
    (hword : shownWord program.symbols l = some word) :
    ∃ back, render columns source program log =
      String.join ((((sourceLines source).take k).zipIdx 1).map
        fun (text, number) => lineRows columns program log number text) ++
      (String.ofList (List.replicate columns.address ' ') ++ Text.hex 4 word ++ back) := by
  obtain ⟨back, hback⟩ := exists_text_writeLine columns hword
  have hrows : sourceRows columns program (k + 1) (sourceLines source)[k] =
      String.ofList (List.replicate columns.address ' ') ++ Text.hex 4 word ++ back := by
    rw [sourceRows, ← hnumber, lineAt?_of_mem hlines hl]
    exact hback
  rw [render_eq columns source hplaced, zipIdx_sourceLines hk, List.map_append, List.map_cons,
    String.join_append, String.join_cons, lineRows, hrows]
  simp only [String.append_assoc]
  exact ⟨_, rfl⟩

end Listing

/-- Without errors every EQU or SET gave a value to its symbol. The word that a listing shows in the
address column of its line is this value if the expression is single. Otherwise it is the value
of the expression with the symbols as they are at the end, so it is the same if no symbol in the
expression has another value by then. -/
theorem shownWord_eq_of_assignment (cpu : Cpu) (moduleName source : String) (columns : Columns)
    (hclean : (assemble cpu moduleName source).2.errors = 0) :
    let program := (assemble cpu moduleName source).1
    let log := (assemble cpu moduleName source).2
    ∀ l ∈ program.lines, l.statement.kind = .equ ∨ l.statement.kind = .set →
      ∃ before line after t how location v comment value,
        unitLines cpu (SourceLine.ofText source) = before ++ line :: after ∧
        l.location.line = before.length + 1 ∧ l.label = some (labelNode t) ∧
        line.read (({ cpu } : Assembly).steps before).cpu =
          .accepted (some t) (.assign how location v) comment ∧
        v.evaluate (({ cpu } : Assembly).steps before).symbols
          (({ cpu } : Assembly).steps before).code.locationCounter = (some value, []) ∧
        (({ cpu } : Assembly).steps (before ++ [line])).symbols.value? t.value = some value ∧
        Listing.shownWord program.symbols l =
          (if v.expr.isSingle then some value
          else (v.evaluate program.symbols
            (({ cpu } : Assembly).steps before).code.locationCounter).1) ∧
        ((∀ name ∈ v.expr.symbols, program.symbols.value? name =
            (({ cpu } : Assembly).steps before).symbols.value? name) →
          Listing.shownWord program.symbols l = some value) ∧
        ∀ word, Listing.shownWord program.symbols l = some word → ∃ back,
          Listing.render columns source program log =
            String.join ((((Listing.sourceLines source).take before.length).zipIdx 1).map
              fun (text, number) => Listing.lineRows columns program log number text) ++
            (String.ofList (List.replicate columns.address ' ') ++ Text.hex 4 word ++ back) := by
  intro program log l hl hkind
  obtain ⟨rest, -, hsteps⟩ := assemble_eq_unitLines cpu moduleName source
  obtain ⟨before, line, after, hsplit, hnumber, hlength, first, label, statement, comment, kept,
    hkeeps, hl'⟩ := exists_keeps_of_mem_lines hl
  have hbefore := hsteps hclean before (line :: after) hsplit
  have hline := hsteps hclean (before ++ [line]) after (by rw [hsplit, List.append_assoc]; rfl)
  have hkeyed := (Assembly.addressed_steps hbefore).keyed
  -- The line was taken without an error, so it gave its symbol a value.
  rw [Assembly.steps_concat, hkeeps.hstep] at hline
  have hkept : kept.statement.kind = .equ ∨ kept.statement.kind = .set := by
    rwa [hl'] at hkind
  rw [hkeeps.hline] at hkept
  obtain ⟨how, location, v, rfl⟩ := Assembly.exists_assign_of_kind hkept
  obtain ⟨t, value, rfl, hvalue, hgiven⟩ :=
    Assembly.value?_execute_assign hkeyed (hline.trans hbefore.symm)
  obtain ⟨hoperands, haddress, hnode⟩ :=
    @Assembly.lineOf_assign _ how location first.location (some t) comment v value hvalue
  rw [← hkeeps.hline] at hoperands haddress hnode
  -- The last pass leaves the line alone.
  have hresolved : l = kept := by
    have hmap : kept.operands.map (OperandNode.resolved program.symbols kept.place.address) =
        kept.operands := by
      rw [hoperands]
      rfl
    rw [hl', Line.resolved, hmap]
  have hshown : Listing.shownWord program.symbols l =
      if v.expr.isSingle then some value
      else (v.evaluate program.symbols
        (({ cpu } : Assembly).steps before).code.locationCounter).1 := by
    rw [hresolved, ← Listing.assignedValue_eq hoperands haddress hvalue, Listing.shownWord, hnode]
    cases how <;> rfl
  refine ⟨before, line, after, t, how, location, v, comment, value, hsplit, hnumber, ?_,
    hkeeps.hread, hvalue, ?_, hshown, ?_, ?_⟩
  · rw [hresolved, hkeeps.hline]
    rfl
  · rw [Assembly.steps_concat, hkeeps.hstep]
    exact hgiven
  · intro hsame
    have hlast := Expr.eval_congr (({ cpu } : Assembly).steps before).code.locationCounter hsame
    rw [hshown, Value.evaluate, hlast, ← Value.evaluate, hvalue, ite_self]
  · intro word hword
    have hplaced : ∀ m ∈ log.messages.toList, m.isGlobal = false := by
      intro m hm
      have hwithin : log.Within (SourceLine.Has source) := within_assemble cpu moduleName source
      exact Location.isNone_of_pos (Listing.bounds_of_has (hwithin m hm).1).1
    exact Listing.exists_render_eq columns hplaced pairwise_line_assemble hl hnumber hlength hword

/-- A variable that is one more than before: the listing adds one to its last value once again. -/
theorem shownWord_ne_of_reassigned :
    let source := "X SET 1\nX SET X+1\n"
    let program := (assemble .intel8080 "MAIN" source).1
    (assemble .intel8080 "MAIN" source).2.errors = 0 ∧
      ∃ l before line after t,
        program.lines[1]? = some l ∧ l.statement.kind = .set ∧ l.label = some (labelNode t) ∧
        unitLines .intel8080 (SourceLine.ofText source) = before ++ line :: after ∧
        before.length = 1 ∧
        (({} : Assembly).steps (before ++ [line])).symbols.value? t.value = some 2 ∧
        Listing.shownWord program.symbols l = some 3 ∧
        ∃ back, Listing.render {} source program (assemble .intel8080 "MAIN" source).2 =
          "0001                X:        SET 1\n0003" ++ back := by
  intro source program
  have hclean : (assemble .intel8080 "MAIN" source).2.errors = 0 := by decide +kernel
  have hfound : program.lines[1]?.map (fun l => (l.statement.kind, l.location.line,
      l.label.map Node.text, Listing.shownWord program.symbols l)) =
        some (.set, 2, some "X", some 3) := by
    decide +kernel
  obtain ⟨l, hl, hfields⟩ := Option.map_eq_some_iff.mp hfound
  simp only [Prod.mk.injEq] at hfields
  obtain ⟨hkind, hnumber, hname, hword⟩ := hfields
  obtain ⟨before, line, after, t, how, location, v, comment, value, hsplit, hline, hlabel, -, -,
    hvalue, -, -, hrender⟩ :=
    shownWord_eq_of_assignment .intel8080 "MAIN" source {} hclean l (List.mem_of_getElem? hl)
      (Or.inr hkind)
  have hlength : before.length = 1 := by omega
  have ht : t.value = "X" := by
    rw [hlabel] at hname
    exact Option.some.inj hname
  have htaken : before ++ [line] = (unitLines .intel8080 (SourceLine.ofText source)).take 2 := by
    rw [hsplit, List.take_append, hlength, List.take_of_length_le (by omega)]
    rfl
  refine ⟨hclean, l, before, line, after, t, hl, hkind, hlabel, hsplit, hlength, ?_, hword, ?_⟩
  · rw [htaken, ht]
    decide +kernel
  · obtain ⟨back, hback⟩ := hrender 3 hword
    have hfront : String.join ((((Listing.sourceLines source).take 1).zipIdx 1).map
        fun (text, number) => Listing.lineRows {} program
          (assemble .intel8080 "MAIN" source).2 number text) =
        "0001                X:        SET 1\n" := by
      decide +kernel
    rw [hlength, hfront] at hback
    refine ⟨back, hback.trans ?_⟩
    rw [← String.append_assoc, ← String.append_assoc]
    rfl

end MicroAsm
