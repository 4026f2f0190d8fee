import MicroAsm.Proofs.Assembly.Constants
import MicroAsm.Proofs.Statement.Spelling
import MicroAsm.Proofs.Token.Cutting

/-!
# Where a constant is defined

A constant can be defined in front of a unit or behind it: without errors the address of the code
and the symbols are the same. So are the bytes, unless a value mixes the constant with a variable
that gets another value later. With the constant in front such a value takes the variable as it is
on its line; with the constant behind, it waits and takes the variable as it is at the end.
-/

namespace MicroAsm

/-! ### Units without an END -/

/-- No line is an accepted END. -/
def staysOpen (cpu : Cpu) : List SourceLine → Bool
  | [] => true
  | line :: lines => !line.endsUnit cpu && staysOpen (Reference.cpuAfterLine cpu line) lines

lemma staysOpen_append (cpu : Cpu) (lines lines' : List SourceLine) :
    staysOpen cpu (lines ++ lines') =
      (staysOpen cpu lines && staysOpen (Reference.cpuAfter cpu lines) lines') := by
  induction lines generalizing cpu with
  | nil => rfl
  | cons line lines ih =>
    rw [List.cons_append, staysOpen, staysOpen, ih, Bool.and_assoc]
    rfl

/-- Without an END all lines belong to the unit. -/
lemma unitLines_of_staysOpen {cpu : Cpu} {lines : List SourceLine}
    (h : staysOpen cpu lines = true) : unitLines cpu lines = lines := by
  induction lines generalizing cpu with
  | nil => rfl
  | cons line lines ih =>
    rw [staysOpen, Bool.and_eq_true, Bool.not_eq_true'] at h
    rw [unitLines, h.1, ih h.2]
    rfl

lemma Assembly.staysOpen_of_run {a : Assembly} {lines : List SourceLine}
    (h : (a.run lines).ended = false) : staysOpen a.cpu lines = true := by
  induction lines generalizing a with
  | nil => rfl
  | cons line lines ih =>
    by_cases hended : a.ended = true
    · rw [run_of_ended a hended, (warnAfterEnd_frame _ _).2.2.2.2, hended] at h
      cases h
    · rw [Bool.not_eq_true] at hended
      rw [a.run_cons line lines hended] at h
      have hline : (a.step line).ended = false := by
        by_contra hnot
        rw [Bool.not_eq_false] at hnot
        rw [run_of_ended _ hnot, (warnAfterEnd_frame _ _).2.2.2.2, hnot] at h
        cases h
      rw [a.step_ended, hended, Bool.false_or] at hline
      have hlines := ih h
      rw [a.step_cpu] at hlines
      rw [staysOpen, hline, hlines]
      rfl

lemma staysOpen_map_bare (cpu : Cpu) (lines : List SourceLine) :
    staysOpen cpu (lines.map SourceLine.bare) = staysOpen cpu lines := by
  have hends : ∀ (cpu : Cpu) (line : SourceLine), line.bare.endsUnit cpu = line.endsUnit cpu := by
    intro cpu line
    rw [SourceLine.endsUnit, SourceLine.endsUnit, line.read_bare]
    cases line.read cpu with
    | rejected label fragment failure => rfl
    | accepted label statement comment => cases statement <;> rfl
  have hcpu : ∀ (cpu : Cpu) (line : SourceLine),
      Reference.cpuAfterLine cpu line.bare = Reference.cpuAfterLine cpu line := by
    intro cpu line
    rw [Reference.cpuAfterLine, Reference.cpuAfterLine, line.read_bare]
    cases line.read cpu with
    | rejected label fragment failure => rfl
    | accepted label statement comment => cases statement <;> rfl
  induction lines generalizing cpu with
  | nil => rfl
  | cons line lines ih => rw [List.map_cons, staysOpen, staysOpen, hends, hcpu, ih]

/-- The code of a source without errors and without an END, from its lines without their places. -/
lemma assemble_code_of_map_bare {cpu : Cpu} {moduleName source : String}
    {lines : List SourceLine} (hclean : (assemble cpu moduleName source).2.errors = 0)
    (hlines : (SourceLine.ofText source).map SourceLine.bare = lines.map SourceLine.bare)
    (hopen : staysOpen cpu lines = true) :
    ∃ code, (assemble cpu moduleName source).1.object.get? .code = some code ∧
      code.offset = (({ cpu } : Layout).steps lines).offset ∧
      (assemble cpu moduleName source).1.symbols = (({ cpu } : Layout).steps lines).symbols ∧
      ({ cpu } : Layout).bytes (assemble cpu moduleName source).1.symbols lines =
        some code.bytes.toList := by
  have hopen' : staysOpen cpu (SourceLine.ofText source) = true := by
    rw [← staysOpen_map_bare, hlines, staysOpen_map_bare, hopen]
  have hcode := assemble_code_eq hclean
  rw [unitLines_of_staysOpen hopen', ← Layout.steps_map_bare, ← Layout.bytes_map_bare, hlines,
    Layout.steps_map_bare, Layout.bytes_map_bare] at hcode
  exact hcode

/-! ### Lines that define a constant -/

/-- The line that gives a name a value once and for all. -/
def definition (name literal : String) : String :=
  name ++ " EQU " ++ literal ++ "\n"

/-- The line is read as the definition of a constant. -/
def SourceLine.Defines (name : String) (n : UInt16) (line : SourceLine) : Prop :=
  ∀ cpu, ∃ t location v, t.value = name ∧ v.IsNumber n ∧
    line.read cpu = .accepted (some t) (.assign .equ location v) none

namespace SourceLine

variable {line : SourceLine} {name literal : String} {n : UInt16}

lemma defines_of_words
    (hwords : line.HasWords [(.identifier, name), (.equ, "EQU"), (.number, literal)])
    (hvalue : Numeral.value? literal.toList = some (n.toNat : Int)) : line.Defines name n := by
  obtain ⟨t, ts, hbody, hword, hts⟩ := List.map_eq_cons_iff.mp hwords
  obtain ⟨u, us, rfl, hword', hus⟩ := List.map_eq_cons_iff.mp hts
  obtain ⟨w, ws, rfl, hword'', hws⟩ := List.map_eq_cons_iff.mp hus
  obtain rfl := List.map_eq_nil_iff.mp hws
  have hkind : t.kind = .identifier := congrArg Prod.fst hword
  have hequ : u.kind = .equ := congrArg Prod.fst hword'
  intro cpu
  obtain ⟨v, hv, hread⟩ := @readValue_of_word literal n line.stop w hword'' hvalue
  have honly : Reader.readOnlyValue line.stop [w] = .ok (v, []) := by
    rw [Reader.readOnlyValue, hread]
    rfl
  have hlabel : Reader.readLabel line.body = (some t, [u, w]) := by
    simp only [hbody, Reader.readLabel, hkind, hequ, if_true]
  refine ⟨t, u.location, v, congrArg Prod.snd hword, hv, ?_⟩
  simp only [read, hlabel, Reader.readStatement, hequ, honly]

/-- The lines of the text of a definition. -/
lemma exists_ofText_definition (hname : Lexes .identifier name.toList)
    (hliteral : Lexes .number literal.toList)
    (hvalue : Numeral.value? literal.toList = some (n.toNat : Int)) :
    ∃ line blank : SourceLine, line.Defines name n ∧ blank.body = [] ∧
      ofText (definition name literal) = [line, blank] := by
  have hfirst : Scanner.Scans name.toList [(.identifier, name)] := by
    have hscans := Scanner.scans_lexeme hname
    rwa [show Lexeme.value .identifier name.toList = name from String.ofList_toList] at hscans
  have hsecond : Scanner.Scans "EQU".toList [(.equ, "EQU")] :=
    scans_capitals (by decide) (by decide)
  have hthird : Scanner.Scans literal.toList [(.number, literal)] := by
    have hscans := Scanner.scans_lexeme hliteral
    rwa [show Lexeme.value .number literal.toList = literal from String.ofList_toList] at hscans
  have hscans : Scanner.Scans (name ++ " EQU " ++ literal).toList
      [(.identifier, name), (.equ, "EQU"), (.number, literal)] := by
    have hblank : Lexeme.inName ' ' = false := by decide
    have hall := hfirst.append hblank (hsecond.append hblank hthird.blank).blank
    simpa using hall
  have hspells : Spells (name ++ " EQU " ++ literal)
      [(.identifier, name), (.equ, "EQU"), (.number, literal)] := ⟨hscans, by simp⟩
  obtain ⟨found, blank, hblank, hfound, htext⟩ := ofText_join (.cons hspells .nil)
  obtain _ | ⟨hwords, _ | _⟩ := hfound
  rename_i line
  refine ⟨line, blank, defines_of_words hwords hvalue, hblank, ?_⟩
  simpa [definition] using htext

/-- The lines of a source with a definition in front of it and behind it, up to their places. -/
lemma exists_lines_of_definition {source : String} (hbreak : source.toList.getLast? = some '\n')
    (hname : Lexes .identifier name.toList) (hliteral : Lexes .number literal.toList)
    (hvalue : Numeral.value? literal.toList = some (n.toNat : Int)) :
    ∃ line blank blank' : SourceLine, line.Defines name n ∧ blank.body = [] ∧ blank'.body = [] ∧
      (ofText (definition name literal ++ source)).map bare =
        (line :: (ofText source).dropLast ++ [blank]).map bare ∧
      (ofText (source ++ definition name literal)).map bare =
        ((ofText source).dropLast ++ [line] ++ [blank']).map bare := by
  obtain ⟨line, blank', hline, hblank', hdefinition⟩ :=
    exists_ofText_definition hname hliteral hvalue
  obtain ⟨blank, hblank, hempty⟩ := exists_ofText_empty
  have hbreak' : (definition name literal).toList.getLast? = some '\n' := by
    rw [definition, String.toList_append]
    exact List.getLast?_concat
  have hsource := map_bare_ofText_append hbreak ""
  rw [String.append_empty, hempty] at hsource
  refine ⟨line, blank, blank', hline, hblank, hblank', ?_, ?_⟩
  · rw [map_bare_ofText_append hbreak', hdefinition, hsource]
    simp
  · rw [map_bare_ofText_append hbreak, hdefinition]
    simp

/-- A definition is no END and selects no processor. -/
lemma Defines.staysOpen (h : line.Defines name n) (cpu : Cpu) (lines : List SourceLine) :
    staysOpen cpu (line :: lines) = MicroAsm.staysOpen cpu lines := by
  obtain ⟨t, location, v, -, -, hread⟩ := h cpu
  rw [MicroAsm.staysOpen, endsUnit, Reference.cpuAfterLine, hread]
  rfl

lemma staysOpen_blank (h : line.body = []) (cpu : Cpu) : staysOpen cpu [line] = true := by
  rw [staysOpen, endsUnit, Assembly.read_of_body_eq_nil cpu h]
  rfl

/-- What a definition without an error does. -/
lemma Defines.step (h : line.Defines name n) {y : Layout} {last : SymbolTable} {bs : List UInt8}
    (hbytes : y.lineBytes last line = some bs) :
    bs = [] ∧ y.symbols.get? name = none ∧ y.step line = y.insert ⟨name, n, .equ⟩ := by
  obtain ⟨t, location, v, rfl, hv, hread⟩ := h y.cpu
  obtain ⟨label, statement, comment, hread', hadmits, hstep⟩ := Layout.exists_of_lineBytes hbytes
  cases hread.symm.trans hread'
  have hnew : y.symbols.get? t.value = none := by
    cases hs : y.symbols.get? t.value with
    | none => rfl
    | some s => cases (hadmits.2 t rfl s hs).2
  rw [Layout.lineBytes_of_read hread hadmits] at hbytes
  refine ⟨(Option.some.inj hbytes).symm, hnew, ?_⟩
  have hvalue : (v.evaluate y.symbols y.here).1 = some n := by
    have hfits : fits 16 n.toNat = true := fits_toNat n.toNat_lt
    simp only [Value.evaluate, hv.eval, hfits, if_true, wordOfInt_toNat]
  rw [hstep]
  simp only [Layout.execute, hvalue, Layout.assign, SymbolTable.add, hnew]
  rfl

end SourceLine

/-! ### The definition in front and behind -/

namespace Layout

variable {y : Layout} {line blank : SourceLine} {lines : List SourceLine} {name : String}
  {n : UInt16} {last : SymbolTable} {bs : List UInt8}

lemma bytes_blank (hblank : blank.body = []) (h : y.bytes last (lines ++ [blank]) = some bs) :
    y.bytes last lines = some bs ∧ y.steps (lines ++ [blank]) = y.steps lines := by
  rw [bytes_concat, (blank_line last _ hblank).1] at h
  rw [steps_concat, (blank_line last _ hblank).2]
  refine ⟨?_, rfl⟩
  cases hbytes : y.bytes last lines <;> simp_all

/-- A definition in front of lines. -/
lemma bytes_definition_first (hline : line.Defines name n) (hblank : blank.body = [])
    (h : y.bytes last (line :: lines ++ [blank]) = some bs) :
    (y.insert ⟨name, n, .equ⟩).bytes last lines = some bs ∧
      y.steps (line :: lines ++ [blank]) = (y.insert ⟨name, n, .equ⟩).steps lines := by
  obtain ⟨h, hsteps⟩ := bytes_blank hblank h
  obtain ⟨first, rest, hfirst, hrest, rfl⟩ := bytes_cons_eq_some h
  obtain ⟨rfl, -, hstep⟩ := hline.step hfirst
  rw [hstep] at hrest
  refine ⟨hrest, ?_⟩
  have hcons : y.steps (line :: lines) = (y.step line).steps lines := rfl
  rw [hsteps, hcons, hstep]

/-- A definition behind lines. -/
lemma bytes_definition_last (hline : line.Defines name n) (hblank : blank.body = [])
    (h : y.bytes last (lines ++ [line] ++ [blank]) = some bs) :
    y.bytes last lines = some bs ∧
      y.steps (lines ++ [line] ++ [blank]) = (y.steps lines).insert ⟨name, n, .equ⟩ := by
  obtain ⟨h, hsteps⟩ := bytes_blank hblank h
  obtain ⟨first, rest, hfirst, hrest, rfl⟩ := bytes_append_eq_some h
  obtain ⟨bytes, nothing, hbytes, hnothing, rfl⟩ := bytes_cons_eq_some hrest
  obtain ⟨rfl, -, hstep⟩ := hline.step hbytes
  cases hnothing
  refine ⟨by simpa using hfirst, ?_⟩
  rw [hsteps, steps_concat, hstep]

end Layout

/-- Where a constant is defined: in front of a source that ends with a line break and executes no
END, or behind it. Without errors both give the code the same address and the same symbols. They
give it the same bytes too, if no value of data or of an instruction mixes the constant with a
variable that has another value at the end than on its line. -/
theorem assemble_definition_comm (cpu : Cpu) (moduleName source name literal : String) (n : UInt16)
    (hbreak : source.toList.getLast? = some '\n')
    (hopen : (({ cpu } : Assembly).run (SourceLine.ofText source)).ended = false)
    (hname : Lexes .identifier name.toList) (hliteral : Lexes .number literal.toList)
    (hvalue : Numeral.value? literal.toList = some (n.toNat : Int))
    (hfirst : (assemble cpu moduleName (definition name literal ++ source)).2.errors = 0)
    (hlast : (assemble cpu moduleName (source ++ definition name literal)).2.errors = 0) :
    ∃ first last,
      (assemble cpu moduleName (definition name literal ++ source)).1.object.get? .code =
        some first ∧
      (assemble cpu moduleName (source ++ definition name literal)).1.object.get? .code =
        some last ∧
      first.offset = last.offset ∧
      (assemble cpu moduleName (definition name literal ++ source)).1.symbols =
        (assemble cpu moduleName (source ++ definition name literal)).1.symbols ∧
      ((∀ before line after, SourceLine.ofText source = before ++ line :: after →
          ∀ v ∈ line.values (({ cpu } : Assembly).steps before).cpu,
            v.Steady name (({ cpu } : Assembly).steps before).symbols
              (assemble cpu moduleName (source ++ definition name literal)).1.symbols) →
        first.bytes = last.bytes) := by
  obtain ⟨line, blank, blank', hline, hblank, hblank', hlines, hlines'⟩ :=
    SourceLine.exists_lines_of_definition hbreak hname hliteral hvalue
  have hsource : SourceLine.ofText source = (SourceLine.ofText source).dropLast ++
      [(SourceLine.ofText source).getLast (List.cons_ne_nil _ _)] :=
    (List.dropLast_concat_getLast _).symm
  have hopen' := Assembly.staysOpen_of_run hopen
  rw [hsource, staysOpen_append, Bool.and_eq_true] at hopen'
  -- A split of the lines that count is one of all lines.
  have hsplit : ∀ before l after, (SourceLine.ofText source).dropLast = before ++ l :: after →
      ∃ after', SourceLine.ofText source = before ++ l :: after' := by
    intro before l after heq
    rw [heq, List.append_assoc] at hsource
    exact ⟨_, hsource⟩
  generalize (SourceLine.ofText source).dropLast = lines at *
  obtain ⟨first, hfirstCode, hfirstOffset, hfirstSymbols, hfirstBytes⟩ :=
    assemble_code_of_map_bare hfirst hlines (by
      rw [List.cons_append, hline.staysOpen, staysOpen_append, hopen'.1,
        SourceLine.staysOpen_blank hblank]
      rfl)
  obtain ⟨last, hlastCode, hlastOffset, hlastSymbols, hlastBytes⟩ :=
    assemble_code_of_map_bare hlast hlines' (by
      rw [List.append_assoc, staysOpen_append, hopen'.1, List.singleton_append, hline.staysOpen,
        SourceLine.staysOpen_blank hblank']
      rfl)
  obtain ⟨hfirstBytes, hfirstSteps⟩ := Layout.bytes_definition_first hline hblank hfirstBytes
  obtain ⟨hlastBytes, hlastSteps⟩ := Layout.bytes_definition_last hline hblank' hlastBytes
  have hkind : SymbolKind.equ ≠ .set := by simp
  have hsteps := Layout.steps_insert SymbolTable.keyed_empty rfl hkind hlastBytes hfirstBytes
  rw [hfirstSteps, hsteps] at hfirstOffset hfirstSymbols
  rw [hlastSteps] at hlastOffset hlastSymbols
  have hsymbols := hfirstSymbols.trans hlastSymbols.symm
  refine ⟨first, last, hfirstCode, hlastCode, hfirstOffset.trans hlastOffset.symm, hsymbols, ?_⟩
  intro hsteady
  rw [hsymbols] at hfirstBytes
  refine Array.toList_inj.mp (Layout.bytes_insert SymbolTable.keyed_empty rfl hkind hlastSymbols ?_
    hlastBytes hfirstBytes)
  intro before l after heq
  obtain ⟨after', hafter⟩ := hsplit before l after heq
  have hlayout := (Assembly.laid_steps cpu before).layout
  rw [← hlayout]
  exact hsteady before l after' hafter

/-- A constant that is used with a variable which has its last value already. -/
theorem assemble_definition_comm_of_steady_variable :
    let source := "V SET 1\nV SET 2\nL: LXI H,X+V\nDB X,'ab',L\n"
    source.toList.getLast? = some '\n' ∧
      (({ cpu := .intel8080 } : Assembly).run (SourceLine.ofText source)).ended = false ∧
      Lexes .identifier "X".toList ∧ Lexes .number "5".toList ∧
      Numeral.value? "5".toList = some ((5 : UInt16).toNat : Int) ∧
      (assemble .intel8080 "MAIN" (definition "X" "5" ++ source)).2.errors = 0 ∧
      (assemble .intel8080 "MAIN" (source ++ definition "X" "5")).2.errors = 0 ∧
      ∃ first last,
        (assemble .intel8080 "MAIN" (definition "X" "5" ++ source)).1.object.get? .code =
          some first ∧
        (assemble .intel8080 "MAIN" (source ++ definition "X" "5")).1.object.get? .code =
          some last ∧
        first.offset = last.offset ∧
        (assemble .intel8080 "MAIN" (definition "X" "5" ++ source)).1.symbols =
          (assemble .intel8080 "MAIN" (source ++ definition "X" "5")).1.symbols ∧
        first.bytes = last.bytes ∧ last.bytes = #[0x21, 7, 0, 5, 0x61, 0x62, 0] := by
  intro source
  have hbreak : source.toList.getLast? = some '\n' := by decide
  have hopen :
      (({ cpu := .intel8080 } : Assembly).run (SourceLine.ofText source)).ended = false := by
    decide +kernel
  have hname : Lexes .identifier "X".toList := @Lexeme.lexes_name "X".toList (by decide) (by decide)
  have hliteral : Lexes .number "5".toList := Lexeme.lexes_run (by decide) (by simp) (by decide)
  have hvalue : Numeral.value? "5".toList = some ((5 : UInt16).toNat : Int) := by decide
  have hfirst : (assemble .intel8080 "MAIN" (definition "X" "5" ++ source)).2.errors = 0 := by
    decide +kernel
  have hlast : (assemble .intel8080 "MAIN" (source ++ definition "X" "5")).2.errors = 0 := by
    decide +kernel
  obtain ⟨first, last, hfirstCode, hlastCode, hoffset, hsymbols, hbytes⟩ :=
    assemble_definition_comm .intel8080 "MAIN" source "X" "5" 5 hbreak hopen hname hliteral hvalue
      hfirst hlast
  refine ⟨hbreak, hopen, hname, hliteral, hvalue, hfirst, hlast, first, last, hfirstCode,
    hlastCode, hoffset, hsymbols, ?_, ?_⟩
  · have hsteady : ∀ i < 5, ∀ line ∈ (SourceLine.ofText source)[i]?,
        ∀ v ∈ line.values (({ cpu := .intel8080 } : Assembly).steps
          ((SourceLine.ofText source).take i)).cpu,
          v.Steady "X" (({ cpu := .intel8080 } : Assembly).steps
            ((SourceLine.ofText source).take i)).symbols
            (assemble .intel8080 "MAIN" (source ++ definition "X" "5")).1.symbols := by
      decide +kernel
    have hlength : (SourceLine.ofText source).length = 5 := by decide +kernel
    refine hbytes ?_
    intro before line after hsplit
    have hlt : before.length < 5 := by
      rw [← hlength, hsplit, List.length_append, List.length_cons]
      omega
    have hline : line ∈ (SourceLine.ofText source)[before.length]? := by simp [hsplit]
    have htake : (SourceLine.ofText source).take before.length = before := by simp [hsplit]
    have hvalues := hsteady before.length hlt line hline
    rwa [htake] at hvalues
  · have hcode : ((assemble .intel8080 "MAIN" (source ++ definition "X" "5")).1.object.get?
        .code).map Segment.bytes = some #[0x21, 7, 0, 5, 0x61, 0x62, 0] := by
      decide +kernel
    rw [hlastCode] at hcode
    exact Option.some.inj hcode

/-- A constant that is used with a variable which gets another value later: the bytes depend on
where the constant is defined. -/
theorem bytes_ne_of_variable_assigned_later :
    let source := "V SET 1\nDB V+X\nV SET 2\n"
    source.toList.getLast? = some '\n' ∧
      (({ cpu := .intel8080 } : Assembly).run (SourceLine.ofText source)).ended = false ∧
      Lexes .identifier "X".toList ∧ Lexes .number "5".toList ∧
      Numeral.value? "5".toList = some ((5 : UInt16).toNat : Int) ∧
      (assemble .intel8080 "MAIN" (definition "X" "5" ++ source)).2.errors = 0 ∧
      (assemble .intel8080 "MAIN" (source ++ definition "X" "5")).2.errors = 0 ∧
      ((assemble .intel8080 "MAIN" (definition "X" "5" ++ source)).1.object.get? .code).map
        Segment.bytes = some #[6] ∧
      ((assemble .intel8080 "MAIN" (source ++ definition "X" "5")).1.object.get? .code).map
        Segment.bytes = some #[7] := by
  intro source
  exact ⟨by decide, by decide +kernel, @Lexeme.lexes_name "X".toList (by decide) (by decide),
    Lexeme.lexes_run (by decide) (by simp) (by decide), by decide, by decide +kernel,
    by decide +kernel, by decide +kernel, by decide +kernel⟩

end MicroAsm
