import Mathlib.Data.List.Find
import MicroAsm.Proofs.Assembly.Accounting
import MicroAsm.Proofs.Assembly.Addresses
import MicroAsm.Proofs.Token.Cutting

/-!
# Behind the end of a unit

Nothing behind the line of an accepted END is assembled. A source and its lines up to that one come
to the same program, and to the same messages, except that text behind the end is warned about. The
last pass adds its messages behind the warning, and does not look at what was reported before.
-/

namespace MicroAsm

/-! ### Messages of the last pass -/

namespace Patching

variable (code : Segment) (symbols : SymbolTable)

lemma write_log_reportAll (index : Nat) (bytes : List UInt8) (location : Location) :
    ∃ code' ms, ∀ log, write ⟨code, log⟩ index bytes location = ⟨code', log.reportAll ms⟩ := by
  cases hpatch : code.patch? index bytes with
  | some code' => exact ⟨code', [], fun log => by rw [write, hpatch]; rfl⟩
  | none =>
    exact ⟨code, [⟨.exception, .none, "fixup out of bounds at " ++ location.text⟩],
      fun log => by rw [write, hpatch]; rfl⟩

lemma resolveOperand_log_reportAll (place : Placement) (o : OperandNode) :
    ∃ o' code' ms, ∀ log,
      resolveOperand ⟨code, log⟩ symbols place o = (o', ⟨code', log.reportAll ms⟩) := by
  cases hdeferred : o.deferred with
  | none => exact ⟨o, code, [], fun log => by rw [resolveOperand, hdeferred]; rfl⟩
  | some d =>
    cases heval : d.expr.eval symbols place.address with
    | error name =>
      exact ⟨{ o with deferred := none }, code, [undefinedSymbol name o.node.location],
        fun log => by simp only [resolveOperand, hdeferred, heval]; rfl⟩
    | ok n =>
      obtain ⟨code', ms, hwrite⟩ := write_log_reportAll code (place.start + d.offset)
        (d.width.bytesOf (checkRange d.width.bits n o.node.location).1) o.node.location
      let word := (checkRange d.width.bits n o.node.location).1
      refine ⟨⟨{ o.node with kind := o.node.kind.resolved word }, none⟩,
        code', (checkRange d.width.bits n o.node.location).2 ++ ms, fun log => ?_⟩
      simp only [resolveOperand, hdeferred, heval, hwrite, Log.reportAll_append]
      rfl

lemma resolveOperands_log_reportAll (place : Placement) (os : List OperandNode) :
    ∃ os' code' ms, ∀ log,
      resolveOperands ⟨code, log⟩ symbols place os = (os', ⟨code', log.reportAll ms⟩) := by
  induction os generalizing code with
  | nil => exact ⟨[], code, [], fun log => rfl⟩
  | cons o os ih =>
    obtain ⟨o', code', ms, hfirst⟩ := resolveOperand_log_reportAll code symbols place o
    obtain ⟨os', code'', ms', hrest⟩ := ih code'
    refine ⟨o' :: os', code'', ms ++ ms', fun log => ?_⟩
    simp only [resolveOperands, hfirst, hrest, Log.reportAll_append]

/-- The last pass puts its messages behind those there are, whatever they are. -/
lemma resolveRecords_log_reportAll (rs : List Record) :
    ∃ rs' code' ms, ∀ log,
      resolveRecords ⟨code, log⟩ symbols rs = (rs', ⟨code', log.reportAll ms⟩) := by
  induction rs generalizing code with
  | nil => exact ⟨[], code, [], fun log => rfl⟩
  | cons r rs ih =>
    cases r with
    | remnant r =>
      obtain ⟨rs', code', ms, hrest⟩ := ih code
      exact ⟨.remnant r :: rs', code', ms, fun log => by simp only [resolveRecords, hrest]⟩
    | line l =>
      obtain ⟨os', code', ms, hfirst⟩ :=
        resolveOperands_log_reportAll code symbols l.place l.operands
      obtain ⟨rs', code'', ms', hrest⟩ := ih code'
      refine ⟨.line { l with operands := os' } :: rs', code'', ms ++ ms', fun log => ?_⟩
      simp only [resolveRecords, hfirst, hrest, Log.reportAll_append]

end Patching

namespace Assembly

variable {a : Assembly} {lines rest : List SourceLine}

/-- Reports made before the last pass have no say in it. -/
lemma finish_report (a : Assembly) (moduleName : String) :
    ∃ program resolution, ∀ ms,
      (a.report ms).finish moduleName =
        (program, (a.log.reportAll ms).reportAll resolution) := by
  obtain ⟨records, code, resolution, hresolve⟩ :=
    Patching.resolveRecords_log_reportAll a.code a.symbols a.records.toList
  refine ⟨⟨records, (ObjectCode.ofModule moduleName).put .code code, a.symbols, a.cpu⟩,
    resolution, fun ms => ?_⟩
  rw [finish_eq, resolved, (report_frame a ms).2.2.1, (report_frame a ms).2.1,
    (report_frame a ms).2.2.2.1]
  simp only [report, hresolve]

/-! ### The line of the END -/

/-- The warning about text behind the end. -/
def afterEnd (t : Token) : Message :=
  ⟨.warning, t.location, "Text after END is ignored"⟩

lemma warnAfterEnd_eq (a : Assembly) (rest : List SourceLine) :
    a.warnAfterEnd rest = a.report
      (((rest.flatMap SourceLine.body).find? (·.kind ≠ .comment)).map afterEnd).toList := by
  rw [warnAfterEnd]
  cases (rest.flatMap SourceLine.body).find? (·.kind ≠ .comment) <;> rfl

lemma warnAfterEnd_of_blank (a : Assembly) (h : ∀ line ∈ rest, line.body = []) :
    a.warnAfterEnd rest = a := by
  rw [warnAfterEnd_eq, List.flatMap_eq_nil_iff.mpr h]
  rfl

/-- The lines of a unit that was ended are the same with other lines behind them. -/
lemma unitLines_append (hopen : a.ended = false)
    (hended : (a.steps (unitLines a.cpu lines)).ended = true) (rest : List SourceLine) :
    unitLines a.cpu (unitLines a.cpu lines ++ rest) = unitLines a.cpu lines := by
  induction lines generalizing a with
  | nil =>
    rw [unitLines, steps_nil, hopen] at hended
    cases hended
  | cons line lines ih =>
    rw [unitLines] at hended ⊢
    by_cases hend : line.endsUnit a.cpu = true
    · rw [if_pos hend, List.singleton_append, unitLines, if_pos hend]
    · rw [if_neg hend, steps_cons] at hended
      have hopen' : (a.step line).ended = false := by
        rw [step_ended, hopen]
        simpa using hend
      have hrest := ih hopen'
      rw [step_cpu] at hrest
      rw [if_neg hend, List.cons_append, unitLines, if_neg hend, hrest hended]

/-- Nothing of a unit is behind an accepted END. -/
lemma unitLines_eq_concat {before after : List SourceLine} {line : SourceLine}
    (h : unitLines a.cpu lines = before ++ line :: after)
    (hend : line.endsUnit (a.steps before).cpu = true) : after = [] := by
  induction before generalizing a lines with
  | nil =>
    cases lines with
    | nil => cases h
    | cons first lines =>
      rw [unitLines] at h
      split at h
      · exact (List.cons.inj h).2.symm
      · rename_i hnot
        rw [← (List.cons.inj h).1] at hend
        exact absurd hend hnot
  | cons first before ih =>
    cases lines with
    | nil => cases h
    | cons first' lines =>
      rw [unitLines] at h
      split at h
      · have hnil := (List.cons.inj h).2
        simp at hnil
      · obtain ⟨rfl, hrest⟩ := List.cons.inj h
        rw [← step_cpu] at hrest
        exact ih hrest hend

/-- The END that an accepted line stands for is among the lines of the source. -/
lemma exists_endsUnit (hnumber : ∀ numbered ∈ lines.zipIdx 1, ∀ t ∈ numbered.1.tokens,
      t.location.line = numbered.2) {l : Line} (hl : l ∈ (a.steps lines).lines)
    (hold : a.lines = []) (hkind : l.statement.kind = .endUnit) :
    ∃ before line after, lines = before ++ line :: after ∧
      line.endsUnit (a.steps before).cpu = true ∧ l.location.line = before.length + 1 := by
  induction lines using List.reverseRecOn with
  | nil =>
    rw [steps_nil, hold] at hl
    cases hl
  | append_singleton lines line ih =>
    rw [List.zipIdx_append, List.forall_mem_append, List.zipIdx_singleton,
      List.forall_mem_singleton, Nat.add_comm] at hnumber
    -- The line was there already, or it is the one that the last step added.
    have hearlier : l ∈ (a.steps lines).lines → ∃ before line' after,
        lines ++ [line] = before ++ line' :: after ∧
          line'.endsUnit (a.steps before).cpu = true ∧ l.location.line = before.length + 1 := by
      intro hl
      obtain ⟨before, line', after, rfl, hrest⟩ := ih hnumber.1 hl
      exact ⟨before, line', after ++ [line], by simp, hrest⟩
    rw [steps_concat] at hl
    rcases (a.steps lines).step_eq_cases line with
      ⟨-, heq⟩ | ⟨first, label, statement, comment, hfirst, hread, heq⟩ |
        ⟨first, label, fragment, failure, -, -, heq⟩
    · rw [heq] at hl
      exact hearlier hl
    · rw [heq, lines_accept, List.mem_append, List.mem_singleton] at hl
      rcases hl with hl | rfl
      · exact hearlier hl
      · refine ⟨lines, line, [], rfl, ?_, ?_⟩
        · rw [SourceLine.endsUnit, hread]
          exact (kind_execute_eq_endUnit_iff _ _ _ _).mp hkind
        · exact hnumber.2 first (List.mem_append_left _ (List.mem_of_head? hfirst))
    · have hlines :
          ((a.steps lines).reject label fragment failure).lines = (a.steps lines).lines := by
        simp [Assembly.lines, Record.line?]
      rw [heq, hlines] at hl
      exact hearlier hl

end Assembly

/-! ### Text behind the end -/

namespace TokenKind

variable {kind : TokenKind}

lemma isWord_of_ne_endOfFile (h : kind ≠ .endOfFile) :
    kind.isWord = (decide (kind ≠ .endOfLine) && decide (kind ≠ .comment)) := by
  cases kind with
  | endOfFile => exact absurd rfl h
  | _ => rfl

lemma isWord_of_endsLine (h : kind.endsLine = true) : kind.isWord = false := by
  cases kind with
  | endOfLine | endOfFile => rfl
  | _ => cases h

lemma isWord_of_not_endsLine (h : kind.endsLine = false) :
    kind.isWord = decide (kind ≠ .comment) := by
  cases kind with
  | endOfLine | endOfFile => cases h
  | _ => rfl

end TokenKind

/-- The end of the file comes last and only there. -/
lemma Scanner.endOfFile_tokens (s : Scanner) :
    (∀ t ∈ s.tokens.1, t.kind ≠ .endOfFile) ∧ s.tokens.2.1.kind = .endOfFile := by
  refine tokens_rec (P := fun s =>
    (∀ t ∈ s.tokens.1, t.kind ≠ .endOfFile) ∧ s.tokens.2.1.kind = .endOfFile) ?_ ?_ s
  · intro s hkind
    simp [tokens_of_eq hkind, hkind]
  · intro s hkind ih
    rw [tokens_of_ne hkind, List.forall_mem_cons]
    exact ⟨⟨hkind, ih.1⟩, ih.2⟩

namespace SourceLine

variable {number : Nat} {lines rest taken : List SourceLine}

/-- The token is a word on a line behind the given one. -/
def wordBehind (number : Nat) (t : Token) : Bool :=
  decide (number < t.location.line) && t.kind.isWord

/-- Behind a line words are found line by line. -/
lemma find?_tokens (hbody : ∀ line ∈ lines, ∀ t ∈ line.body, t.kind.endsLine = false)
    (hstop : ∀ line ∈ lines, line.stop.kind.endsLine = true)
    (hnumber : ∀ line ∈ lines, ∀ t ∈ line.tokens, number < t.location.line) :
    (lines.flatMap tokens).find? (wordBehind number) =
      (lines.flatMap body).find? (·.kind ≠ .comment) := by
  induction lines with
  | nil => rfl
  | cons line lines ih =>
    rw [List.forall_mem_cons] at hbody hstop hnumber
    have hline : line.body.find? (wordBehind number) = line.body.find? (·.kind ≠ .comment) := by
      refine List.find?_congr ?_
      intro t ht
      have hlt := hnumber.1 t (List.mem_append_left _ ht)
      rw [wordBehind, decide_eq_true hlt, Bool.true_and,
        TokenKind.isWord_of_not_endsLine (hbody.1 t ht)]
    have hend : [line.stop].find? (wordBehind number) = none := by
      rw [List.find?_singleton, wordBehind, TokenKind.isWord_of_endsLine hstop.1, Bool.and_false,
        if_neg Bool.false_ne_true]
    rw [List.flatMap_cons, List.flatMap_cons, tokens, List.find?_append, List.find?_append,
      List.find?_append, hline, hend, Option.or_none, ih hbody.2 hstop.2 hnumber.2]

/-- The first word behind the first lines of a text. -/
lemma find?_behind {text : String} (h : ofText text = taken ++ rest) :
    ((Scanner.ofText text).tokens.1.find? fun t =>
        decide (taken.length < t.location.line) && t.kind ≠ .endOfLine && t.kind ≠ .comment) =
      (rest.flatMap body).find? (·.kind ≠ .comment) := by
  have hdivide := divide_ofText text
  rw [h] at hdivide
  have hbody := (List.forall_mem_append.mp hdivide.body).2
  have hstop := (List.forall_mem_append.mp hdivide.endsLine_stop).2
  have htaken : (taken.flatMap tokens).find? (wordBehind taken.length) = none := by
    rw [List.find?_eq_none]
    intro t ht
    obtain ⟨line, hline, ht⟩ := List.mem_flatMap.mp ht
    have hle := hdivide.line_le line hline t ht
    simp only [wordBehind, Bool.and_eq_true, decide_eq_true_eq]
    omega
  have heof : (Scanner.ofText text).allTokens.find? (wordBehind taken.length) =
      (Scanner.ofText text).tokens.1.find? (wordBehind taken.length) := by
    have hword : wordBehind taken.length (Scanner.ofText text).tokens.2.1 = false := by
      rw [wordBehind, (Scanner.endOfFile_tokens _).2]
      simp [TokenKind.isWord]
    rw [Scanner.allTokens, List.find?_append, List.find?_singleton, if_neg (by simp [hword]),
      Option.or_none]
  calc ((Scanner.ofText text).tokens.1.find? fun t =>
        decide (taken.length < t.location.line) && t.kind ≠ .endOfLine && t.kind ≠ .comment)
      = (Scanner.ofText text).tokens.1.find? (wordBehind taken.length) := by
        refine List.find?_congr ?_
        intro t ht
        have hne := (Scanner.endOfFile_tokens _).1 t ht
        rw [wordBehind, Bool.and_assoc, TokenKind.isWord_of_ne_endOfFile hne]
    _ = ((taken ++ rest).flatMap tokens).find? (wordBehind taken.length) := by
        rw [← heof, hdivide.tokens]
    _ = (rest.flatMap body).find? (·.kind ≠ .comment) := by
        rw [List.flatMap_append, List.find?_append, htaken, Option.none_or,
          find?_tokens hbody hstop hdivide.lt_line]

end SourceLine

/-! ### The unit on its own -/

namespace Assembly

variable {cpu : Cpu} {moduleName source : String} {k : Nat}

/-- A unit with an accepted END has the lines up to that one. -/
lemma unitLines_of_end (hend : ∃ l ∈ (assemble cpu moduleName source).1.lines,
      l.statement.kind = .endUnit ∧ l.location.line = k) :
    (unitLines cpu (SourceLine.ofText source)).length = k ∧
      (({ cpu } : Assembly).steps (unitLines cpu (SourceLine.ofText source))).ended = true := by
  obtain ⟨l, hl, hkind, rfl⟩ := hend
  have hnumber := (SourceLine.divide_ofText source).number
  obtain ⟨rest, hlines, hrun⟩ :=
    ({ cpu } : Assembly).run_eq_unitLines rfl (SourceLine.ofText source)
  have hresolved : (assemble cpu moduleName source).1.lines =
      (({ cpu } : Assembly).run (SourceLine.ofText source)).resolved.1.filterMap Record.line? := rfl
  rw [hresolved, hrun] at hl
  obtain ⟨operands, hl⟩ := exists_line_of_mem_resolved hl
  rw [lines_warnAfterEnd] at hl
  rw [hlines, List.zipIdx_append, List.forall_mem_append] at hnumber
  obtain ⟨before, line, after, hunit, hends, hline⟩ := exists_endsUnit hnumber.1 hl rfl hkind
  obtain rfl := unitLines_eq_concat (a := { cpu }) hunit hends
  rw [hunit, steps_concat, step_ended, hends, Bool.or_true]
  exact ⟨by simpa using hline.symm, rfl⟩

/-- The lines of a text up to one of them, in the text cut behind it. -/
lemma ofText_firstLines {taken rest : List SourceLine}
    (h : SourceLine.ofText source = taken ++ rest) :
    ∃ blanks : List SourceLine, (∀ line ∈ blanks, line.body = []) ∧
      SourceLine.ofText (String.ofList (Text.firstLines taken.length source.toList)) =
        taken ++ blanks := by
  have hscanner : ∀ cs, SourceLine.ofText (String.ofList cs) =
      SourceLine.ofScanner ⟨cs, .start, false⟩ := by
    intro cs
    have htext : Scanner.ofText (String.ofList cs) = ⟨cs, .start, false⟩ := by
      rw [Scanner.ofText, String.toList_ofList]
    rw [← htext]
    rfl
  have hsource : SourceLine.ofScanner ⟨source.toList, .start, false⟩ = taken ++ rest := h
  rw [hscanner]
  rcases @SourceLine.ofScanner_firstLines false taken.length source.toList .start with
    ⟨hle, hall⟩ | ⟨blank, hblank, hlines⟩
  · refine ⟨[], by simp, ?_⟩
    rw [hsource, List.length_append] at hle
    rw [hall, hsource, List.length_eq_zero_iff.mp (by omega : rest.length = 0)]
  · refine ⟨[blank], by simpa using hblank, ?_⟩
    rw [hlines, hsource, List.take_left]

end Assembly

/-- Nothing behind an accepted END is assembled. Of a source with an END on line `k`, the text up
to and with the line break of that line gives the same program: the same records, and so the same
tree, the same object code, symbols and processor. The messages are the same too, but for a warning
at the first token behind line `k` that is neither a line break nor a comment, if there is one; it
comes behind the messages of the lines and in front of those of the last pass. -/
theorem assemble_firstLines_of_end (cpu : Cpu) (moduleName source : String) (k : Nat)
    (hend : ∃ l ∈ (assemble cpu moduleName source).1.lines,
      l.statement.kind = .endUnit ∧ l.location.line = k) :
    let unit := String.ofList (Text.firstLines k source.toList)
    let pass := (({ cpu } : Assembly).steps ((SourceLine.ofText source).take k)).log.messages.toList
    let trailing := (Scanner.ofText source).tokens.1.find? fun t =>
      decide (k < t.location.line) && t.kind ≠ .endOfLine && t.kind ≠ .comment
    (assemble cpu moduleName source).1 = (assemble cpu moduleName unit).1 ∧
      ∃ resolution,
        (assemble cpu moduleName unit).2.messages.toList = pass ++ resolution ∧
        (assemble cpu moduleName source).2.messages.toList =
          pass ++ (trailing.map fun t =>
            ⟨.warning, t.location, "Text after END is ignored"⟩).toList ++ resolution := by
  intro unit pass trailing
  obtain ⟨hlength, hended⟩ := Assembly.unitLines_of_end hend
  obtain ⟨rest, hlines, hrun⟩ :=
    ({ cpu } : Assembly).run_eq_unitLines rfl (SourceLine.ofText source)
  let taken := unitLines cpu (SourceLine.ofText source)
  obtain ⟨blanks, hblanks, hunit⟩ := Assembly.ofText_firstLines hlines
  rw [hlength] at hunit
  -- The lines of the unit on its own are taken up to the same END.
  have hrunUnit : ({ cpu } : Assembly).run (SourceLine.ofText unit) =
      ({ cpu } : Assembly).steps taken := by
    obtain ⟨rest', hlines', hrun'⟩ :=
      ({ cpu } : Assembly).run_eq_unitLines rfl (SourceLine.ofText unit)
    have htaken : unitLines cpu (SourceLine.ofText unit) = taken := by
      rw [hunit]
      exact Assembly.unitLines_append (a := { cpu }) rfl hended blanks
    rw [htaken, hunit] at hlines'
    rw [hrun', htaken, ← List.append_cancel_left hlines']
    exact Assembly.warnAfterEnd_of_blank _ hblanks
  have hpass : pass = (({ cpu } : Assembly).steps taken).log.messages.toList := by
    have htake : (SourceLine.ofText source).take k = taken := by
      rw [hlines, ← hlength, List.take_left]
    simp only [pass, htake]
  have htrailing : (rest.flatMap SourceLine.body).find? (·.kind ≠ .comment) = trailing := by
    rw [← SourceLine.find?_behind hlines, hlength]
  obtain ⟨program, resolution, hfinish⟩ :=
    (({ cpu } : Assembly).steps taken).finish_report moduleName
  have hassembleUnit : assemble cpu moduleName unit =
      (program, (({ cpu } : Assembly).steps taken).log.reportAll resolution) := by
    calc assemble cpu moduleName unit
        = ((({ cpu } : Assembly).steps taken).report []).finish moduleName := by
          rw [Assembly.report_nil, ← hrunUnit]
          rfl
      _ = (program, (({ cpu } : Assembly).steps taken).log.reportAll resolution) := hfinish []
  have hassemble : assemble cpu moduleName source =
      (program, ((({ cpu } : Assembly).steps taken).log.reportAll
        (trailing.map Assembly.afterEnd).toList).reportAll resolution) := by
    calc assemble cpu moduleName source
        = ((({ cpu } : Assembly).steps taken).warnAfterEnd rest).finish moduleName := by
          rw [← hrun]
          rfl
      _ = _ := by
          rw [Assembly.warnAfterEnd_eq, htrailing]
          exact hfinish _
  rw [hassembleUnit, hassemble]
  refine ⟨rfl, resolution, ?_, ?_⟩
  · rw [Log.messages_reportAll, hpass]
  · rw [Log.messages_reportAll, Log.messages_reportAll, hpass]
    rfl

/-- A forward reference to a name that only text behind the end would define. -/
theorem assemble_firstLines_of_end_pending :
    let source := "JMP X\nY EQU 300\nDB Y\nEND ; done\n; note\nX: NOP\nY SET 1"
    (∃ l ∈ (assemble .intel8080 "MAIN" source).1.lines,
      l.statement.kind = .endUnit ∧ l.location.line = 4) ∧
    (assemble .intel8080 "MAIN" source).1 =
      (assemble .intel8080 "MAIN" "JMP X\nY EQU 300\nDB Y\nEND ; done\n").1 ∧
    (assemble .intel8080 "MAIN" source).2.messages.toList.map (fun m => (m.severity, m.location.line))
      = [(.error, 3), (.warning, 6), (.error, 1)] := by
  intro source
  have hend : ∃ l ∈ (assemble .intel8080 "MAIN" source).1.lines,
      l.statement.kind = .endUnit ∧ l.location.line = 4 := by
    decide +kernel
  obtain ⟨hprogram, -⟩ := assemble_firstLines_of_end .intel8080 "MAIN" source 4 hend
  have hunit : String.ofList (Text.firstLines 4 source.toList) =
      "JMP X\nY EQU 300\nDB Y\nEND ; done\n" := by
    decide +kernel
  rw [hunit] at hprogram
  exact ⟨hend, hprogram, by decide +kernel⟩

end MicroAsm
