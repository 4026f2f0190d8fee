import MicroAsm.Proofs.Assembly.Accounting
import MicroAsm.Proofs.Assembly.Room

/-!
# Layout

A machine that keeps the processor, the symbols and the extent of the code, and never looks at a
value of data or of an instruction, goes along with the assembly line by line, with errors or
without. So where a line stands is decided by the shape of the lines up to it: the room of the
accepted lines in front, and the gaps that ORG has left.
-/

namespace MicroAsm

/-- What decides where the next line stands. -/
structure Layout where
  cpu : Cpu
  symbols : SymbolTable := {}
  /-- The address of the code. -/
  offset : UInt16 := 0
  /-- How many bytes the code has. -/
  size : Nat := 0
deriving DecidableEq, Repr

namespace Layout

/-- The address of the next byte. -/
def here (y : Layout) : UInt16 :=
  y.offset + UInt16.ofNat y.size

def withSymbols (y : Layout) : Except SymbolError SymbolTable → Layout
  | .ok symbols => { y with symbols }
  | .error _ => y

/-- Gives the label of a line a value. -/
def define (y : Layout) (label : Option Token) (value : UInt16) : Layout :=
  match label with
  | none => y
  | some t => y.withSymbols (y.symbols.add t.value value .label)

/-- How many zeros a move leaves. An empty segment is moved as a whole. -/
def gapTo (y : Layout) (target : UInt16) : Nat :=
  if y.size = 0 then 0 else target.toNat - y.here.toNat

/-- Moves the location counter, but never back. -/
def moveTo (y : Layout) (target : UInt16) : Layout :=
  { y with
    offset := if y.size = 0 then target else y.offset
    size := y.size + y.gapTo target }

/-- Gives the label of an assignment its value. -/
def assign (y : Layout) (how : Assignment) (label : Option Token) (value : Option UInt16) :
    Layout :=
  match label, value with
  | some t, some v =>
    match how with
    | .equ => y.withSymbols (y.symbols.add t.value v .equ)
    | .set => y.withSymbols (y.symbols.assign t.value v)
  | _, _ => y

/-- What a statement does to the layout. Data and instructions only take their room. -/
def execute (y : Layout) (label : Option Token) (statement : Statement) : Layout :=
  match statement with
  | .empty _ | .endUnit _ => y.define label y.here
  | .cpu _ name => { y.define label y.here with cpu := (Cpu.ofName? name.value).getD y.cpu }
  | .org _ origin =>
    let y :=
      match (origin.evaluate y.symbols y.here).1 with
      | some target => y.moveTo target
      | none => y
    y.define label y.here
  | .assign how _ v => y.assign how label (v.evaluate y.symbols y.here).1
  | .data _ _ _ | .instruction _ _ _ =>
    { y.define label y.here with size := y.size + statement.room }

/-- What is left of a rejected line: at most its label. -/
def examine (y : Layout) (label : Option Token) : Fragment → Layout
  | .org _ | .assign _ _ => y
  | _ => y.define label y.here

def step (y : Layout) (line : SourceLine) : Layout :=
  match line.read y.cpu with
  | .accepted label statement _ => y.execute label statement
  | .rejected label fragment _ => y.examine label fragment

def steps (y : Layout) (lines : List SourceLine) : Layout :=
  lines.foldl step y

/-- The gap that a statement leaves, if it is an ORG. -/
def gapOf (y : Layout) : Statement → Nat
  | .org _ origin => ((origin.evaluate y.symbols y.here).1.map y.gapTo).getD 0
  | _ => 0

/-- The gap that a line leaves. -/
def gap (y : Layout) (line : SourceLine) : Nat :=
  match line.read y.cpu with
  | .accepted _ statement _ => y.gapOf statement
  | .rejected _ _ _ => 0

/-- All gaps that lines leave. -/
def gaps (y : Layout) : List SourceLine → Nat
  | [] => 0
  | line :: lines => y.gap line + (y.step line).gaps lines

@[simp] lemma withSymbols_frame (y : Layout) (result : Except SymbolError SymbolTable) :
    (y.withSymbols result).cpu = y.cpu ∧ (y.withSymbols result).offset = y.offset ∧
      (y.withSymbols result).size = y.size := by
  cases result <;> exact ⟨rfl, rfl, rfl⟩

@[simp] lemma define_frame (y : Layout) (label : Option Token) (value : UInt16) :
    (y.define label value).cpu = y.cpu ∧ (y.define label value).offset = y.offset ∧
      (y.define label value).size = y.size := by
  cases label with
  | none => exact ⟨rfl, rfl, rfl⟩
  | some t => exact y.withSymbols_frame _

@[simp] lemma assign_frame (y : Layout) (how : Assignment) (label : Option Token)
    (value : Option UInt16) :
    (y.assign how label value).cpu = y.cpu ∧ (y.assign how label value).offset = y.offset ∧
      (y.assign how label value).size = y.size := by
  cases label with
  | none => exact ⟨rfl, rfl, rfl⟩
  | some t =>
    cases value with
    | none => exact ⟨rfl, rfl, rfl⟩
    | some v => cases how <;> exact y.withSymbols_frame _

lemma steps_concat (y : Layout) (lines : List SourceLine) (line : SourceLine) :
    y.steps (lines ++ [line]) = (y.steps lines).step line := by
  simp [steps]

lemma gaps_concat (y : Layout) (lines : List SourceLine) (line : SourceLine) :
    y.gaps (lines ++ [line]) = y.gaps lines + (y.steps lines).gap line := by
  induction lines generalizing y with
  | nil => simp [gaps, steps]
  | cons l lines ih =>
    rw [List.cons_append, gaps, ih, gaps, Nat.add_assoc]
    rfl

lemma gapOf_of_ne (y : Layout) {statement : Statement}
    (h : ∀ location origin, statement ≠ .org location origin) : y.gapOf statement = 0 := by
  cases statement with
  | org location origin => exact absurd rfl (h location origin)
  | _ => rfl

/-- A statement adds its room and the gap that it leaves. -/
lemma size_execute (y : Layout) (label : Option Token) (statement : Statement) :
    (y.execute label statement).size = y.size + statement.room + y.gapOf statement := by
  cases statement with
  | org location origin =>
    simp only [execute, define_frame, Statement.room, gapOf]
    cases (origin.evaluate y.symbols y.here).1 <;> rfl
  | _ => simp [execute, Statement.room, gapOf]

end Layout

namespace Assembly

variable (a : Assembly)

/-- The layout of a state. -/
def layout : Layout :=
  { cpu := a.cpu, symbols := a.symbols, offset := a.code.offset, size := a.code.size }

lemma here_layout : a.layout.here = a.code.locationCounter :=
  a.code.locationCounter_eq.symm

@[simp] lemma layout_report (ms : List Message) : (a.report ms).layout = a.layout := rfl

@[simp] lemma layout_error (location : Location) (text : String) :
    (a.error location text).layout = a.layout := rfl

lemma layout_emit (bs : List UInt8) (location : Location) :
    (a.emit bs location).layout = { a.layout with size := a.layout.size + bs.length } := by
  simp [layout]

lemma layout_withSymbols (result : Except SymbolError SymbolTable) (location : Location) :
    (a.withSymbols result location).layout = a.layout.withSymbols result := by
  cases result <;> rfl

lemma layout_defineLabel (label : Option Token) (value : UInt16) :
    (a.defineLabel label value).layout = a.layout.define label value := by
  cases label with
  | none => rfl
  | some t => exact a.layout_withSymbols _ _

lemma layout_moveTo (target : UInt16) (location : Location) :
    (a.moveTo target location).layout = a.layout.moveTo target := by
  rw [moveTo, Layout.moveTo, Layout.gapTo, here_layout]
  by_cases hsize : a.code.size = 0
  · have hsize' : a.layout.size = 0 := hsize
    rw [if_pos hsize, if_pos hsize', if_pos hsize']
    rfl
  · have hsize' : ¬a.layout.size = 0 := hsize
    rw [if_neg hsize, if_neg hsize', if_neg hsize']
    by_cases hle : a.code.locationCounter ≤ target
    · rw [if_pos hle, layout_emit, List.length_replicate]
    · have hback : target.toNat - a.code.locationCounter.toNat = 0 := by
        rw [UInt16.le_iff_toNat_le] at hle
        omega
      rw [if_neg hle, hback]
      rfl

lemma layout_assign (how : Assignment) (location : Location) (label : Option Token)
    (value : Option UInt16) :
    (a.assign how location label value).layout = a.layout.assign how label value := by
  cases label with
  | none => rfl
  | some t =>
    cases value with
    | none => rfl
    | some v => cases how <;> exact a.layout_withSymbols _ _

lemma layout_put (e : Emission) (location : Location) :
    (a.put e location).layout = { a.layout with size := a.layout.size + e.room } := by
  rw [put, Emission.room]
  by_cases hemits : e.emits = true
  · rw [if_pos hemits, if_pos hemits, layout_emit]
    rfl
  · rw [if_neg hemits, if_neg hemits]
    rfl

/-- The layout after a statement needs no more than the layout before it. -/
lemma layout_execute {statement : Statement} (hbelongs : statement.BelongsTo a.cpu)
    (label : Option Token) :
    (a.execute a.code.locationCounter label statement).1.layout =
      a.layout.execute label statement := by
  rw [← here_layout]
  cases statement with
  | empty location => exact a.layout_defineLabel _ _
  | endUnit location => exact a.layout_defineLabel _ _
  | cpu location name =>
    have hlabel := a.layout_defineLabel label a.layout.here
    have hcpu := (a.layout.define_frame label a.layout.here).1
    simp only [execute, Layout.execute, ← hlabel]
    cases Cpu.ofName? name.value with
    | some cpu => rfl
    | none =>
      rw [← hlabel] at hcpu
      simp only [layout_error, Option.getD_none, ← hcpu]
  | org location origin =>
    simp only [execute, Layout.execute]
    rw [layout_defineLabel, ← here_layout]
    have hsymbols : a.layout.symbols = a.symbols := rfl
    rw [hsymbols]
    cases (origin.evaluate a.symbols a.layout.here).1 with
    | none => rfl
    | some target => simp only [layout_moveTo, layout_report]
  | assign how location v => exact layout_assign _ _ _ _ _
  | data width location items =>
    simp only [execute, layout_put, layout_defineLabel, Item.room_emissions, Layout.execute,
      Layout.define_frame, Statement.room]
  | instruction i location arguments =>
    simp only [execute, layout_put, layout_defineLabel,
      Instruction.room_emission hbelongs.1 hbelongs.2, Layout.execute, Layout.define_frame]

lemma layout_reject (label : Option Token) (fragment : Fragment) (failure : Failure) :
    (a.reject label fragment failure).layout = a.layout.examine label fragment := by
  have hlabel : (a.defineLabel label a.code.locationCounter).layout =
      a.layout.define label a.layout.here := by
    rw [here_layout]
    exact a.layout_defineLabel label _
  cases fragment with
  | org location | assign how location => rfl
  | nothing | data width location items | instruction i location arguments => exact hlabel

/-- The layout goes along with the assembly. -/
lemma layout_step (line : SourceLine) : (a.step line).layout = a.layout.step line := by
  have hcpu : a.layout.cpu = a.cpu := rfl
  rcases a.step_eq_cases line with
    ⟨hbody, heq⟩ | ⟨first, label, statement, comment, -, hread, heq⟩ |
      ⟨first, label, fragment, failure, -, hread, heq⟩
  · rw [heq, Layout.step, read_of_body_eq_nil _ hbody]
    rfl
  · rw [heq, Layout.step, hcpu, hread]
    exact a.layout_execute (SourceLine.belongsTo_of_read hread) label
  · rw [heq, Layout.step, hcpu, hread]
    exact a.layout_reject label fragment failure

/-! ### The place of a line -/

/-- Only the node of an ORG is one. -/
lemma kind_execute_eq_org_iff (here : UInt16) (label : Option Token) (statement : Statement) :
    (a.execute here label statement).2.1.kind = .org ↔
      ∃ location v, statement = .org location v := by
  cases statement with
  | org location v => simp [execute, orgDirective]
  | data width location items => cases width <;> simp [execute, Width.directive]
  | assign how location v =>
    cases how <;> simp [execute, Assignment.directive, Assignment.nodeKind]
  | _ => simp [execute, Instruction.node]

/-- An accepted line has the room of its statement, behind the code and the gap that it leaves. -/
lemma place_lineOf {statement : Statement} (hbelongs : statement.BelongsTo a.cpu)
    (location : Location) (label comment : Option Token) :
    (a.lineOf location label statement comment).place.size = statement.room ∧
      (a.lineOf location label statement comment).place.start =
        a.code.size + a.layout.gapOf statement := by
  have hsize : (a.execute a.code.locationCounter label statement).1.code.size =
      a.code.size + statement.room + a.layout.gapOf statement := by
    have hlayout := congrArg Layout.size (a.layout_execute hbelongs label)
    rwa [Layout.size_execute] at hlayout
  have hkind := a.kind_execute_eq_org_iff a.code.locationCounter label statement
  simp only [lineOf, placement]
  by_cases horg : ∃ location v, statement = .org location v
  · rw [if_pos (hkind.mpr horg)]
    obtain ⟨location', origin, rfl⟩ := horg
    exact ⟨rfl, hsize⟩
  · have hgap := a.layout.gapOf_of_ne fun location' origin heq => horg ⟨location', origin, heq⟩
    rw [if_neg (mt hkind.mp horg), hgap]
    rw [hgap] at hsize
    simp only
    omega

/-- A line has the room of a source line, and stands behind the room of the earlier lines and the
gaps up to it. -/
def Stands (cpu : Cpu) (done : List SourceLine) (earlier : List Line) (l : Line) : Prop :=
  ∃ before line after, done = before ++ line :: after ∧
    line.body.head?.map Token.location = some l.location ∧
    l.place.size = line.room (Reference.cpuAfter cpu before) ∧
    l.place.start =
      (earlier.map (·.place.size)).sum + ({ cpu } : Layout).gaps (before ++ [line])

lemma Stands.append {cpu : Cpu} {done : List SourceLine} {earlier : List Line} {l : Line}
    (h : Stands cpu done earlier l) (lines : List SourceLine) :
    Stands cpu (done ++ lines) earlier l := by
  obtain ⟨before, line, after, rfl, hline⟩ := h
  exact ⟨before, line, after ++ lines, by simp, hline⟩

/-- What is known of the places after some lines, with errors or without. -/
structure Laid (start : Cpu) (done : List SourceLine) (a : Assembly) : Prop where
  cpu : a.cpu = Reference.cpuAfter start done
  layout : a.layout = ({ cpu := start } : Layout).steps done
  size : a.code.size = (a.lines.map (·.place.size)).sum + ({ cpu := start } : Layout).gaps done
  stands : ∀ earlier l later, a.lines = earlier ++ l :: later → Stands start done earlier l

variable {a} {cpu : Cpu} {done : List SourceLine} {line : SourceLine}

/-- A line that leaves no place changes nothing of what is known. -/
lemma Laid.of_lines_eq {b : Assembly} (h : Laid cpu done a) (hstep : b = a.step line)
    (hlines : b.lines = a.lines) (hcode : b.code = a.code) (hgap : a.layout.gap line = 0) :
    Laid cpu (done ++ [line]) b := by
  refine ⟨?_, ?_, ?_, ?_⟩
  · rw [hstep, step_cpu, cpuAfter_concat, h.cpu]
  · rw [hstep, layout_step, Layout.steps_concat, h.layout]
  · rw [Layout.gaps_concat, ← h.layout, hgap, hlines, hcode]
    exact h.size
  · intro earlier l later heq
    rw [hlines] at heq
    exact (h.stands earlier l later heq).append [line]

/-- An accepted line stands behind all others. -/
lemma Laid.accept {first : Token} {label comment : Option Token} {statement : Statement}
    (h : Laid cpu done a) (hfirst : line.body.head? = some first)
    (hread : line.read a.cpu = .accepted label statement comment)
    (hstep : a.step line = a.accept first.location label statement comment) :
    Laid cpu (done ++ [line]) (a.accept first.location label statement comment) := by
  obtain ⟨hsize, hstart⟩ := a.place_lineOf (SourceLine.belongsTo_of_read hread) first.location
    label comment
  have hroom : line.room a.cpu = statement.room := by rw [SourceLine.room, hread]
  have hgap : a.layout.gap line = a.layout.gapOf statement := by
    have hcpu : a.layout.cpu = a.cpu := rfl
    rw [Layout.gap, hcpu, hread]
  have hgaps : ({ cpu } : Layout).gaps (done ++ [line]) =
      ({ cpu } : Layout).gaps done + a.layout.gapOf statement := by
    rw [Layout.gaps_concat, ← h.layout, hgap]
  refine ⟨?_, ?_, ?_, ?_⟩
  · rw [← hstep, step_cpu, cpuAfter_concat, h.cpu]
  · rw [← hstep, layout_step, Layout.steps_concat, h.layout]
  · have hcode : (a.accept first.location label statement comment).code.size =
        a.code.size + statement.room + a.layout.gapOf statement := by
      have hlayout :=
        congrArg Layout.size (a.layout_execute (SourceLine.belongsTo_of_read hread) label)
      rwa [Layout.size_execute] at hlayout
    rw [hcode, hgaps, lines_accept, List.map_append, List.sum_append, List.map_singleton,
      List.sum_singleton, hsize, h.size]
    omega
  · intro earlier l later heq
    rw [lines_accept] at heq
    rcases List.eq_nil_or_concat later with rfl | ⟨later, last, rfl⟩
    · -- The new line is the last one.
      obtain ⟨rfl, hl⟩ := List.append_inj' heq rfl
      rw [List.singleton_inj] at hl
      subst hl
      refine ⟨done, line, [], rfl, by rw [hfirst]; rfl, ?_, ?_⟩
      · rw [hsize, ← h.cpu, hroom]
      · rw [hstart, hgaps, h.size, Nat.add_assoc]
    · -- Another one was there before.
      rw [List.concat_eq_append, ← List.cons_append, ← List.append_assoc] at heq
      obtain ⟨heq, -⟩ := List.append_inj' heq rfl
      exact (h.stands earlier l later heq).append [line]

lemma Laid.step (h : Laid cpu done a) (line : SourceLine) :
    Laid cpu (done ++ [line]) (a.step line) := by
  have hcpu : a.layout.cpu = a.cpu := rfl
  rcases a.step_eq_cases line with
    ⟨hbody, heq⟩ | ⟨first, label, statement, comment, hfirst, hread, heq⟩ |
      ⟨first, label, fragment, failure, -, hread, heq⟩
  · refine h.of_lines_eq rfl (by rw [heq]) (by rw [heq]) ?_
    rw [Layout.gap, read_of_body_eq_nil _ hbody]
    rfl
  · rw [heq]
    exact h.accept hfirst hread heq
  · refine h.of_lines_eq rfl ?_ ?_ ?_
    · rw [heq]
      simp [lines, Record.line?]
    · rw [heq, (reject_frame _ _ _ _).2.1]
    · rw [Layout.gap, hcpu, hread]

/-- The places after any lines. -/
lemma laid_steps (cpu : Cpu) (lines : List SourceLine) :
    Laid cpu lines (({ cpu } : Assembly).steps lines) := by
  refine steps_rec _ ?_ (fun done a line h => h.step line) lines
  refine ⟨rfl, rfl, rfl, ?_⟩
  intro earlier l later heq
  simp [Assembly.lines] at heq

end Assembly

/-- With errors or without, the size of an accepted line is the room of its statement, for which
only the tokens of the line and the processor in force count, and the line starts behind the sizes
of the accepted lines in front of it and the gaps that ORG leaves up to it. The gaps are those of
a layout that looks at no operand of data or of an instruction. -/
theorem size_eq_room_and_start_eq_sum (cpu : Cpu) (moduleName source : String)
    (earlier later : List Line) (l : Line)
    (hlines : (assemble cpu moduleName source).1.lines = earlier ++ l :: later) :
    ∃ before line after, SourceLine.ofText source = before ++ line :: after ∧
      line.body.head?.map Token.location = some l.location ∧
      l.place.size = line.room (Reference.cpuAfter cpu before) ∧
      l.place.start =
        (earlier.map (·.place.size)).sum + ({ cpu } : Layout).gaps (before ++ [line]) := by
  obtain ⟨done, rest, hsource, hfinish, -⟩ := assemble_eq_finish cpu moduleName source
  rw [hfinish, Assembly.finish_eq] at hlines
  -- The last pass changes the operands of the lines, but not where they stand.
  have houtline :=
    Assembly.map_outline_resolved ((({ cpu } : Assembly).steps done).warnAfterEnd rest)
  rw [Assembly.lines_warnAfterEnd] at houtline
  have hlines' : (({ cpu } : Assembly).steps done).lines.map Patching.outline =
      earlier.map Patching.outline ++ Patching.outline l :: later.map Patching.outline := by
    rw [← houtline, ← List.map_cons, ← List.map_append]
    exact congrArg _ hlines
  obtain ⟨earlier', tail, htaken, hearlier, htail⟩ := List.map_eq_append_iff.mp hlines'
  obtain ⟨l', later', rfl, hl, -⟩ := List.map_eq_cons_iff.mp htail
  have hsizes : earlier'.map (·.place.size) = earlier.map (·.place.size) := by
    have hsize : (fun l : Line => l.place.size) = (fun l => l.place.size) ∘ Patching.outline := rfl
    rw [hsize, ← List.map_map, hearlier, List.map_map]
  have hplace : (Patching.outline l').place = (Patching.outline l).place := by rw [hl]
  have hlocation : (Patching.outline l').location = (Patching.outline l).location := by rw [hl]
  obtain ⟨before, line, after, rfl, hstands⟩ :=
    (Assembly.laid_steps cpu done).stands earlier' l' later' htaken
  rw [show l'.place = l.place from hplace, show l'.location = l.location from hlocation,
    hsizes] at hstands
  exact ⟨before, line, after ++ rest, by rw [hsource]; simp, hstands⟩

/-- A unit with a value that does not fit, a name that is no register, a move back and a move over
two bytes. -/
theorem size_eq_room_and_start_eq_sum_of_errors :
    let source := "ORG 8\nMVI A,999\nMOV Q,A\nORG 2\nORG 13\nX: DB 'ab',Y,1 ; data"
    (assemble .intel8080 "MAIN" source).2.errors = 4 ∧
      ∃ earlier l later, (assemble .intel8080 "MAIN" source).1.lines = earlier ++ l :: later ∧
        l.statement.kind = .db ∧ (earlier.map (·.place.size)).sum = 3 ∧ l.place.start = 5 ∧
        ∃ before line after, SourceLine.ofText source = before ++ line :: after ∧
          line.body.head?.map Token.location = some l.location ∧
          l.place.size = line.room (Reference.cpuAfter .intel8080 before) ∧
          l.place.start = (earlier.map (·.place.size)).sum +
            ({ cpu := .intel8080 } : Layout).gaps (before ++ [line]) := by
  intro source
  have hline : (assemble .intel8080 "MAIN" source).2.errors = 4 ∧
      (assemble .intel8080 "MAIN" source).1.lines =
        (assemble .intel8080 "MAIN" source).1.lines.dropLast ++
          [(assemble .intel8080 "MAIN" source).1.lines.getLast!] ∧
      (assemble .intel8080 "MAIN" source).1.lines.getLast!.statement.kind = .db ∧
      ((assemble .intel8080 "MAIN" source).1.lines.dropLast.map (·.place.size)).sum = 3 ∧
      (assemble .intel8080 "MAIN" source).1.lines.getLast!.place.start = 5 := by
    decide +kernel
  obtain ⟨herrors, hlines, hkind, hsum, hstart⟩ := hline
  exact ⟨herrors, _, _, [], hlines, hkind, hsum, hstart,
    size_eq_room_and_start_eq_sum _ _ _ _ _ _ hlines⟩

end MicroAsm
