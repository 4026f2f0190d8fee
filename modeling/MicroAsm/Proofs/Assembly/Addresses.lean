import MicroAsm.Proofs.Assembly.Capacity
import MicroAsm.Proofs.Assembly.Layout

/-!
# Addresses

Without errors the code ends at the last address of the machine at the latest, so the address of a
line is that of the code and its distance from the start of the code, and so is the value of its
label. The one exception is a line behind the last byte of the machine: the location counter is a
word and is zero there. For the same reason ORG 0 is taken there, and moves nothing, though it
looks like a move back.
-/

namespace MicroAsm

namespace Layout

variable {y : Layout}

/-- What a line does to the symbols. -/
def Keeps (y y' : Layout) : Prop :=
  y.symbols.Keyed → y'.symbols.Keyed ∧ y.symbols.KeepsConstants y'.symbols

lemma Keeps.refl (y : Layout) : y.Keeps y :=
  fun h => ⟨h, SymbolTable.KeepsConstants.refl _⟩

lemma keeps_define (y : Layout) (label : Option Token) (value : UInt16) :
    y.Keeps (y.define label value) := by
  cases label with
  | none => exact Keeps.refl y
  | some t =>
    intro h
    rw [define]
    cases hadd : y.symbols.add t.value value .label with
    | error e => exact Keeps.refl y h
    | ok symbols => exact SymbolTable.keepsConstants_add h hadd

lemma keeps_assign (y : Layout) (how : Assignment) (label : Option Token)
    (value : Option UInt16) : y.Keeps (y.assign how label value) := by
  intro h
  cases label with
  | none => exact Keeps.refl y h
  | some t =>
    cases value with
    | none => exact Keeps.refl y h
    | some v =>
      cases how with
      | equ =>
        simp only [assign]
        cases hadd : y.symbols.add t.value v .equ with
        | error e => exact Keeps.refl y h
        | ok symbols => exact SymbolTable.keepsConstants_add h hadd
      | set =>
        simp only [assign]
        cases hassign : y.symbols.assign t.value v with
        | error e => exact Keeps.refl y h
        | ok symbols => exact SymbolTable.keepsConstants_assign h hassign

lemma keeps_execute (y : Layout) (label : Option Token) (statement : Statement) :
    y.Keeps (y.execute label statement) := by
  cases statement with
  | assign how location v => exact y.keeps_assign _ _ _
  | org location origin =>
    simp only [execute]
    cases (origin.evaluate y.symbols y.here).1 with
    | none => exact y.keeps_define label _
    | some target => exact (y.moveTo target).keeps_define label _
  | _ => exact y.keeps_define label _

/-- Labels and constants are kept, with errors or without. -/
lemma keeps_step (y : Layout) (line : SourceLine) : y.Keeps (y.step line) := by
  rw [step]
  cases line.read y.cpu with
  | accepted label statement comment => exact y.keeps_execute label statement
  | rejected label fragment failure =>
    cases fragment with
    | org location | assign how location => exact Keeps.refl y
    | _ => exact y.keeps_define label _

/-- Only an ORG moves a segment, and only an empty one. -/
lemma offset_execute {statement : Statement}
    (h : y.size ≠ 0 ∨ ∀ location origin, statement ≠ .org location origin)
    (label : Option Token) : (y.execute label statement).offset = y.offset := by
  cases statement with
  | org location origin =>
    simp only [execute, define_frame]
    cases (origin.evaluate y.symbols y.here).1 with
    | none => rfl
    | some target => exact if_neg (h.resolve_right fun hne => hne location origin rfl)
  | _ => simp [execute]

end Layout

namespace Assembly

variable {a : Assembly} {label comment : Option Token} {statement : Statement}

/-! ### One line -/

lemma offset_execute (hbelongs : statement.BelongsTo a.cpu)
    (h : a.code.size ≠ 0 ∨ ∀ location origin, statement ≠ .org location origin) :
    (a.execute a.code.locationCounter label statement).1.code.offset = a.code.offset := by
  have hlayout := congrArg Layout.offset (a.layout_execute hbelongs label)
  exact hlayout.trans (Layout.offset_execute h label)

/-- The address of a line is that of the code and its distance from the start of the code. -/
lemma address_lineOf (location : Location) :
    (a.lineOf location label statement comment).place.address =
      (a.execute a.code.locationCounter label statement).1.code.offset +
        UInt16.ofNat (a.lineOf location label statement comment).place.start := by
  simp only [lineOf, placement]
  split
  · exact Segment.locationCounter_eq _
  · rfl

/-- A label without an error is there afterwards. -/
lemma get?_defineLabel {t : Token} {value : UInt16}
    (h : (a.defineLabel (some t) value).log.errors ≤ a.log.errors) :
    (a.defineLabel (some t) value).symbols.get? t.value = some ⟨t.value, value, .label⟩ := by
  have hle := a.errors_le_defineLabel (some t) value
  obtain ⟨-, heq⟩ := SymbolTable.add_eq_ok (a.ok_of_withSymbols (Nat.le_antisymm h hle))
  have hsymbols : (a.defineLabel (some t) value).symbols =
      a.symbols.insert ⟨t.value, value, .label⟩ := heq
  rw [hsymbols, SymbolTable.get?_insert, if_pos rfl]

/-- The label of a line without an error has the address of the line, unless the line is an
assignment. -/
lemma get?_label_execute {t : Token} (hbelongs : statement.BelongsTo a.cpu)
    (h : (a.execute a.code.locationCounter (some t) statement).1.log.errors = a.log.errors)
    (hassign : ∀ how location v, statement ≠ .assign how location v) (location : Location) :
    (a.execute a.code.locationCounter (some t) statement).1.symbols.get? t.value =
      some ⟨t.value, (a.lineOf location (some t) statement comment).place.address, .label⟩ := by
  have hput : ∀ e location, ((a.defineLabel (some t) a.code.locationCounter).put e
      location).log.errors = a.log.errors →
      (a.defineLabel (some t) a.code.locationCounter).log.errors ≤ a.log.errors := by
    intro e location herrors
    have hle := (a.defineLabel (some t) a.code.locationCounter).errors_le_put e location
    omega
  by_cases horg : ∃ location origin, statement = .org location origin
  · obtain ⟨location', origin, rfl⟩ := horg
    rcases hvalue : origin.evaluate a.symbols a.code.locationCounter with ⟨value, messages⟩
    -- The label is defined last, in a state with no fewer errors.
    have hlast : ∀ b : Assembly, a.log.errors ≤ b.log.errors →
        (b.defineLabel (some t) b.code.locationCounter).log.errors = a.log.errors →
        (b.defineLabel (some t) b.code.locationCounter).symbols.get? t.value =
          some ⟨t.value, (b.defineLabel (some t) b.code.locationCounter).code.locationCounter,
            .label⟩ := by
      intro b hle herrors
      rw [(b.defineLabel_frame _ _).2.1]
      exact get?_defineLabel (Nat.le_trans (Nat.le_of_eq herrors) hle)
    simp only [execute, hvalue] at h
    simp only [lineOf, execute, hvalue, placement, orgDirective, if_true]
    cases value with
    | none => exact hlast _ (by simp) h
    | some target =>
      have hle := errors_le_moveTo (a.report messages) target origin.location
      exact hlast _ (Nat.le_trans (by simp) hle) h
  · have hne : ∀ location origin, statement ≠ .org location origin :=
      fun location origin heq => horg ⟨location, origin, heq⟩
    -- Any other line has the address of the location counter in front of it.
    have haddress : (a.lineOf location (some t) statement comment).place.address =
        a.code.locationCounter := by
      have hstart := (a.place_lineOf hbelongs location (some t) comment).2
      rw [address_lineOf, hstart, a.layout.gapOf_of_ne hne, Nat.add_zero,
        offset_execute hbelongs (Or.inr hne), Segment.locationCounter_eq]
    rw [haddress]
    cases statement with
    | org location' origin => exact absurd rfl (hne location' origin)
    | assign how location' v => exact absurd rfl (hassign how location' v)
    | empty location' | endUnit location' => exact get?_defineLabel (Nat.le_of_eq h)
    | cpu location' name =>
      simp only [execute] at h ⊢
      split at h
      · exact get?_defineLabel (Nat.le_of_eq h)
      · rw [errors_error] at h
        exact get?_defineLabel (by omega)
    | data width location' items =>
      simp only [execute, (put_frame _ _ _).2.1]
      exact get?_defineLabel (hput _ _ h)
    | instruction i location' arguments =>
      simp only [execute, (put_frame _ _ _).2.1]
      exact get?_defineLabel (hput _ _ h)

/-- A move without an error ends where it should, unless the code has filled the machine up to its
last address: then only a move to address zero is taken, and it moves nothing. -/
lemma endAddress_moveTo {target : UInt16} {location : Location} (hinside : a.code.Inside)
    (hsize : a.code.size ≠ 0)
    (h : (a.moveTo target location).log.errors = a.log.errors) :
    (a.code.endAddress ≠ 0x10000 → (a.moveTo target location).code.endAddress = target.toNat) ∧
      (a.code.endAddress = 0x10000 → target = 0 ∧ (a.moveTo target location).code = a.code) := by
  have hcounter : a.code.locationCounter.toNat = a.code.endAddress % 0x10000 := by
    rw [Segment.locationCounter, UInt16.toNat_ofNat']
  rw [Segment.Inside] at hinside
  rw [moveTo, if_neg hsize] at h ⊢
  by_cases hle : a.code.locationCounter ≤ target
  · rw [if_pos hle] at h ⊢
    rw [UInt16.le_iff_toNat_le] at hle
    have hend := a.endAddress_le_of_emit h
    rw [List.length_replicate] at hend
    rw [(a.emit_frame _ _).2.2.1, Segment.endAddress_append, List.length_replicate]
    constructor
    · intro hne
      omega
    · intro hfull
      have hzero : target.toNat = 0 := by omega
      refine ⟨UInt16.toNat_inj.mp hzero, ?_⟩
      rw [hzero, Nat.zero_sub]
      exact Segment.append_nil _
  · rw [if_neg hle, errors_error] at h
    omega

/-- A value that cannot wait is a word, or there is an error about it. -/
lemma evaluate_cases (v : Value) (symbols : SymbolTable) (here : UInt16) :
    (∃ target, v.evaluate symbols here = (some target, [])) ∨
      ∃ ms, v.evaluate symbols here = (none, ms) ∧ errorCount ms = 1 := by
  rw [Value.evaluate]
  cases v.expr.eval symbols here with
  | error name => exact Or.inr ⟨_, rfl, rfl⟩
  | ok n =>
    by_cases hfits : fits 16 n = true
    · exact Or.inl ⟨_, if_pos hfits⟩
    · exact Or.inr ⟨_, if_neg hfits, rfl⟩

/-- An ORG without an error on code that is not empty. -/
lemma endAddress_execute_org (location : Location) {origin : Value} (hinside : a.code.Inside)
    (hsize : a.code.size ≠ 0)
    (h : (a.execute a.code.locationCounter label (.org location origin)).1.log.errors =
      a.log.errors) :
    ∃ target, (origin.evaluate a.symbols a.code.locationCounter).1 = some target ∧
      (a.code.endAddress ≠ 0x10000 →
        (a.execute a.code.locationCounter label (.org location origin)).1.code.endAddress =
          target.toNat) ∧
      (a.code.endAddress = 0x10000 → target = 0 ∧
        (a.execute a.code.locationCounter label (.org location origin)).1.code = a.code) := by
  rcases evaluate_cases origin a.symbols a.code.locationCounter with
    ⟨target, hvalue⟩ | ⟨ms, hvalue, hms⟩
  · simp only [execute, hvalue, report_nil, (defineLabel_frame _ _ _).2.1] at h ⊢
    have hmove := a.errors_le_moveTo target origin.location
    have hlabel := errors_le_defineLabel (a.moveTo target origin.location) label
      (a.moveTo target origin.location).code.locationCounter
    exact ⟨target, rfl, endAddress_moveTo hinside hsize (by omega)⟩
  · have hlabel := errors_le_defineLabel (a.report ms) label
      (a.report ms).code.locationCounter
    simp only [execute, hvalue] at h
    rw [errors_report] at hlabel
    omega

/-! ### Runs -/

/-- Where the lines stand, and what their labels are. -/
structure Addressed (a : Assembly) : Prop where
  keyed : a.symbols.Keyed
  address : ∀ l ∈ a.lines, 0 < l.place.start → l.place.start ≤ a.code.size ∧
    l.place.address = a.code.offset + UInt16.ofNat l.place.start
  label : ∀ l ∈ a.lines, ∀ node, l.label = some node → l.statement.kind ≠ .equ →
    l.statement.kind ≠ .set →
    a.symbols.get? node.text = some ⟨node.text, l.place.address, .label⟩

lemma Addressed.accept (h : Addressed a) (hbelongs : statement.BelongsTo a.cpu)
    {location : Location}
    (hclean : (a.accept location label statement comment).log.errors = a.log.errors) :
    Addressed (a.accept location label statement comment) := by
  have hlayout := a.layout_execute hbelongs label
  obtain ⟨hkeyed, hkeeps⟩ := a.layout.keeps_execute label statement h.keyed
  rw [← hlayout] at hkeyed hkeeps
  have hsize : (a.execute a.code.locationCounter label statement).1.code.size =
      a.code.size + statement.room + a.layout.gapOf statement :=
    (congrArg Layout.size hlayout).trans (Layout.size_execute _ _ _)
  have hstart := (a.place_lineOf hbelongs location label comment).2
  refine ⟨hkeyed, ?_, ?_⟩
  · intro l hl hpos
    rw [lines_accept, List.mem_append, List.mem_singleton] at hl
    rcases hl with hl | rfl
    · obtain ⟨hle, haddress⟩ := h.address l hl hpos
      have hoffset : (a.accept location label statement comment).code.offset = a.code.offset :=
        offset_execute hbelongs (Or.inl (by omega))
      rw [hoffset]
      exact ⟨Nat.le_trans hle (by rw [accept_eq, record, hsize]; omega), haddress⟩
    · refine ⟨?_, address_lineOf location⟩
      rw [hstart, accept_eq, record, hsize]
      omega
  · intro l hl node hnode hequ hset
    rw [lines_accept, List.mem_append, List.mem_singleton] at hl
    rcases hl with hl | rfl
    · exact hkeeps _ _ (h.label l hl node hnode hequ hset) (by simp)
    · cases label with
      | none => cases hnode
      | some t =>
        cases hnode
        refine get?_label_execute hbelongs hclean ?_ location
        rintro how location' v rfl
        cases how
        · exact hequ rfl
        · exact hset rfl

lemma Addressed.step (h : Addressed a) {line : SourceLine}
    (hclean : (a.step line).log.errors = a.log.errors) : Addressed (a.step line) := by
  rcases a.step_cases hclean with ⟨-, heq⟩ | ⟨first, label, statement, comment, -, hread, heq⟩
  · rw [heq]
    exact h
  · rw [heq] at hclean ⊢
    exact h.accept (SourceLine.belongsTo_of_read hread) hclean

lemma addressed_steps {cpu : Cpu} {lines : List SourceLine}
    (hclean : (({ cpu } : Assembly).steps lines).log.errors = 0) :
    Addressed (({ cpu } : Assembly).steps lines) := by
  refine steps_induction (P := fun _ a => Addressed a) _ ?_
    (fun done a line h hstep => h.step hstep) hclean
  exact ⟨SymbolTable.keyed_empty, by simp [Assembly.lines], by simp [Assembly.lines]⟩

/-- The address of a line is exact, unless the line is behind the last byte of the machine. -/
lemma Addressed.exact (h : Addressed a) (hinside : a.code.Inside) {l : Line} (hl : l ∈ a.lines)
    (hpos : 0 < l.place.start) :
    a.code.offset.toNat + l.place.start ≤ 0x10000 ∧
      (l.place.address.toNat = a.code.offset.toNat + l.place.start ↔
        a.code.offset.toNat + l.place.start ≠ 0x10000) ∧
      (a.code.offset.toNat + l.place.start = 0x10000 → l.place.address = 0) := by
  obtain ⟨hle, haddress⟩ := h.address l hl hpos
  rw [Segment.Inside, Segment.endAddress_eq] at hinside
  have htoNat : l.place.address.toNat = (a.code.offset.toNat + l.place.start) % 0x10000 := by
    rw [haddress, UInt16.toNat_add, UInt16.toNat_ofNat', Nat.add_mod_mod]
  refine ⟨by omega, ?_, ?_⟩
  · rw [htoNat]
    omega
  · intro hfull
    rw [hfull] at htoNat
    exact UInt16.toNat_inj.mp htoNat

/-- The last pass changes nothing of a line but its operands. -/
lemma exists_line_of_mem_resolved {l : Line} (h : l ∈ a.resolved.1.filterMap Record.line?) :
    ∃ operands, { l with operands } ∈ a.lines := by
  have hmem : Patching.outline l ∈ a.lines.map Patching.outline := by
    rw [← map_outline_resolved]
    exact List.mem_map_of_mem h
  obtain ⟨l', hl', houtline⟩ := List.mem_map.mp hmem
  refine ⟨l'.operands, ?_⟩
  have heq : { l with operands := l'.operands } = l' := by
    calc { l with operands := l'.operands }
        = { Patching.outline l with operands := l'.operands } := rfl
      _ = { Patching.outline l' with operands := l'.operands } := by rw [houtline]
      _ = l' := rfl
  rw [heq]
  exact hl'

end Assembly

/-- Assembling takes the lines of the unit and then makes the last pass. Without errors at the end
there are none after any of the lines. -/
lemma assemble_eq_unitLines (cpu : Cpu) (moduleName source : String) :
    ∃ rest, assemble cpu moduleName source =
        ((({ cpu } : Assembly).steps (unitLines cpu (SourceLine.ofText source))).warnAfterEnd
          rest).finish moduleName ∧
      ((assemble cpu moduleName source).2.errors = 0 → ∀ done after,
        unitLines cpu (SourceLine.ofText source) = done ++ after →
        (({ cpu } : Assembly).steps done).log.errors = 0) := by
  obtain ⟨rest, -, hrun⟩ :=
    ({ cpu } : Assembly).run_eq_unitLines rfl (SourceLine.ofText source)
  have hfinish : assemble cpu moduleName source =
      ((({ cpu } : Assembly).steps (unitLines cpu (SourceLine.ofText source))).warnAfterEnd
        rest).finish moduleName := by
    rw [← hrun]
    rfl
  refine ⟨rest, hfinish, ?_⟩
  intro hclean done after hsplit
  have hpass := ((({ cpu } : Assembly).steps
    (unitLines cpu (SourceLine.ofText source))).warnAfterEnd rest).errors_le_resolved
  rw [hfinish, Assembly.finish_eq] at hclean
  rw [Assembly.errors_warnAfterEnd] at hpass
  have hunit := Nat.le_trans hpass (Nat.le_of_eq hclean)
  rw [hsplit, Assembly.steps_append] at hunit
  exact Nat.le_zero.mp (Nat.le_trans (Assembly.errors_le_steps _ after) hunit)

/-- Without errors a line that does not stand at the start of the code has the address of the code
and its distance from there, as plain numbers, and its label has that value, unless the line is
behind the last byte of the machine: there the address is zero. In the same way an ORG on code that
is not empty ends where it says, unless the code has filled the machine up to its last address:
there only an ORG 0 is taken, and moves nothing. -/
theorem address_eq_and_org_exact (cpu : Cpu) (moduleName source : String)
    (hclean : (assemble cpu moduleName source).2.errors = 0) :
    (∃ code, (assemble cpu moduleName source).1.object.get? .code = some code ∧
      ∀ l ∈ (assemble cpu moduleName source).1.lines, 0 < l.place.start →
        code.offset.toNat + l.place.start ≤ 0x10000 ∧
        (l.place.address.toNat = code.offset.toNat + l.place.start ↔
          code.offset.toNat + l.place.start ≠ 0x10000) ∧
        (code.offset.toNat + l.place.start = 0x10000 → l.place.address = 0) ∧
        ∀ node, l.label = some node → l.statement.kind ≠ .equ → l.statement.kind ≠ .set →
          (assemble cpu moduleName source).1.symbols.get? node.text =
            some ⟨node.text, l.place.address, .label⟩) ∧
    ∀ before line after label location origin comment,
      unitLines cpu (SourceLine.ofText source) = before ++ line :: after →
      line.read (({ cpu } : Assembly).steps before).cpu =
        .accepted label (.org location origin) comment →
      (({ cpu } : Assembly).steps before).code.size ≠ 0 →
      ∃ target, (origin.evaluate (({ cpu } : Assembly).steps before).symbols
          (({ cpu } : Assembly).steps before).code.locationCounter).1 = some target ∧
        ((({ cpu } : Assembly).steps before).code.endAddress ≠ 0x10000 →
          (({ cpu } : Assembly).steps (before ++ [line])).code.endAddress = target.toNat) ∧
        ((({ cpu } : Assembly).steps before).code.endAddress = 0x10000 →
          target = 0 ∧ (({ cpu } : Assembly).steps (before ++ [line])).code =
            (({ cpu } : Assembly).steps before).code) := by
  obtain ⟨rest, hfinish, hsteps⟩ := assemble_eq_unitLines cpu moduleName source
  have hinside : ∀ {lines}, (({ cpu } : Assembly).steps lines).log.errors = 0 →
      (({ cpu } : Assembly).steps lines).code.Inside := by
    intro lines hlines
    have hstart : ({ cpu } : Assembly).CodeInside :=
      ⟨rfl, by simp [Segment.Inside, Segment.endAddress]⟩
    exact (Assembly.steps_codeInside hstart hlines).2
  replace hsteps := hsteps hclean
  constructor
  · have hunit := hsteps (unitLines cpu (SourceLine.ofText source)) [] (List.append_nil _).symm
    have haddressed := Assembly.addressed_steps hunit
    have hunitInside := hinside hunit
    generalize ({ cpu } : Assembly).steps (unitLines cpu (SourceLine.ofText source)) = a
      at hfinish haddressed hunitInside
    have hextent := (a.warnAfterEnd rest).resolved_extent
    simp only [Assembly.warnAfterEnd_frame] at hextent
    rw [hfinish, Assembly.finish_eq]
    refine ⟨_, rfl, ?_⟩
    intro l hl hpos
    obtain ⟨operands, hmem⟩ := Assembly.exists_line_of_mem_resolved hl
    rw [Assembly.lines_warnAfterEnd] at hmem
    rw [hextent.offset]
    obtain ⟨hle, hexact, hfull⟩ := haddressed.exact hunitInside hmem hpos
    refine ⟨hle, hexact, hfull, ?_⟩
    rw [(a.warnAfterEnd_frame rest).2.1]
    exact haddressed.label { l with operands } hmem
  · intro before line after label location origin comment hsplit hread hsize
    have hbefore := hsteps before (line :: after) hsplit
    have hline := hsteps (before ++ [line]) after (by rw [hsplit]; simp)
    have hbeforeInside := hinside hbefore
    rw [Assembly.steps_concat] at hline ⊢
    generalize ({ cpu } : Assembly).steps before = a at *
    rcases a.step_cases (hline.trans hbefore.symm) with
      ⟨hbody, -⟩ | ⟨first, label', statement, comment', -, hread', heq⟩
    · rw [Assembly.read_of_body_eq_nil _ hbody] at hread
      cases hread
    · cases hread.symm.trans hread'
      rw [heq] at hline ⊢
      exact Assembly.endAddress_execute_org location hbeforeInside hsize
        (hline.trans hbefore.symm)

/-- A label on the last byte of the machine and one behind it, with an ORG 0 between them. -/
theorem address_eq_of_last_byte :
    let source := "ORG 65533\nNOP\nORG 65535\nX: NOP\nORG 0\nY:"
    (assemble .intel8080 "MAIN" source).2.errors = 0 ∧
      ∃ code x y, (assemble .intel8080 "MAIN" source).1.object.get? .code = some code ∧
        (assemble .intel8080 "MAIN" source).1.lines.map (·.label.map Node.text) =
          [none, none, none, some "X", none, some "Y"] ∧
        (assemble .intel8080 "MAIN" source).1.lines[3]? = some x ∧
        (assemble .intel8080 "MAIN" source).1.lines[5]? = some y ∧
        x.place.address.toNat = code.offset.toNat + x.place.start ∧
        code.offset.toNat + y.place.start = 0x10000 ∧ y.place.address = 0 := by
  intro source
  have hclean : (assemble .intel8080 "MAIN" source).2.errors = 0 := by decide +kernel
  obtain ⟨⟨code, hcode, hlines⟩, -⟩ := address_eq_and_org_exact .intel8080 "MAIN" source hclean
  have hoffset : ((assemble .intel8080 "MAIN" source).1.object.get? .code).map (·.offset.toNat) =
      some 65533 := by
    decide +kernel
  rw [hcode, Option.map_some, Option.some.injEq] at hoffset
  have hx : (assemble .intel8080 "MAIN" source).1.lines[3]?.map (·.place.start) = some 2 := by
    decide +kernel
  have hy : (assemble .intel8080 "MAIN" source).1.lines[5]?.map (·.place.start) = some 3 := by
    decide +kernel
  obtain ⟨x, hx, hxstart⟩ := Option.map_eq_some_iff.mp hx
  obtain ⟨y, hy, hystart⟩ := Option.map_eq_some_iff.mp hy
  refine ⟨hclean, code, x, y, hcode, by decide +kernel, hx, hy, ?_, by omega, ?_⟩
  · exact (hlines x (List.mem_of_getElem? hx) (by omega)).2.1.mpr (by omega)
  · exact (hlines y (List.mem_of_getElem? hy) (by omega)).2.2.1 (by omega)

end MicroAsm
