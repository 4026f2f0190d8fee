import MicroAsm.Proofs.Assembly.Addresses
import MicroAsm.Proofs.Assembly.Timely
import MicroAsm.Proofs.Statement.Bare

/-!
# The bytes of a unit

Without errors the code of a unit is made of the bytes of its lines, one behind the other. The
layout in front of each line and the final symbols decide about them, and the places of the tokens
have no say in it.
-/

namespace MicroAsm

/-! ### Lines -/

/-- The value of a directive, which cannot wait. -/
def Statement.urgent? : Statement → Option Value
  | .org _ v | .assign _ _ v => some v
  | _ => none

/-- The statement gives a variable a value. -/
def Statement.assignsVariable : Statement → Bool
  | .assign .set _ _ => true
  | _ => false

namespace Layout

/-- A line can do what it says: the value of a directive is known, and the label is new or a
variable that gets another value. -/
def Admits (y : Layout) (label : Option Token) (statement : Statement) : Prop :=
  (∀ v ∈ statement.urgent?, (v.evaluate y.symbols y.here).1.isSome = true) ∧
    ∀ t ∈ label, ∀ s ∈ y.symbols.get? t.value,
      s.kind = .set ∧ statement.assignsVariable = true

instance (y : Layout) (label : Option Token) (statement : Statement) :
    Decidable (y.Admits label statement) :=
  inferInstanceAs (Decidable (_ ∧ _))

/-- The bytes of a line behind the gap that it leaves, in a unit that ends with the symbols `last`.
A line that is rejected or cannot do what it says has none. -/
def lineBytes (last : SymbolTable) (y : Layout) (line : SourceLine) : Option (List UInt8) :=
  match line.read y.cpu with
  | .accepted label statement _ =>
    if y.Admits label statement then
      (Timely.statement (y.define label y.here).symbols last y.here statement).map
        (List.replicate (y.gapOf statement) 0 ++ ·)
    else none
  | .rejected _ _ _ => none

/-- The bytes of lines one behind the other. -/
def bytes (last : SymbolTable) (y : Layout) : List SourceLine → Option (List UInt8)
  | [] => some []
  | line :: lines =>
    (y.lineBytes last line).bind fun bs => ((y.step line).bytes last lines).map (bs ++ ·)

lemma bytes_append (last : SymbolTable) (y : Layout) (lines lines' : List SourceLine) :
    y.bytes last (lines ++ lines') =
      (y.bytes last lines).bind fun bs => ((y.steps lines).bytes last lines').map (bs ++ ·) := by
  induction lines generalizing y with
  | nil => simp [bytes, steps]
  | cons line lines ih =>
    have hsteps : y.steps (line :: lines) = (y.step line).steps lines := rfl
    rw [List.cons_append, bytes, bytes, ih, hsteps]
    cases y.lineBytes last line with
    | none => rfl
    | some bs =>
      cases (y.step line).bytes last lines with
      | none => rfl
      | some bs' => simp [Function.comp_def]

lemma bytes_cons_eq_some {last : SymbolTable} {y : Layout} {line : SourceLine}
    {lines : List SourceLine} {bs : List UInt8} (h : y.bytes last (line :: lines) = some bs) :
    ∃ first rest, y.lineBytes last line = some first ∧
      (y.step line).bytes last lines = some rest ∧ bs = first ++ rest := by
  obtain ⟨first, hfirst, h⟩ := Option.bind_eq_some_iff.mp h
  obtain ⟨rest, hrest, rfl⟩ := Option.map_eq_some_iff.mp h
  exact ⟨first, rest, hfirst, hrest, rfl⟩

lemma bytes_append_eq_some {last : SymbolTable} {y : Layout} {lines lines' : List SourceLine}
    {bs : List UInt8} (h : y.bytes last (lines ++ lines') = some bs) :
    ∃ first rest, y.bytes last lines = some first ∧
      (y.steps lines).bytes last lines' = some rest ∧ bs = first ++ rest := by
  rw [bytes_append] at h
  obtain ⟨first, hfirst, h⟩ := Option.bind_eq_some_iff.mp h
  obtain ⟨rest, hrest, rfl⟩ := Option.map_eq_some_iff.mp h
  exact ⟨first, rest, hfirst, hrest, rfl⟩

lemma bytes_concat (last : SymbolTable) (y : Layout) (lines : List SourceLine)
    (line : SourceLine) :
    y.bytes last (lines ++ [line]) =
      (y.bytes last lines).bind fun bs => ((y.steps lines).lineBytes last line).map (bs ++ ·) := by
  rw [bytes_append]
  simp [bytes]

lemma lineBytes_of_read {y : Layout} {line : SourceLine} {label comment : Option Token}
    {statement : Statement} (hread : line.read y.cpu = .accepted label statement comment)
    (hadmits : y.Admits label statement) (last : SymbolTable) :
    y.lineBytes last line =
      (Timely.statement (y.define label y.here).symbols last y.here statement).map
        (List.replicate (y.gapOf statement) 0 ++ ·) := by
  rw [lineBytes, hread]
  exact if_pos hadmits

/-- A blank line has no bytes and changes nothing. -/
lemma blank_line (last : SymbolTable) (y : Layout) {line : SourceLine} (h : line.body = []) :
    y.lineBytes last line = some [] ∧ y.step line = y := by
  have hread := Assembly.read_of_body_eq_nil y.cpu h
  have hadmits : y.Admits none (.empty line.stop.location) := ⟨by simp [Statement.urgent?], by simp⟩
  rw [lineBytes_of_read hread hadmits, step, hread]
  exact ⟨rfl, rfl⟩

end Layout

namespace Assembly

variable {a : Assembly} {label comment : Option Token} {statement : Statement}

/-- The label of a line is defined in a state with the symbols in front of the line and with no
fewer errors, unless the line is an assignment. -/
lemma exists_defineLabel_execute (here : UInt16)
    (hassign : ∀ how location v, statement ≠ .assign how location v) :
    ∃ (b : Assembly) (value : UInt16), b.symbols = a.symbols ∧ a.log.errors ≤ b.log.errors ∧
      (b.defineLabel label value).log.errors ≤ (a.execute here label statement).1.log.errors := by
  cases statement with
  | assign how location v => exact absurd rfl (hassign how location v)
  | empty location | endUnit location => exact ⟨a, here, rfl, Nat.le_refl _, Nat.le_refl _⟩
  | cpu location name =>
    refine ⟨a, here, rfl, Nat.le_refl _, ?_⟩
    simp only [execute]
    split
    · exact Nat.le_refl _
    · rw [errors_error]
      exact Nat.le_succ _
  | org location origin =>
    rcases hvalue : origin.evaluate a.symbols here with ⟨value, messages⟩
    simp only [execute, hvalue]
    cases value with
    | none =>
      exact ⟨a.report messages, (a.report messages).code.locationCounter, rfl, by simp,
        Nat.le_refl _⟩
    | some target =>
      have hle := errors_le_moveTo (a.report messages) target origin.location
      rw [errors_report] at hle
      refine ⟨(a.report messages).moveTo target origin.location,
        ((a.report messages).moveTo target origin.location).code.locationCounter,
        (moveTo_frame _ _ _).2.1, by omega, Nat.le_refl _⟩
  | data width location items =>
    refine ⟨a, here, rfl, Nat.le_refl _, Nat.le_trans ?_ (errors_le_put _ _ _)⟩
    exact Nat.le_add_right _ _
  | instruction i location arguments =>
    refine ⟨a, here, rfl, Nat.le_refl _, Nat.le_trans ?_ (errors_le_put _ _ _)⟩
    exact Nat.le_add_right _ _

/-- A directive without an error knows its value. -/
lemma evaluate_isSome_of_execute {here : UInt16}
    (h : (a.execute here label statement).1.log.errors = a.log.errors) {v : Value}
    (hv : v ∈ statement.urgent?) : (v.evaluate a.symbols here).1.isSome = true := by
  rcases evaluate_cases v a.symbols here with ⟨target, hvalue⟩ | ⟨ms, hvalue, hms⟩
  · rw [hvalue]
    rfl
  · -- The complaint about the value is an error.
    cases statement with
    | org location origin =>
      cases hv
      simp only [execute, hvalue] at h
      have hle := errors_le_defineLabel (a.report ms) label (a.report ms).code.locationCounter
      rw [errors_report] at hle
      omega
    | assign how location v' =>
      cases hv
      simp only [execute, hvalue] at h
      have hle := errors_le_assign (a.report ms) how location label none
      rw [errors_report] at hle
      omega
    | _ => cases hv

/-- A line without an error can do what it says. -/
lemma admits_of_execute
    (h : (a.execute a.code.locationCounter label statement).1.log.errors = a.log.errors) :
    a.layout.Admits label statement := by
  have hvalue : ∀ v ∈ statement.urgent?,
      (v.evaluate a.symbols a.code.locationCounter).1.isSome = true :=
    fun v hv => evaluate_isSome_of_execute h hv
  refine ⟨by rw [here_layout]; exact hvalue, ?_⟩
  intro t ht s hs
  obtain rfl := Option.mem_def.mp ht
  have hs' : a.symbols.get? t.value = some s := hs
  by_cases hassign : ∃ how location v, statement = .assign how location v
  · obtain ⟨how, location, v, rfl⟩ := hassign
    rcases evaluate_cases v a.symbols a.code.locationCounter with
      ⟨target, heval⟩ | ⟨ms, heval, -⟩
    · simp only [execute, heval, report_nil] at h
      cases how with
      | equ =>
        obtain ⟨hnew, -⟩ := SymbolTable.add_eq_ok (a.ok_of_withSymbols h)
        rw [hnew] at hs'
        cases hs'
      | set =>
        rcases SymbolTable.assign_eq_ok (a.ok_of_withSymbols h) with ⟨hnew, -⟩ | ⟨s', hs'', hkind⟩
        · rw [hnew] at hs'
          cases hs'
        · cases hs''.symm.trans hs'
          exact ⟨hkind, rfl⟩
    · have hsome := hvalue v rfl
      rw [heval] at hsome
      cases hsome
  · obtain ⟨b, value, hsymbols, hle, hlabel⟩ := @exists_defineLabel_execute a (some t) statement
      a.code.locationCounter fun how location v heq => hassign ⟨how, location, v, heq⟩
    have hle' := b.errors_le_defineLabel (some t) value
    obtain ⟨hnew, -⟩ := SymbolTable.add_eq_ok (b.ok_of_withSymbols (Nat.le_antisymm
      (Nat.le_trans hlabel (Nat.le_trans (Nat.le_of_eq h) hle)) hle'))
    rw [hsymbols, hs'] at hnew
    cases hnew

/-- A move leaves a gap of zeros. -/
lemma toList_moveTo (target : UInt16) (location : Location) :
    (a.moveTo target location).code.bytes.toList =
      a.code.bytes.toList ++ List.replicate (a.layout.gapTo target) 0 := by
  have hlayout : a.layout.size = a.code.size := rfl
  rw [moveTo, Layout.gapTo, hlayout, here_layout]
  by_cases hsize : a.code.size = 0
  · rw [if_pos hsize, if_pos hsize]
    exact (List.append_nil _).symm
  · rw [if_neg hsize, if_neg hsize]
    by_cases hle : a.code.locationCounter ≤ target
    · rw [if_pos hle, (emit_frame _ _ _).2.2.1, Segment.toList_append]
    · have hback : target.toNat - a.code.locationCounter.toNat = 0 := by
        rw [UInt16.le_iff_toNat_le] at hle
        omega
      rw [if_neg hle, hback]
      exact (List.append_nil _).symm

/-- A line has its bytes in the code behind the gap that it leaves, and the last pass turns them
into the expected ones. -/
def Delivers (a after : Assembly) (l : Line) (gap : Nat) (last : SymbolTable)
    (expected : Option (List UInt8)) : Prop :=
  ∃ bytes, after.code.bytes.toList = a.code.bytes.toList ++ List.replicate gap 0 ++ bytes ∧
    Patching.Completes last l.place l.operands 0 bytes expected

variable {location : Location} {last : SymbolTable} {expected : Option (List UInt8)}

/-- A statement that puts bytes into the code without an error. -/
lemma delivers_of_put {e : Emission} {node : Node} {location' : Location}
    (hnode : node.kind ≠ .org)
    (hexecute : a.execute a.code.locationCounter label statement =
      ((a.defineLabel label a.code.locationCounter).put e location', node, e.operands))
    (h : (a.execute a.code.locationCounter label statement).1.log.errors = a.log.errors)
    (hcompletes : ∀ place : Placement, place.address = a.code.locationCounter →
      errorCount e.messages = 0 → e.emits = true ∧
        Patching.Completes last place e.operands 0 e.bytes expected) :
    Delivers a (a.execute a.code.locationCounter label statement).1
      (a.lineOf location label statement comment) 0 last expected := by
  have hlabel := a.errors_le_defineLabel label a.code.locationCounter
  have hle := (a.defineLabel label a.code.locationCounter).errors_le_put e location'
  rw [hexecute] at h
  simp only at h
  have hclean : errorCount e.messages = 0 := by omega
  have hemits := (hcompletes { address := a.code.locationCounter } rfl hclean).1
  obtain ⟨hcode, hplace⟩ := @code_and_placement_put a a.code.locationCounter location' label
    e node hnode hemits
  refine ⟨e.bytes, ?_, ?_⟩
  · rw [hexecute, hcode, Segment.toList_append]
    simp
  · rw [lineOf, hexecute, hplace]
    exact (hcompletes _ rfl hclean).2

/-- A statement without an error has its bytes in the code. -/
lemma delivers_execute (hbelongs : statement.BelongsTo a.cpu)
    (h : (a.execute a.code.locationCounter label statement).1.log.errors = a.log.errors) :
    Delivers a (a.execute a.code.locationCounter label statement).1
      (a.lineOf location label statement comment) (a.layout.gapOf statement) last
      (Timely.statement (a.layout.define label a.layout.here).symbols last a.layout.here
        statement) := by
  have hsymbols : (a.layout.define label a.layout.here).symbols =
      (a.defineLabel label a.code.locationCounter).symbols := by
    rw [here_layout, ← layout_defineLabel]
    rfl
  rw [hsymbols, here_layout]
  cases statement with
  | data width location' items =>
    refine delivers_of_put (by cases width <;> simp [Width.directive]) rfl h ?_
    intro place hplace hclean
    refine ⟨emits_emissions _ _ _ _ _, ?_⟩
    rw [← hplace] at hclean ⊢
    exact Patching.completes_timely_items hclean
  | instruction i location' arguments =>
    refine delivers_of_put (by simp [Instruction.node]) rfl h ?_
    intro place hplace hclean
    rw [← hplace] at hclean ⊢
    exact Patching.completes_timely_instruction hbelongs.1 hbelongs.2 hclean
  | org location' origin =>
    refine ⟨[], ?_, Patching.completes_of_settled (by simp [lineOf, execute]) []⟩
    rcases hvalue : origin.evaluate a.symbols a.code.locationCounter with ⟨value, messages⟩
    have hgap : a.layout.gapOf (.org location' origin) = (value.map a.layout.gapTo).getD 0 := by
      rw [← here_layout] at hvalue
      exact congrArg (fun r => (r.1.map a.layout.gapTo).getD 0) hvalue
    simp only [execute, hvalue, (defineLabel_frame _ _ _).2.1, hgap, List.append_nil]
    cases value with
    | none => exact (List.append_nil _).symm
    | some target => exact toList_moveTo target origin.location
  | cpu location' name =>
    refine ⟨[], ?_, Patching.completes_of_settled (by simp [lineOf, execute]) []⟩
    simp only [execute]
    split <;> simp [Layout.gapOf]
  | empty location' | endUnit location' | assign how location' v =>
    refine ⟨[], ?_, Patching.completes_of_settled (by simp [lineOf, execute]) []⟩
    simp [execute, Layout.gapOf]

end Assembly

/-! ### Units -/

lemma Patching.resolveRecords_append (p : Patching) (symbols : SymbolTable)
    (rs rs' : List Record) :
    (p.resolveRecords symbols (rs ++ rs')).2 =
      ((p.resolveRecords symbols rs).2.resolveRecords symbols rs').2 := by
  induction rs generalizing p with
  | nil => rfl
  | cons r rs ih =>
    cases r with
    | remnant r => exact ih p
    | line l => exact ih (p.resolveOperands symbols l.place l.operands).2

namespace Assembly

variable {a : Assembly} {last : SymbolTable} {cpu : Cpu} {done : List SourceLine}
  {line : SourceLine}

/-- The last pass turns the code into the expected bytes if it meets no error. It leaves alone what
stands behind the code. -/
def Promises (last : SymbolTable) (a : Assembly) (expected : Option (List UInt8)) : Prop :=
  ∀ (p : Patching) (post : List UInt8), p.code.bytes.toList = a.code.bytes.toList ++ post →
    (p.resolveRecords last a.records.toList).2.log.errors = p.log.errors →
    ∃ bs, expected = some bs ∧ bs.length = a.code.size ∧
      (p.resolveRecords last a.records.toList).2.code.bytes.toList = bs ++ post

/-- An accepted line without an error comes behind what is promised. -/
lemma Promises.accept {first : Token} {label comment : Option Token} {statement : Statement}
    (h : Promises last a (({ cpu } : Layout).bytes last done))
    (hlayout : a.layout = ({ cpu } : Layout).steps done)
    (hread : line.read a.cpu = .accepted label statement comment)
    (hclean : (a.accept first.location label statement comment).log.errors = a.log.errors) :
    Promises last (a.accept first.location label statement comment)
      (({ cpu } : Layout).bytes last (done ++ [line])) := by
  have hbelongs := SourceLine.belongsTo_of_read hread
  obtain ⟨bytes, hcode, hcompletes⟩ :=
    @delivers_execute a label comment statement first.location last hbelongs hclean
  have hstart := (a.place_lineOf hbelongs first.location label comment).2
  have hline := Layout.lineBytes_of_read (y := a.layout) hread (admits_of_execute hclean) last
  rw [Layout.bytes_concat, ← hlayout, hline]
  intro p post hbytes herrors
  have hrecords : (a.accept first.location label statement comment).records.toList =
      a.records.toList ++ [.line (a.lineOf first.location label statement comment)] := by
    rw [accept_eq, record, execute_records, Array.toList_push]
  rw [hrecords, Patching.resolveRecords_append] at herrors ⊢
  have hle := p.errors_le_resolveRecords last a.records.toList
  have hle' := (p.resolveRecords last a.records.toList).2.errors_le_resolveRecords last
    [.line (a.lineOf first.location label statement comment)]
  obtain ⟨bs, hbs, hlength, hfront⟩ := h p (List.replicate (a.layout.gapOf statement) 0 ++
    bytes ++ post) (by rw [hbytes, accept_eq, record, hcode]; simp) (by omega)
  -- The operands of the line come last, behind the code that was promised and the gap.
  obtain ⟨new, hnew, hnewLength, hresult⟩ :=
    hcompletes (p.resolveRecords last a.records.toList).2
      (bs ++ List.replicate (a.layout.gapOf statement) 0) post (by rw [hfront]; simp)
      (by rw [List.length_append, List.length_replicate, hlength, hstart, Nat.add_zero])
      (herrors.trans (Nat.le_antisymm (by omega) hle).symm)
  refine ⟨bs ++ (List.replicate (a.layout.gapOf statement) 0 ++ new), ?_, ?_, ?_⟩
  · rw [hbs, hnew]
    rfl
  · have hsize : (a.accept first.location label statement comment).code.size =
        (a.code.bytes.toList ++ List.replicate (a.layout.gapOf statement) 0 ++ bytes).length := by
      rw [← hcode]
      rfl
    rw [hsize]
    simp only [List.length_append, hnewLength, hlength, Segment.size_eq_length, Nat.add_assoc]
  · rw [← List.append_assoc]
    exact hresult

lemma Promises.step (h : Promises last a (({ cpu } : Layout).bytes last done))
    (hlayout : a.layout = ({ cpu } : Layout).steps done)
    (hclean : (a.step line).log.errors = a.log.errors) :
    Promises last (a.step line) (({ cpu } : Layout).bytes last (done ++ [line])) := by
  rcases a.step_cases hclean with
    ⟨hbody, heq⟩ | ⟨first, label, statement, comment, -, hread, heq⟩
  · have hblank : ({ cpu } : Layout).bytes last (done ++ [line]) =
        ({ cpu } : Layout).bytes last done := by
      rw [Layout.bytes_concat, (Layout.blank_line last _ hbody).1]
      cases ({ cpu } : Layout).bytes last done <;> simp
    rw [heq, hblank]
    exact h
  · rw [heq] at hclean ⊢
    exact h.accept hlayout hread hclean

lemma promises_steps (last : SymbolTable) {lines : List SourceLine}
    (hclean : (({ cpu } : Assembly).steps lines).log.errors = 0) :
    Promises last (({ cpu } : Assembly).steps lines) (({ cpu } : Layout).bytes last lines) := by
  have hsteps := steps_induction (P := fun done a => a.layout = ({ cpu } : Layout).steps done ∧
    Promises last a (({ cpu } : Layout).bytes last done)) ({ cpu } : Assembly) ?_ ?_ hclean
  · exact hsteps.2
  · refine ⟨rfl, ?_⟩
    intro p post hbytes _
    exact ⟨[], rfl, rfl, hbytes⟩
  · rintro done b line ⟨hlayout, hpromises⟩ hstep
    refine ⟨?_, hpromises.step hlayout hstep⟩
    rw [layout_step, Layout.steps_concat, hlayout]

end Assembly

/-- The code of a unit without errors: its address and the final symbols are those of the layout,
and its bytes are those of the lines. -/
lemma assemble_code_eq {cpu : Cpu} {moduleName source : String}
    (hclean : (assemble cpu moduleName source).2.errors = 0) :
    ∃ code, (assemble cpu moduleName source).1.object.get? .code = some code ∧
      code.offset =
        (({ cpu } : Layout).steps (unitLines cpu (SourceLine.ofText source))).offset ∧
      (assemble cpu moduleName source).1.symbols =
        (({ cpu } : Layout).steps (unitLines cpu (SourceLine.ofText source))).symbols ∧
      ({ cpu } : Layout).bytes (assemble cpu moduleName source).1.symbols
        (unitLines cpu (SourceLine.ofText source)) = some code.bytes.toList := by
  obtain ⟨rest, hfinish, hsteps⟩ := assemble_eq_unitLines cpu moduleName source
  generalize unitLines cpu (SourceLine.ofText source) = unit at *
  have hunit := hsteps hclean unit [] (List.append_nil _).symm
  have hlayout := (Assembly.laid_steps cpu unit).layout
  have hpromises := Assembly.promises_steps (({ cpu } : Assembly).steps unit).symbols hunit
  generalize ({ cpu } : Assembly).steps unit = a at *
  rw [hfinish, Assembly.finish_eq] at hclean ⊢
  have hresolved : (a.warnAfterEnd rest).resolved = Patching.resolveRecords
      ⟨(a.warnAfterEnd rest).code, (a.warnAfterEnd rest).log⟩ a.symbols a.records.toList := by
    rw [Assembly.resolved, (a.warnAfterEnd_frame rest).2.1, (a.warnAfterEnd_frame rest).2.2.2.1]
  have hextent := (a.warnAfterEnd rest).resolved_extent.offset
  rw [hresolved] at hclean hextent ⊢
  rw [(a.warnAfterEnd_frame rest).2.1]
  obtain ⟨bs, hbs, -, hresult⟩ := hpromises _ [] (by simp)
    (hclean.trans (by rw [a.errors_warnAfterEnd rest, hunit]))
  refine ⟨_, rfl, ?_, by rw [← hlayout]; rfl, ?_⟩
  · rw [hextent, (a.warnAfterEnd_frame rest).2.2.1, ← hlayout]
    rfl
  · rw [hbs, hresult, List.append_nil]

/-! ### Bare lines -/

lemma Value.evaluate_bare (v : Value) (symbols : SymbolTable) (here : UInt16) :
    (v.bare.evaluate symbols here).1 = (v.evaluate symbols here).1 := by
  have hexpr : v.bare.expr = v.expr := rfl
  rw [evaluate, evaluate, hexpr]
  cases v.expr.eval symbols here with
  | error name => rfl
  | ok n =>
    simp only
    split <;> rfl

lemma Statement.room_bare (statement : Statement) : statement.bare.room = statement.room := by
  cases statement with
  | data width location items =>
    have hitem : Item.room width ∘ Item.bare = Item.room width := by
      funext item
      cases item <;> rfl
    simp only [bare, room, List.map_map, hitem]
  | instruction i location arguments =>
    have hargument : Argument.isMemory ∘ Argument.bare = Argument.isMemory := by
      funext argument
      cases argument <;> rfl
    have hmoves : i.movesMemory (arguments.map Argument.bare) = i.movesMemory arguments := by
      rw [Instruction.movesMemory, Instruction.movesMemory, List.all_map, hargument]
    simp only [bare, room, hmoves]
  | _ => rfl

lemma Reference.instruction_bare (symbols : SymbolTable) (here : UInt16) (i : Instruction)
    (arguments : List Argument) :
    instruction symbols here i (arguments.map Argument.bare) =
      instruction symbols here i arguments := by
  match arguments with
  | [] => rfl
  | [a] =>
    cases a <;> cases hfamily : i.family <;>
      simp only [instruction, hfamily, List.map, Argument.bare] <;> rfl
  | [a, b] =>
    cases a <;> cases b <;> cases hfamily : i.family <;>
      simp only [instruction, hfamily, List.map, Argument.bare] <;> rfl
  | a :: b :: c :: arguments =>
    cases hfamily : i.family <;> simp [instruction, hfamily]

namespace Timely

variable (now last : SymbolTable) (here : UInt16)

lemma argumentsTable_bare (arguments : List Argument) :
    argumentsTable now last here (arguments.map Argument.bare) =
      argumentsTable now last here arguments := by
  rw [argumentsTable, argumentsTable, List.getLast?_map]
  cases arguments.getLast? with
  | none => rfl
  | some argument => cases argument <;> rfl

lemma statement_bare (s : Statement) :
    statement now last here s.bare = statement now last here s := by
  cases s with
  | data width location items =>
    have hitem : item now last here width ∘ Item.bare = item now last here width := by
      funext item
      cases item <;> rfl
    simp only [Statement.bare, statement, data, List.mapM_map, hitem]
  | instruction i location arguments =>
    simp only [Statement.bare, statement, argumentsTable_bare, Reference.instruction_bare]
  | _ => rfl

end Timely

namespace Layout

variable (y : Layout)

lemma define_bare (label : Option Token) (value : UInt16) :
    y.define (label.map Token.bare) value = y.define label value := by
  cases label <;> rfl

lemma execute_bare (label : Option Token) (statement : Statement) :
    y.execute (label.map Token.bare) statement.bare = y.execute label statement := by
  cases statement with
  | org location origin =>
    simp only [Statement.bare, execute, Value.evaluate_bare, define_bare]
  | assign how location v =>
    simp only [Statement.bare, execute, Value.evaluate_bare]
    cases label with
    | none => rfl
    | some t => cases (v.evaluate y.symbols y.here).1 <;> cases how <;> rfl
  | data width location items =>
    have hroom := (Statement.data width location items).room_bare
    simp only [Statement.bare] at hroom
    simp only [Statement.bare, execute, define_bare, hroom]
  | instruction i location arguments =>
    have hroom := (Statement.instruction i location arguments).room_bare
    simp only [Statement.bare] at hroom
    simp only [Statement.bare, execute, define_bare, hroom]
  | cpu location name =>
    simp only [Statement.bare, execute, define_bare]
    rfl
  | _ => simp only [Statement.bare, execute, define_bare]

/-- The places of the tokens do not count for the layout. -/
lemma step_bare (line : SourceLine) : y.step line.bare = y.step line := by
  rw [step, step, line.read_bare]
  cases line.read y.cpu with
  | accepted label statement comment => exact y.execute_bare label statement
  | rejected label fragment failure =>
    cases fragment with
    | org location | assign how location => rfl
    | _ => exact y.define_bare label y.here

lemma steps_map_bare (lines : List SourceLine) :
    y.steps (lines.map SourceLine.bare) = y.steps lines := by
  induction lines generalizing y with
  | nil => rfl
  | cons line lines ih =>
    have hsteps : ∀ l ls, y.steps (l :: ls) = (y.step l).steps ls := fun _ _ => rfl
    rw [List.map_cons, hsteps, hsteps, step_bare, ih]

lemma admits_bare (label : Option Token) (statement : Statement) :
    y.Admits (label.map Token.bare) statement.bare ↔ y.Admits label statement := by
  have hset : statement.bare.assignsVariable = statement.assignsVariable := by
    cases statement with
    | assign how location v => cases how <;> rfl
    | _ => rfl
  have hvalue : (∀ v ∈ statement.bare.urgent?, (v.evaluate y.symbols y.here).1.isSome = true) ↔
      ∀ v ∈ statement.urgent?, (v.evaluate y.symbols y.here).1.isSome = true := by
    cases statement <;> simp [Statement.bare, Statement.urgent?, Value.evaluate_bare]
  have hlabel : ∀ p : String → Prop,
      (∀ t ∈ label.map Token.bare, p t.value) ↔ ∀ t ∈ label, p t.value := by
    intro p
    cases label <;> simp [Token.bare]
  rw [Admits, Admits, hset, hvalue, hlabel fun name => ∀ s ∈ y.symbols.get? name,
    s.kind = .set ∧ statement.assignsVariable = true]

lemma lineBytes_bare (last : SymbolTable) (line : SourceLine) :
    y.lineBytes last line.bare = y.lineBytes last line := by
  rw [lineBytes, lineBytes, line.read_bare]
  cases line.read y.cpu with
  | rejected label fragment failure => rfl
  | accepted label statement comment =>
    have hgap : y.gapOf statement.bare = y.gapOf statement := by
      cases statement with
      | org location origin => simp only [Statement.bare, gapOf, Value.evaluate_bare]
      | _ => rfl
    simp only [LineReading.bare, admits_bare, Timely.statement_bare, define_bare, hgap]

lemma bytes_map_bare (last : SymbolTable) (lines : List SourceLine) :
    y.bytes last (lines.map SourceLine.bare) = y.bytes last lines := by
  induction lines generalizing y with
  | nil => rfl
  | cons line lines ih => rw [List.map_cons, bytes, bytes, lineBytes_bare, step_bare, ih]

end Layout

end MicroAsm
