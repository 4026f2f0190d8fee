import MicroAsm.Proofs.Assembly.Mirroring
import MicroAsm.Proofs.Assembly.Tiling

/-!
# Trees and code agree

In a unit without errors every operand of an instruction or of data can be used, and a node that is
there to hold a value holds the one that stands in the code, whether it was known on its line or
only at the end.
-/

namespace MicroAsm

/-- The fields of the operands of a line: those of its instruction, or one for each item of data. -/
def Line.fields (l : Line) : List Field :=
  match l.statement.kind with
  | .opcode => ((Cpu.intel8085.instruction? l.statement.text).map (·.family.fields)).getD []
  | .db => Width.byte.fields 0 l.operands.length
  | .dw => Width.word.fields 0 l.operands.length
  | _ => []

/-- The line holds data or an instruction. -/
def Line.HasBytes (l : Line) : Prop :=
  l.statement.kind = .opcode ∨ l.statement.kind = .db ∨ l.statement.kind = .dw

/-- The last pass completes the bytes of the line, and if it holds data or an instruction, its
operands agree with them then. -/
def Line.Reflects (last : SymbolTable) (code : Segment) (l : Line) : Prop :=
  (∃ expected, Patching.Completes last l.place l.operands 0 (code.bytesAt l.place) expected) ∧
    (l.HasBytes →
      Patching.Mirrors last l.place l.operands 0 (code.bytesAt l.place) l.fields)

lemma Cpu.instruction?_mnemonic {cpu : Cpu} {i : Instruction} (hi : i ∈ cpu.instructions) :
    Cpu.intel8085.instruction? i.mnemonic = some i := by
  have hupper : ∀ i ∈ Cpu.intel8085.instructions, Text.upper i.mnemonic = i.mnemonic := by
    decide +kernel
  have hi' := cpu.instructions_subset hi
  exact instruction?_of_mem hi' (hupper i hi')

namespace Assembly

variable {a : Assembly} {label comment : Option Token} {statement : Statement}
  {location : Location} {last : SymbolTable}

/-! ### One line -/

/-- A statement that puts bytes into the code without an error. -/
lemma reflects_of_put {e : Emission} {node : Node} {location' : Location} {fields : List Field}
    (hnode : node.kind ≠ .org)
    (hexecute : a.execute a.code.locationCounter label statement =
      ((a.defineLabel label a.code.locationCounter).put e location', node, e.operands))
    (h : (a.execute a.code.locationCounter label statement).1.log.errors = a.log.errors)
    (hfields : (a.lineOf location label statement comment).fields = fields)
    (hmirrors : ∀ place : Placement, place.address = a.code.locationCounter →
      errorCount e.messages = 0 → e.emits = true ∧
        Patching.Mirrors last place e.operands 0 e.bytes fields) :
    (a.lineOf location label statement comment).Reflects last
      (a.execute a.code.locationCounter label statement).1.code := by
  have hlabel := a.errors_le_defineLabel label a.code.locationCounter
  have hle := (a.defineLabel label a.code.locationCounter).errors_le_put e location'
  rw [hexecute] at h
  simp only at h
  have hclean : errorCount e.messages = 0 := by omega
  have hemits := (hmirrors { address := a.code.locationCounter } rfl hclean).1
  obtain ⟨hcode, hplace⟩ := @code_and_placement_put a a.code.locationCounter location' label
    e node hnode hemits
  have hline : (a.lineOf location label statement comment).place =
      { address := a.code.locationCounter, start := a.code.size, size := e.bytes.length } := by
    rw [lineOf, hexecute, hplace]
  have hoperands : (a.lineOf location label statement comment).operands = e.operands := by
    rw [lineOf, hexecute]
  have hbytes : (a.execute a.code.locationCounter label statement).1.code.bytesAt
      (a.lineOf location label statement comment).place = e.bytes := by
    rw [hexecute, hcode, hline]
    exact Segment.bytesAt_eq ((a.code.toList_append e.bytes).trans (List.append_nil _).symm) rfl rfl
  have hresult := (hmirrors _ (congrArg Placement.address hline) hclean).2
  rw [Line.Reflects, hbytes, hoperands, hfields]
  refine ⟨?_, fun _ => hresult⟩
  obtain ⟨expected, hcompletes, -⟩ := hresult
  exact ⟨expected, hcompletes⟩

/-- A statement that puts no bytes of its own into the code. -/
lemma reflects_of_settled (code : Segment)
    (hsettled : ∀ o ∈ (a.execute a.code.locationCounter label statement).2.2, o.deferred = none)
    (hkind : ¬(a.lineOf location label statement comment).HasBytes) :
    (a.lineOf location label statement comment).Reflects last code :=
  ⟨⟨_, Patching.completes_of_settled hsettled _⟩, fun h => absurd h hkind⟩

/-- A line without an error has its operands agree with its bytes at the end. -/
lemma reflects_execute {line : SourceLine}
    (hread : line.read a.cpu = .accepted label statement comment)
    (h : (a.execute a.code.locationCounter label statement).1.log.errors = a.log.errors) :
    (a.lineOf location label statement comment).Reflects last
      (a.execute a.code.locationCounter label statement).1.code := by
  cases statement with
  | data width location' items =>
    have hsuits := SourceLine.suits_of_read hread
    have hfields : (a.lineOf location label (.data width location' items) comment).fields =
        width.fields 0 (Item.emissions (a.defineLabel label a.code.locationCounter).symbols
          a.code.locationCounter width 0 items).operands.length := by
      cases width <;> rfl
    refine reflects_of_put (by cases width <;> simp [Width.directive]) rfl h hfields ?_
    intro place hplace hclean
    refine ⟨emits_emissions _ _ _ _ _, ?_⟩
    rw [← hplace] at hclean ⊢
    exact Patching.mirrors_items hsuits hclean
  | instruction i location' arguments =>
    obtain ⟨hi, hkinds⟩ := SourceLine.belongsTo_of_read hread
    have hfields : (a.lineOf location label (.instruction i location' arguments) comment).fields =
        i.family.fields := by
      show ((Cpu.intel8085.instruction? i.mnemonic).map (·.family.fields)).getD [] = _
      rw [Cpu.instruction?_mnemonic hi]
      rfl
    refine reflects_of_put (by simp [Instruction.node]) rfl h hfields ?_
    intro place hplace hclean
    rw [← hplace] at hclean ⊢
    exact Patching.mirrors_instruction hi hkinds hclean
  | cpu location' name =>
    exact reflects_of_settled _ (by simp [execute]) (by simp [Line.HasBytes, lineOf, execute])
  | org location' origin =>
    exact reflects_of_settled _ (by simp [execute])
      (by simp [Line.HasBytes, lineOf, execute, orgDirective])
  | assign how location' v =>
    refine reflects_of_settled _ (by simp [execute]) ?_
    cases how <;> simp [Line.HasBytes, lineOf, execute, Assignment.directive, Assignment.nodeKind]
  | empty location' | endUnit location' =>
    exact reflects_of_settled _ (by simp [execute]) (by simp [Line.HasBytes, lineOf, execute])

/-! ### Runs -/

/-- The operands of an accepted line without an error agree with its bytes at the end, and those of
the lines in front of it still do. -/
lemma reflects_accept {line : SourceLine} {first : Token} (htiled : Tiled a)
    (hreflects : ∀ l ∈ a.lines, l.Reflects last a.code)
    (hread : line.read a.cpu = .accepted label statement comment)
    (h : (a.accept first.location label statement comment).log.errors = a.log.errors) :
    ∀ l ∈ (a.accept first.location label statement comment).lines,
      l.Reflects last (a.accept first.location label statement comment).code := by
  rw [lines_accept, List.forall_mem_append, List.forall_mem_singleton]
  refine ⟨?_, reflects_execute hread h⟩
  intro l hl
  obtain ⟨bytes, hbytes⟩ := @exists_toList_execute a label statement
  rw [List.append_assoc] at hbytes
  have hsame : (a.accept first.location label statement comment).code.bytesAt l.place =
      a.code.bytesAt l.place :=
    Segment.bytesAt_of_append hbytes (htiled.tiles.le_last l hl)
  rw [Line.Reflects, hsame]
  exact hreflects l hl

lemma reflects_steps (last : SymbolTable) {cpu : Cpu} {lines : List SourceLine}
    (hclean : (({ cpu } : Assembly).steps lines).log.errors = 0) :
    ∀ l ∈ (({ cpu } : Assembly).steps lines).lines,
      l.Reflects last (({ cpu } : Assembly).steps lines).code := by
  have hsteps := steps_induction (P := fun _ a => Tiled a ∧ ∀ l ∈ a.lines, l.Reflects last a.code)
    ({ cpu } : Assembly) ⟨tiled_steps cpu [], by simp [Assembly.lines]⟩ ?_ hclean
  · exact hsteps.2
  · rintro done b line ⟨htiled, hreflects⟩ hstep
    refine ⟨htiled.step line, ?_⟩
    rcases b.step_cases hstep with ⟨-, heq⟩ | ⟨first, label, statement, comment, -, hread, heq⟩
    · rw [heq]
      exact hreflects
    · rw [heq] at hstep ⊢
      exact reflects_accept htiled hreflects hread hstep

/-! ### The last pass -/

lemma lines_resolved (a : Assembly) :
    a.resolved.1.filterMap Record.line? = a.lines.map (Line.resolved a.symbols) :=
  Patching.lines_resolveRecords _ _ _

/-- After a last pass without an error the operands agree with the code. -/
lemma agrees_resolved (htiled : Tiled a)
    (hreflects : ∀ l ∈ a.lines, l.Reflects a.symbols a.code)
    (hclean : a.resolved.2.log.errors = a.log.errors) {l : Line} (hl : l ∈ a.lines)
    (hkind : l.HasBytes) :
    List.Forall₂ (fun o field => o.node.kind.Agrees (a.resolved.2.code.bytesAt l.place) field)
      (l.resolved a.symbols).operands l.fields := by
  have hpass := Patching.resolveRecords_completes ⟨a.code, a.log⟩ htiled.tiles.ordered
    htiled.tiles.le_last (fun l hl => (hreflects l hl).1) hclean
  obtain ⟨expected, hcompletes, hagrees⟩ := (hreflects l hl).2 hkind
  obtain ⟨-, hagrees⟩ := hagrees _ (hpass.1 l hl expected hcompletes)
  have hresult := hagrees [] [] rfl
  rw [List.nil_append, List.append_nil] at hresult
  rw [Line.resolved, List.forall₂_map_left_iff]
  exact hresult

end Assembly

/-- In a unit without errors no operand of an instruction or of data is invalid, and a node that is
there to hold a value holds the one in its field of the bytes of the line. -/
theorem operands_agree_with_code (cpu : Cpu) (moduleName source : String)
    (hclean : (assemble cpu moduleName source).2.errors = 0) (l : Line)
    (hl : l ∈ (assemble cpu moduleName source).1.lines)
    (hkind : l.statement.kind = .opcode ∨ l.statement.kind = .db ∨ l.statement.kind = .dw) :
    ∃ code, (assemble cpu moduleName source).1.object.get? .code = some code ∧
      l.place.start + l.place.size ≤ code.size ∧
      List.Forall₂
        (fun o field => o.node.kind.isInvalid = false ∧ ∀ value ∈ o.node.kind.held?,
          ∃ n, value = some n ∧ field.read (code.bytesAt l.place) = some n)
        l.operands l.fields := by
  obtain ⟨done, rest, -, hfinish, hsteps⟩ := assemble_eq_finish cpu moduleName source
  have hclean' := hsteps hclean
  have htiled := (Assembly.tiled_steps cpu done).warnAfterEnd rest
  have herrors := (({ cpu } : Assembly).steps done).errors_warnAfterEnd rest
  have hreflects : ∀ l ∈ ((({ cpu } : Assembly).steps done).warnAfterEnd rest).lines,
      l.Reflects ((({ cpu } : Assembly).steps done).warnAfterEnd rest).symbols
        ((({ cpu } : Assembly).steps done).warnAfterEnd rest).code := by
    rw [Assembly.lines_warnAfterEnd, (Assembly.warnAfterEnd_frame _ rest).2.2.1]
    exact Assembly.reflects_steps _ hclean'
  rw [hfinish, Assembly.finish_eq] at hclean hl ⊢
  rw [hclean'] at herrors
  generalize (({ cpu } : Assembly).steps done).warnAfterEnd rest = a at *
  refine ⟨a.resolved.2.code, rfl, htiled.tiles_resolved.le_last l hl, ?_⟩
  have hmem : l ∈ a.lines.map (Line.resolved a.symbols) := by
    rw [← a.lines_resolved]
    exact hl
  obtain ⟨l, hl', rfl⟩ := List.mem_map.mp hmem
  have hfields : (l.resolved a.symbols).fields = l.fields := by
    simp [Line.fields, Line.resolved]
  rw [hfields]
  exact Assembly.agrees_resolved htiled hreflects (hclean.trans herrors.symm) hl' hkind

/-- Characters, a symbol that is defined behind the line, and the location counter. -/
theorem operands_agree_with_code_of_forward_symbol :
    let source := "MVI A,X\nDB 'ab',X,$\nX EQU 5"
    ∃ l ∈ (assemble .intel8080 "MAIN" source).1.lines,
      l.operands.map (·.node.kind) =
        [.data8 97, .data8 98, .refData (some 5), .locationCounter 2] ∧
      l.fields = [.byte 0, .byte 1, .byte 2, .byte 3] ∧
      ∃ code, (assemble .intel8080 "MAIN" source).1.object.get? .code = some code ∧
        l.place.start + l.place.size ≤ code.size ∧
        List.Forall₂
          (fun o field => o.node.kind.isInvalid = false ∧ ∀ value ∈ o.node.kind.held?,
            ∃ n, value = some n ∧ field.read (code.bytesAt l.place) = some n)
          l.operands l.fields := by
  intro source
  have hline : ∃ l ∈ (assemble .intel8080 "MAIN" source).1.lines, l.statement.kind = .db ∧
      l.operands.map (·.node.kind) =
        [.data8 97, .data8 98, .refData (some 5), .locationCounter 2] ∧
      l.fields = [.byte 0, .byte 1, .byte 2, .byte 3] := by
    decide +kernel
  obtain ⟨l, hl, hkind, hoperands, hfields⟩ := hline
  exact ⟨l, hl, hoperands, hfields,
    operands_agree_with_code _ _ _ (by decide +kernel) l hl (Or.inr (Or.inl hkind))⟩

end MicroAsm
