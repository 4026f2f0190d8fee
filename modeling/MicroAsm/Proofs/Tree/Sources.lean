import MicroAsm.Proofs.Assembly.Rejection
import MicroAsm.Proofs.Listing.Assignments
import MicroAsm.Proofs.Tree.Planting

/-!
# Trees of sources

Whatever the lines of a source are like, what is kept of them has nodes of the right kinds, and the
last pass changes nothing but values. So the tree that is made from the records in the end has the
accepted lines below its root, in order and with their parts, and nothing of a rejected line.
-/

namespace MicroAsm

/-! ### Roles of nodes -/

namespace NodeKind

/-- The kind is that of a statement. -/
def isStatement : NodeKind → Bool
  | empty | cpu | org | endUnit | equ | set | db | dw | opcode => true
  | _ => false

/-- The kind is that of an operand. -/
def isOperand : NodeKind → Bool
  | register8 _ | register16 _ | expression _ | locationCounter _ | refAddress _ | refData _
  | data8 _ | data16 _ | restartCode _ | undefinedOperand => true
  | _ => false

lemma isLine_of_isStatement {kind : NodeKind} (h : kind.isStatement = true) :
    kind.isLine = false := by
  cases kind <;> first | rfl | cases h

lemma isLine_of_isOperand {kind : NodeKind} (h : kind.isOperand = true) :
    kind.isLine = false := by
  cases kind <;> first | rfl | cases h

lemma isOperand_invalidated {kind : NodeKind} (h : kind.isOperand = true) :
    kind.invalidated.isOperand = true := by
  cases kind <;> first | rfl | cases h

lemma isOperand_resolved {kind : NodeKind} (h : kind.isOperand = true) (value : UInt16) :
    (kind.resolved value).isOperand = true := by
  cases kind <;> first | rfl | cases h

end NodeKind

lemma Expr.isOperand_nodeKind (e : Expr) (here : UInt16) (kind : OperandKind)
    (value : Option UInt16) : (e.nodeKind here kind value).isOperand = true := by
  cases kind <;> simp only [nodeKind] <;> split_ifs <;> rfl

lemma Argument.isOperand_settle (symbols : SymbolTable) (here : UInt16) (x : Argument) :
    (x.settle symbols here).node.kind.isOperand = true := by
  have hvalue : ∀ kind v, (Value.settle symbols here kind v).node.kind.isOperand = true := by
    intro kind v
    rw [Value.settle]
    split <;> exact v.expr.isOperand_nodeKind here kind _
  cases x with
  | register kind t => cases kind <;> rfl
  | value kind v =>
    cases kind with
    | restartCode =>
      simp only [settle, settleRestart]
      split <;> rfl
    | _ => exact hvalue _ v

/-- All nodes of these operands are operands. -/
def Operational (os : List OperandNode) : Prop :=
  ∀ o ∈ os, o.node.kind.isOperand = true

lemma operational_stringEmission (t : Token) (text : String) (cs : List Char) :
    Operational (stringEmission t text cs).operands := by
  induction cs generalizing text with
  | nil => exact List.forall_mem_nil _
  | cons c cs ih => exact List.forall_mem_cons.mpr ⟨rfl, ih ""⟩

lemma Item.operational_emissions (symbols : SymbolTable) (here : UInt16) (width : Width)
    (offset : Nat) (items : List Item) :
    Operational (Item.emissions symbols here width offset items).operands := by
  induction items generalizing offset with
  | nil => exact List.forall_mem_nil _
  | cons item items ih =>
    refine List.forall_mem_append.mpr ⟨?_, ih _⟩
    cases item with
    | string t => exact operational_stringEmission t _ _
    | value v =>
      have hnode := Argument.isOperand_settle symbols here (.value width.operandKind v)
      refine List.forall_mem_singleton.mpr ?_
      cases width <;> exact hnode

lemma operational_invalidate {os : List OperandNode} (h : Operational os)
    (position : Option Nat) : Operational (invalidate position os) := by
  cases position with
  | none => exact h
  | some i =>
    intro o ho
    obtain ⟨k, hk⟩ := List.getElem?_of_mem ho
    rw [invalidate, List.getElem?_modify] at hk
    obtain ⟨old, hold, rfl⟩ := Option.map_eq_some_iff.mp hk
    have hkind := h old (List.mem_of_getElem? hold)
    split
    · exact NodeKind.isOperand_invalidated hkind
    · exact hkind

lemma Instruction.operational_emission (i : Instruction) (location : Location)
    {operands : List Settled} (h : ∀ s ∈ operands, s.node.kind.isOperand = true) :
    Operational (i.emission location operands).operands := by
  have hnodes : ∀ deferred : Settled → Option Deferred,
      Operational (operands.map fun s => { node := s.node, deferred := deferred s }) := by
    intro deferred o ho
    obtain ⟨s, hs, rfl⟩ := List.mem_map.mp ho
    exact h s hs
  rw [emission]
  split
  · split
    · exact hnodes _
    · exact operational_invalidate (hnodes fun _ => none) _
  · exact hnodes fun _ => none

/-- The nodes of a line are what their places are for. -/
structure Line.HasRoles (l : Line) : Prop where
  label : ∀ n ∈ l.label, n.kind = .label
  statement : l.statement.kind.isStatement = true
  operands : ∀ n ∈ l.operandNodes, n.kind.isOperand = true
  comment : ∀ n ∈ l.comment, n.kind = .comment

/-- The nodes that are left of a rejected line are those of a label, a statement and operands. -/
structure Remnant.HasRoles (r : Remnant) : Prop where
  label : ∀ n ∈ r.label, n.kind = .label
  statement : ∀ n ∈ r.statement, n.kind.isStatement = true
  operands : ∀ n ∈ r.operands, n.kind.isOperand = true

def Record.HasRoles : Record → Prop
  | line l => l.HasRoles
  | remnant r => r.HasRoles

lemma Record.HasRoles.parts {r : Record} (h : r.HasRoles) :
    ∀ n ∈ r.parts, n.kind.isLine = false := by
  intro n hn
  cases r with
  | line l =>
    simp only [Record.parts, Line.parts, List.mem_append, List.mem_cons, Option.mem_toList] at hn
    rcases hn with (hlabel | rfl | hoperand) | hcomment
    · rw [h.label n hlabel]
      rfl
    · exact NodeKind.isLine_of_isStatement h.statement
    · exact NodeKind.isLine_of_isOperand (h.operands n hoperand)
    · rw [h.comment n hcomment]
      rfl
  | remnant r =>
    rw [Record.parts, Remnant.parts, List.mem_append, Option.mem_toList] at hn
    rcases hn with hlabel | hstatement
    · rw [h.label n hlabel]
      rfl
    · cases hsome : r.statement with
      | none => simp [hsome] at hstatement
      | some head =>
        rw [hsome, List.mem_cons] at hstatement
        rcases hstatement with rfl | hoperand
        · exact NodeKind.isLine_of_isStatement (h.statement n hsome)
        · exact NodeKind.isLine_of_isOperand (h.operands n hoperand)

/-! ### Roles on the way through a source -/

namespace Assembly

variable (a : Assembly) (label comment : Option Token)

lemma kind_labelNode : ∀ n ∈ label.map labelNode, n.kind = .label := by
  intro n hn
  obtain ⟨t, -, rfl⟩ := Option.map_eq_some_iff.mp hn
  rfl

lemma kind_commentNode : ∀ n ∈ comment.map commentNode, n.kind = .comment := by
  intro n hn
  obtain ⟨t, -, rfl⟩ := Option.map_eq_some_iff.mp hn
  rfl

lemma isStatement_execute (here : UInt16) (statement : Statement) :
    (a.execute here label statement).2.1.kind.isStatement = true := by
  cases statement with
  | assign how location v => cases how <;> rfl
  | data width location items => cases width <;> rfl
  | _ => rfl

lemma operational_execute (here : UInt16) (statement : Statement) :
    Operational (a.execute here label statement).2.2 := by
  have hvalue : ∀ (v : Value) kind value,
      Operational [{ node := v.node here kind value }] := by
    intro v kind value
    rw [Operational, List.forall_mem_singleton]
    exact v.expr.isOperand_nodeKind here kind value
  cases statement with
  | org location origin => exact hvalue origin _ _
  | assign how location v => exact hvalue v _ _
  | data width location items => exact Item.operational_emissions _ _ _ _ _
  | instruction i location arguments =>
    refine Instruction.operational_emission i location ?_
    intro s hs
    obtain ⟨x, -, rfl⟩ := List.mem_map.mp hs
    exact x.isOperand_settle _ _
  | _ => exact List.forall_mem_nil _

lemma hasRoles_lineOf (location : Location) (statement : Statement) :
    (a.lineOf location label statement comment).HasRoles where
  label := kind_labelNode label
  statement := a.isStatement_execute label _ statement
  operands := by
    rw [Line.operandNodes, List.forall_mem_map]
    exact a.operational_execute label _ statement
  comment := kind_commentNode comment

lemma hasRoles_remnantOf (fragment : Fragment) : (a.remnantOf label fragment).HasRoles where
  label := kind_labelNode label
  statement := by
    intro n hn
    cases fragment with
    | nothing => cases hn
    | assign how location => cases hn; cases how <;> rfl
    | data width location items => cases hn; cases width <;> rfl
    | _ => cases hn; rfl
  operands := by
    cases fragment with
    | data width location items =>
      exact List.forall_mem_map.mpr (Item.operational_emissions _ _ _ _ _)
    | instruction i location arguments =>
      simp only [remnantOf, examine, List.map_map]
      exact List.forall_mem_map.mpr fun x _ => x.isOperand_settle _ _
    | _ => exact List.forall_mem_nil _

lemma hasRoles_step (h : ∀ r ∈ a.records, r.HasRoles) (line : SourceLine) :
    ∀ r ∈ (a.step line).records, r.HasRoles := by
  rcases a.step_eq_cases line with ⟨-, heq⟩ | ⟨first, label, statement, comment, -, -, heq⟩ |
    ⟨first, label, fragment, failure, -, -, heq⟩
  · rwa [heq]
  · rw [heq, accept_eq, record, execute_records]
    simp only [Array.mem_push]
    rintro r (hr | rfl)
    · exact h r hr
    · exact a.hasRoles_lineOf _ _ _ _
  · rw [heq, (a.reject_frame label fragment failure).2.2.1]
    simp only [Array.mem_push]
    rintro r (hr | rfl)
    · exact h r hr
    · exact a.hasRoles_remnantOf _ _

lemma hasRoles_steps (cpu : Cpu) {log : Log} (lines : List SourceLine) :
    ∀ r ∈ (({ cpu, log } : Assembly).steps lines).records, r.HasRoles := by
  refine steps_rec (P := fun _ a => ∀ r ∈ a.records, r.HasRoles) _ ?_ ?_ lines
  · simp
  · intro done a line h
    exact a.hasRoles_step h line

variable {a label} in
lemma records_step_of_rejected {line : SourceLine} {fragment : Fragment} {failure : Failure}
    (hread : line.read a.cpu = .rejected label fragment failure) :
    (a.step line).records.toList =
      a.records.toList ++ [.remnant (a.remnantOf label fragment)] := by
  rw [(step_of_rejected hread).2, (a.reject_frame label fragment failure).2.2.1, Array.toList_push]

/-- The lines that follow add to the records. -/
lemma exists_records_steps (lines : List SourceLine) :
    ∃ more, (a.steps lines).records.toList = a.records.toList ++ more := by
  refine steps_rec (P := fun _ b => ∃ more, b.records.toList = a.records.toList ++ more) _
    ⟨[], by simp⟩ ?_ lines
  rintro done b line ⟨more, hmore⟩
  rcases b.step_eq_cases line with ⟨-, heq⟩ | ⟨first, label, statement, comment, -, -, heq⟩ |
    ⟨first, label, fragment, failure, -, -, heq⟩
  · exact ⟨more, by rw [heq, hmore]⟩
  · refine ⟨more ++ [.line (b.lineOf first.location label statement comment)], ?_⟩
    rw [heq, accept_eq, record, execute_records, Array.toList_push, hmore, List.append_assoc]
  · refine ⟨more ++ [.remnant (b.remnantOf label fragment)], ?_⟩
    rw [heq, (b.reject_frame label fragment failure).2.2.1, Array.toList_push, hmore,
      List.append_assoc]

end Assembly

/-! ### The last pass -/

/-- What is kept of a line after the last pass. -/
def Record.resolved (symbols : SymbolTable) : Record → Record
  | line l => .line (l.resolved symbols)
  | remnant r => .remnant r

lemma Patching.fst_resolveRecords (p : Patching) (symbols : SymbolTable) (rs : List Record) :
    (p.resolveRecords symbols rs).1 = rs.map (Record.resolved symbols) := by
  induction rs generalizing p with
  | nil => rfl
  | cons r rs ih =>
    cases r with
    | remnant r => simp only [resolveRecords, ih, List.map_cons, Record.resolved]
    | line l =>
      simp only [resolveRecords, ih, List.map_cons, Record.resolved, fst_resolveOperands,
        Line.resolved]

lemma OperandNode.isOperand_resolved {o : OperandNode} (h : o.node.kind.isOperand = true)
    (symbols : SymbolTable) (here : UInt16) :
    (o.resolved symbols here).node.kind.isOperand = true := by
  rw [resolved]
  split
  · exact h
  · split
    · exact h
    · exact NodeKind.isOperand_resolved h _

lemma Record.hasRoles_resolved {r : Record} (h : r.HasRoles) (symbols : SymbolTable) :
    (r.resolved symbols).HasRoles := by
  cases r with
  | remnant r => exact h
  | line l =>
    refine ⟨h.label, h.statement, ?_, h.comment⟩
    simp only [Line.operandNodes, Line.resolved, List.map_map, List.forall_mem_map]
    intro o ho
    exact OperandNode.isOperand_resolved (h.operands _ (List.mem_map_of_mem ho)) _ _

lemma Record.length_parts_resolved (r : Record) (symbols : SymbolTable) :
    (r.resolved symbols).parts.length = r.parts.length := by
  cases r with
  | remnant r => rfl
  | line l => simp [Record.resolved, Record.parts, Line.parts, Line.resolved, Line.operandNodes]

namespace SyntaxTree

/-- How large a tree is after a line, and where its root is. -/
lemma size_plantLine (t : SyntaxTree) (l : Line) :
    (t.plantLine l).size = t.size + l.parts.length + 1 + (if t.root = none then 1 else 0) ∧
      (t.plantLine l).root = some (t.root.getD (t.size + l.parts.length + 1)) := by
  have hsize : (t.sprout l).2.size = t.size + l.parts.length + 1 := by
    rw [sprout, size_appendChildren, size_extend, addParts_eq]
    simp only [size_extend, size_addParent, Line.parts, List.length_append, List.length_cons,
      List.length_nil]
    omega
  have hroot : (t.sprout l).2.root = t.root := by
    rw [sprout, root_appendChildren, root_extend, addParts_eq]
    simp [addParent_eq]
  rw [plantLine_eq, addLine, ensureRoot, hroot]
  cases hsome : t.root with
  | some root => simp [hsize, hroot, hsome]
  | none =>
    simp only [add_eq, size_appendChild, root_appendChild]
    exact ⟨(size_extend _ _).trans (by rw [hsize]; rfl), by rw [hsize]; rfl⟩

lemma size_plantRemnant (t : SyntaxTree) (r : Remnant) :
    (t.plantRemnant r).size = t.size + r.parts.length ∧ (t.plantRemnant r).root = t.root := by
  rw [plantRemnant, addAll_eq, Remnant.parts]
  cases r.statement with
  | none => simp
  | some n =>
    simp [addParent_eq]
    omega

/-- The last pass adds no nodes. -/
lemma size_ofRecords_resolved (symbols : SymbolTable) (rs : List Record) :
    (ofRecords (rs.map (Record.resolved symbols))).size = (ofRecords rs).size ∧
      (ofRecords (rs.map (Record.resolved symbols))).root = (ofRecords rs).root := by
  induction rs using List.reverseRecOn with
  | nil => exact ⟨rfl, rfl⟩
  | append_singleton rs r ih =>
    have hlength := r.length_parts_resolved symbols
    simp only [ofRecords, List.map_append, List.foldl_append, List.map_cons, List.map_nil,
      List.foldl_cons, List.foldl_nil] at ih ⊢
    cases r with
    | line l =>
      have hlength' : (l.resolved symbols).parts.length = l.parts.length := hlength
      simp only [plant, Record.resolved, size_plantLine, ih, hlength', and_self]
    | remnant r => simp only [plant, Record.resolved, size_plantRemnant, ih, and_self]

end SyntaxTree

lemma Assembly.records_finish (a : Assembly) (moduleName : String) :
    (a.finish moduleName).1.records = a.records.toList.map (Record.resolved a.symbols) := by
  rw [finish_eq, resolved, Patching.fst_resolveRecords]

/-- The tree of a program has the lines that were accepted. -/
lemma Assembly.lists_finish {a : Assembly} (h : ∀ r ∈ a.records, r.HasRoles)
    (moduleName : String) :
    (SyntaxTree.ofRecords (a.finish moduleName).1.records).Lists (a.finish moduleName).1.lines := by
  refine SyntaxTree.lists_ofRecords ?_
  rw [a.records_finish, List.forall_mem_map]
  intro r hr
  exact (Record.hasRoles_resolved (h r (Array.mem_toList_iff.mp hr)) _).parts

lemma records_assemble (cpu : Cpu) (moduleName source : String) :
    (assemble cpu moduleName source).1.records =
      (({ cpu } : Assembly).steps (unitLines cpu (SourceLine.ofText source))).records.toList.map
        (Record.resolved (assemble cpu moduleName source).1.symbols) := by
  obtain ⟨rest, hfinish, -⟩ := assemble_eq_unitLines cpu moduleName source
  rw [hfinish, Assembly.records_finish, (Assembly.warnAfterEnd_frame _ rest).2.2.2.1]
  rfl

lemma hasRoles_assemble (cpu : Cpu) (moduleName source : String) :
    ∀ r ∈ (assemble cpu moduleName source).1.records, r.HasRoles := by
  rw [records_assemble]
  intro r hr
  obtain ⟨old, hold, rfl⟩ := List.mem_map.mp hr
  exact Record.hasRoles_resolved (Assembly.hasRoles_steps cpu _ old (Array.mem_toList_iff.mp hold)) _

lemma hasRoles_of_mem_lines {cpu : Cpu} {moduleName source : String} {l : Line}
    (h : l ∈ (assemble cpu moduleName source).1.lines) : l.HasRoles := by
  obtain ⟨r, hr, hline⟩ := List.mem_filterMap.mp h
  have hroles := hasRoles_assemble cpu moduleName source r hr
  cases r with
  | remnant r => cases hline
  | line l' =>
    cases hline
    exact hroles

/-- The tree of a source has its accepted lines. -/
lemma lists_assemble (cpu : Cpu) (moduleName source : String) :
    (SyntaxTree.ofRecords (assemble cpu moduleName source).1.records).Lists
      (assemble cpu moduleName source).1.lines :=
  SyntaxTree.lists_ofRecords fun r hr => (hasRoles_assemble cpu moduleName source r hr).parts

/-- What was left of a rejected line is loose in the tree of the source. -/
lemma loose_assemble (cpu : Cpu) (moduleName source : String) {done rest : List SourceLine}
    {line : SourceLine} {label : Option Token} {fragment : Fragment} {failure : Failure}
    (hunit : unitLines cpu (SourceLine.ofText source) = done ++ line :: rest)
    (hread : line.read (({ cpu } : Assembly).steps done).cpu = .rejected label fragment failure) :
    (SyntaxTree.ofRecords (assemble cpu moduleName source).1.records).Loose
      (({ cpu } : Assembly).steps done).tree.size
      (({ cpu } : Assembly).steps (done ++ [line])).tree.size := by
  have hroles := hasRoles_assemble cpu moduleName source
  have hrecords := records_assemble cpu moduleName source
  generalize (assemble cpu moduleName source).1.symbols = symbols at hrecords
  have hunit' : unitLines cpu (SourceLine.ofText source) = (done ++ [line]) ++ rest := by
    rw [hunit, List.append_assoc]
    rfl
  obtain ⟨more, hmore⟩ :=
    (({ cpu } : Assembly).steps (done ++ [line])).exists_records_steps rest
  rw [hunit', Assembly.steps_append, hmore, List.map_append] at hrecords
  have hsize : ∀ a : Assembly, a.tree.size =
      (SyntaxTree.ofRecords (a.records.toList.map (Record.resolved symbols))).size :=
    fun a => (SyntaxTree.size_ofRecords_resolved symbols _).1.symm
  have hstep := Assembly.records_step_of_rejected hread
  rw [← Assembly.steps_concat] at hstep
  rw [hrecords] at hroles ⊢
  rw [hsize, hsize]
  generalize ({ cpu } : Assembly).steps (done ++ [line]) = after at *
  generalize ({ cpu } : Assembly).steps done = before at *
  rw [hstep, List.map_append] at hroles ⊢
  have hparts := fun r hr => (hroles r hr).parts
  have hgrows := SyntaxTree.grows_ofRecords hparts
  rw [List.append_assoc, List.forall_mem_append] at hparts
  refine SyntaxTree.Loose.grows ?_ hgrows
  rw [SyntaxTree.ofRecords, List.foldl_append]
  exact SyntaxTree.loose_plantRemnant (SyntaxTree.lists_ofRecords hparts.1).toRooted _

/-- The tree of a source ends for whoever follows its links: no way from the root meets a node
twice, and no two ways meet. The children of the root are all nodes of lines, in the order of their
numbers, and these are the lines that were accepted, in the order of the source; the children of
each are its label, if there is one, its statement, and its comment, if there is one. What a
rejected line added to the tree is met on no way. -/
theorem presents_lines_assemble (cpu : Cpu) (moduleName source : String) :
    let program := (assemble cpu moduleName source).1
    let t := SyntaxTree.ofRecords program.records
    (∀ way way' id, t.follow way = some id → t.follow way' = some id → way = way') ∧
    (∀ way id, t.follow way = some id → way.length < t.size) ∧
    t.lines = t.contents.findIdxs (·.kind.isLine) ∧
    List.Forall₂ t.Presents t.lines program.lines ∧
    (program.lines.map (·.location.line)).Pairwise (· < ·) ∧
    (∀ l ∈ program.lines, l.HasRoles) ∧
    ∀ done line rest label fragment failure,
      unitLines cpu (SourceLine.ofText source) = done ++ line :: rest →
      line.read (({ cpu } : Assembly).steps done).cpu = .rejected label fragment failure →
      ∀ id, (({ cpu } : Assembly).steps done).tree.size ≤ id →
        id < (({ cpu } : Assembly).steps (done ++ [line])).tree.size →
        ∀ way, t.follow way ≠ some id := by
  intro program t
  have hlists := lists_assemble cpu moduleName source
  refine ⟨?_, ?_, hlists.lines, hlists.presents, pairwise_line_assemble,
    fun l => hasRoles_of_mem_lines, ?_⟩
  · intro way way' id hway hway'
    cases hroot : t.root with
    | none =>
      rw [SyntaxTree.follow_of_root_eq_none hroot] at hway
      cases hway
    | some root => exact hlists.families.follow_inj (hlists.top root hroot) hway hway'
  · intro way id hway
    cases hroot : t.root with
    | none =>
      rw [SyntaxTree.follow_of_root_eq_none hroot] at hway
      cases hway
    | some root => exact hlists.families.length_lt_of_follow (hlists.top root hroot) hway
  · intro done line rest label fragment failure hunit hread id hle hlt way
    exact (loose_assemble cpu moduleName source hunit hread).follow_ne hlists.toRooted hle hlt way

/-- Below the label and the fragment of a line that is turned down stands the only line of a tree. -/
theorem presents_lines_of_missing_operand :
    let source := "X: MVI A\nNOP ; done\n"
    let t := SyntaxTree.ofRecords (assemble .intel8080 "MAIN" source).1.records
    t.lines = [5] ∧ t.children 5 = [3, 4] ∧
      t.label? 5 = none ∧ t.node? 3 = some ⟨.opcode, "NOP", ⟨2, 1, 9⟩⟩ ∧
      t.comment? 5 = some ⟨.comment, " done", ⟨2, 5, 13⟩⟩ ∧
      t.node? 0 = some ⟨.label, "X", ⟨1, 1, 0⟩⟩ ∧ t.node? 1 = some ⟨.opcode, "MVI", ⟨1, 4, 3⟩⟩ ∧
      t.follow [.child] = some 5 ∧ ∀ id < 3, ∀ way, t.follow way ≠ some id := by
  intro source t
  obtain ⟨-, -, -, -, -, -, hloose⟩ := presents_lines_assemble .intel8080 "MAIN" source
  have hunit : unitLines .intel8080 (SourceLine.ofText source) =
      [] ++ (SourceLine.ofText source).getD 0 ⟨[], default⟩ ::
        (SourceLine.ofText source).drop 1 := by
    decide +kernel
  have hread : ((SourceLine.ofText source).getD 0 ⟨[], default⟩).read .intel8080 =
      .rejected (some ⟨.identifier, "X", ⟨1, 1, 0⟩⟩)
        (.instruction ⟨"MVI", 0x06, .registerByte⟩ ⟨1, 4, 3⟩
          [.register .register ⟨.identifier, "A", ⟨1, 8, 7⟩⟩])
        ⟨⟨1, 9, 8⟩, .expected "Comma" "EOL"⟩ := by
    decide +kernel
  have hsize : (({ cpu := .intel8080 } : Assembly).steps
      ([] ++ [(SourceLine.ofText source).getD 0 ⟨[], default⟩])).tree.size = 3 := by
    decide +kernel
  refine ⟨by decide +kernel, by decide +kernel, by decide +kernel, by decide +kernel,
    by decide +kernel, by decide +kernel, by decide +kernel, by decide +kernel, ?_⟩
  intro id hid way
  exact hloose _ _ _ _ _ _ hunit hread id (Nat.zero_le _) (hsize ▸ hid) way

end MicroAsm
