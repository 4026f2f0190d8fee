import MicroAsm.Proofs.Assembly.Complaints
import MicroAsm.Proofs.Assembly.TwoPass

/-!
# Bytes that wait for values

A value that waits for symbols has a slot: the bytes of the code that the last pass will write it
into. Whatever the lines of a source are, with errors or without, the slots lie inside the code
and one behind the other. So the last pass always finds them, leaves no value waiting, and adds
complaints to the log but never an exception.
-/

namespace MicroAsm

/-- Bytes of the code that a value waits to be written into. -/
structure Slot where
  index : Nat
  width : Nat
deriving DecidableEq, Repr

namespace Slot

/-- Slots between two places of the code, each of them behind those in front of it. -/
structure Between (first last : Nat) (slots : List Slot) : Prop where
  first_le : ∀ s ∈ slots, first ≤ s.index
  le_last : ∀ s ∈ slots, s.index + s.width ≤ last
  ordered : slots.Pairwise fun s s' => s.index + s.width ≤ s'.index

variable {first middle last : Nat} {slots slots' : List Slot}

lemma between_nil (first last : Nat) : Between first last [] :=
  ⟨by simp, by simp, .nil⟩

lemma between_singleton {s : Slot} (hfirst : first ≤ s.index) (hlast : s.index + s.width ≤ last) :
    Between first last [s] :=
  ⟨by simpa using hfirst, by simpa using hlast, List.pairwise_singleton _ _⟩

lemma Between.sublist (h : Between first last slots) (hsub : slots'.Sublist slots) :
    Between first last slots' :=
  ⟨fun s hs => h.first_le s (hsub.subset hs), fun s hs => h.le_last s (hsub.subset hs),
    h.ordered.sublist hsub⟩

lemma Between.append (h : Between first middle slots) (h' : Between middle last slots')
    (hfirst : first ≤ middle) (hlast : middle ≤ last) : Between first last (slots ++ slots') := by
  refine ⟨?_, ?_, ?_⟩
  · intro s hs
    rcases List.mem_append.mp hs with hs | hs
    · exact h.first_le s hs
    · exact Nat.le_trans hfirst (h'.first_le s hs)
  · intro s hs
    rcases List.mem_append.mp hs with hs | hs
    · exact Nat.le_trans (h.le_last s hs) hlast
    · exact h'.le_last s hs
  · rw [List.pairwise_append]
    refine ⟨h.ordered, h'.ordered, ?_⟩
    intro s hs s' hs'
    exact Nat.le_trans (h.le_last s hs) (h'.first_le s' hs')

/-- The slots of operands on a line that starts at a place of the code. -/
def ofOperands (start : Nat) (os : List OperandNode) : List Slot :=
  (os.filterMap OperandNode.deferred).map fun d => ⟨start + d.offset, d.width.size⟩

@[simp] lemma ofOperands_append (start : Nat) (os os' : List OperandNode) :
    ofOperands start (os ++ os') = ofOperands start os ++ ofOperands start os' := by
  simp [ofOperands]

lemma ofOperands_of_settled {os : List OperandNode} (h : ∀ o ∈ os, o.deferred = none)
    (start : Nat) : ofOperands start os = [] := by
  rw [ofOperands, List.map_eq_nil_iff, List.filterMap_eq_nil_iff]
  exact h

end Slot

def Line.slots (l : Line) : List Slot :=
  Slot.ofOperands l.place.start l.operands

/-- The slots of all values that wait so far. -/
def Assembly.slots (a : Assembly) : List Slot :=
  a.lines.flatMap Line.slots

/-! ### Statements -/

/-- An item has its slot between its own bytes. -/
lemma Item.between_emission (symbols : SymbolTable) (here : UInt16) (width : Width)
    (start offset : Nat) (item : Item) :
    Slot.Between (start + offset)
      (start + offset + (item.emission symbols here width offset).bytes.length)
      (Slot.ofOperands start (item.emission symbols here width offset).operands) := by
  cases item with
  | string t =>
    rw [emission, Slot.ofOperands_of_settled (settled_stringEmission _ _ _)]
    exact Slot.between_nil _ _
  | value v =>
    simp only [emission, Width.length_bytesOf]
    cases (v.settle symbols here width.operandKind).waiting with
    | none => exact Slot.between_nil _ _
    | some expr => exact Slot.between_singleton (Nat.le_refl _) (Nat.le_refl _)

/-- The items of a list have their slots one behind the other. -/
lemma Item.between_emissions (symbols : SymbolTable) (here : UInt16) (width : Width)
    (start offset : Nat) (items : List Item) :
    Slot.Between (start + offset)
      (start + offset + (Item.emissions symbols here width offset items).bytes.length)
      (Slot.ofOperands start (Item.emissions symbols here width offset items).operands) := by
  induction items generalizing offset with
  | nil => exact Slot.between_nil _ _
  | cons item items ih =>
    have hfirst := item.between_emission symbols here width start offset
    have hrest := ih (offset + (item.emission symbols here width offset).bytes.length)
    simp only [emissions, Slot.ofOperands_append, List.length_append]
    rw [← Nat.add_assoc] at hrest ⊢
    exact hfirst.append hrest (Nat.le_add_right _ _) (Nat.le_add_right _ _)

/-- The slots that an operand of a kind can have in an instruction: a value stands right behind the
code byte, and all other operands are part of that. -/
def OperandKind.slots (start : Nat) : OperandKind → List Slot
  | byte => [⟨start + 1, 1⟩]
  | word | address => [⟨start + 1, 2⟩]
  | register | pair | restartCode => []

lemma Family.between_slots (family : Family) (start : Nat) :
    Slot.Between start (start + family.size)
      (family.operands.flatMap (OperandKind.slots start)) := by
  cases family with
  | implied | registerRegister | register shift | pair pairs | restart =>
    exact Slot.between_nil _ _
  | registerByte | byte | pairWord pairs | address =>
    exact Slot.between_singleton (Nat.le_add_right _ _) (Nat.le_refl _)

/-- An argument has no other slot than its kind allows. -/
lemma Argument.HasKind.slots_sublist {kind : OperandKind} {argument : Argument}
    (h : argument.HasKind kind) (symbols : SymbolTable) (here : UInt16) (start : Nat) :
    (Slot.ofOperands start [(argument.settle symbols here).operandNode]).Sublist
      (kind.slots start) := by
  cases kind with
  | register | pair =>
    obtain ⟨t, rfl⟩ := h
    exact List.Sublist.refl _
  | byte | word | address =>
    obtain ⟨v, rfl⟩ := h
    simp only [settle, Settled.operandNode]
    cases (v.settle symbols here _).waiting with
    | none => exact List.nil_sublist _
    | some expr => exact List.Sublist.refl _
  | restartCode =>
    obtain ⟨v, rfl⟩ := h
    simp only [settle, settleRestart]
    split
    · exact List.Sublist.refl _
    · exact List.Sublist.refl _

lemma Argument.slots_sublist {kinds : List OperandKind} {arguments : List Argument}
    (h : List.Forall₂ Argument.HasKind kinds arguments) (symbols : SymbolTable) (here : UInt16)
    (start : Nat) :
    (Slot.ofOperands start
      ((arguments.map (Argument.settle symbols here)).map Settled.operandNode)).Sublist
        (kinds.flatMap (OperandKind.slots start)) := by
  induction h with
  | nil => exact List.Sublist.refl _
  | @cons kind argument kinds arguments hkind _ ih =>
    have hsplit := Slot.ofOperands_append start [(argument.settle symbols here).operandNode]
      ((arguments.map (Argument.settle symbols here)).map Settled.operandNode)
    rw [List.map_cons, List.map_cons, List.flatMap_cons, ← List.singleton_append, hsplit]
    exact (hkind.slots_sublist symbols here start).append ih

/-- Marking an operand as wrong does not make anything wait. -/
lemma settled_invalidate {os : List OperandNode} (h : ∀ o ∈ os, o.deferred = none)
    (position : Option Nat) : ∀ o ∈ invalidate position os, o.deferred = none := by
  cases position with
  | none => exact h
  | some i =>
    intro o ho
    obtain ⟨k, hk, rfl⟩ := List.getElem_of_mem ho
    have hk' : k < os.length := by simpa [invalidate] using hk
    simp only [invalidate, List.getElem_modify]
    split
    · exact h os[k] (List.getElem_mem hk')
    · exact h os[k] (List.getElem_mem hk')

/-- An instruction was encoded, or none of its values waits. -/
lemma Instruction.emission_cases (i : Instruction) (location : Location)
    (operands : List Settled) :
    (∃ bytes, i.encode (operands.map Settled.operand) = .ok bytes ∧
      i.emission location operands =
        ⟨operands.map Settled.operandNode, bytes, operands.flatMap Settled.messages, true⟩) ∨
      ∀ o ∈ (i.emission location operands).operands, o.deferred = none := by
  rw [emission]
  split
  · split
    · rename_i bytes hencode
      exact Or.inl ⟨bytes, hencode, rfl⟩
    · exact Or.inr (settled_invalidate (by simp) _)
  · exact Or.inr (by simp)

namespace Assembly

variable {a : Assembly} {label comment : Option Token} {location : Location}

lemma size_le_put (a : Assembly) (e : Emission) (location : Location) :
    a.code.size ≤ (a.put e location).code.size := by
  rw [put]
  split
  · simp
  · simp

lemma size_le_moveTo (a : Assembly) (target : UInt16) (location : Location) :
    a.code.size ≤ (a.moveTo target location).code.size := by
  rcases a.moveTo_cases target location with ⟨-, heq⟩ | ⟨bs, heq⟩ | ⟨text, heq⟩
  · rw [heq]
    exact Nat.le_refl _
  · simp [heq]
  · simp [heq]

/-- The slots of a line are in the bytes that the code has grown by. -/
def Reserves (a after : Assembly) (l : Line) : Prop :=
  a.code.size ≤ after.code.size ∧ Slot.Between a.code.size after.code.size l.slots

/-- The slots of data and instructions are in the bytes that they put into the code. -/
lemma reserves_of_put {statement : Statement} {e : Emission} {node : Node} {location' : Location}
    (hnode : node.kind ≠ .org)
    (hexecute : a.execute a.code.locationCounter label statement =
      ((a.defineLabel label a.code.locationCounter).put e location', node, e.operands))
    (h : e.emits = true ∧
        Slot.Between a.code.size (a.code.size + e.bytes.length)
          (Slot.ofOperands a.code.size e.operands) ∨
      ∀ o ∈ e.operands, o.deferred = none) :
    Reserves a (a.execute a.code.locationCounter label statement).1
      (a.lineOf location label statement comment) := by
  have hsize := (a.defineLabel label a.code.locationCounter).size_le_put e location'
  rw [(defineLabel_frame _ _ _).2.1] at hsize
  have hslots : (a.lineOf location label statement comment).slots =
      Slot.ofOperands a.code.size e.operands := by
    rw [Line.slots, lineOf, hexecute, placement, if_neg hnode]
  rw [Reserves, hslots, hexecute]
  refine ⟨hsize, ?_⟩
  rcases h with ⟨hemits, hbetween⟩ | hsettled
  · rw [put, if_pos hemits]
    simpa using hbetween
  · rw [Slot.ofOperands_of_settled hsettled]
    exact Slot.between_nil _ _

/-- A statement without waiting values has no slots. -/
lemma reserves_of_settled {statement : Statement}
    (hsize : a.code.size ≤ (a.execute a.code.locationCounter label statement).1.code.size)
    (hsettled : ∀ o ∈ (a.execute a.code.locationCounter label statement).2.2, o.deferred = none) :
    Reserves a (a.execute a.code.locationCounter label statement).1
      (a.lineOf location label statement comment) := by
  rw [Reserves, Line.slots, lineOf, Slot.ofOperands_of_settled hsettled]
  exact ⟨hsize, Slot.between_nil _ _⟩

/-- The slots of an accepted line are in the bytes that it adds to the code. -/
lemma reserves_execute {statement : Statement} (hbelongs : statement.BelongsTo a.cpu) :
    Reserves a (a.execute a.code.locationCounter label statement).1
      (a.lineOf location label statement comment) := by
  cases statement with
  | empty location' | endUnit location' | assign how location' v =>
    exact reserves_of_settled (by simp [execute]) (by simp [execute])
  | cpu location' name =>
    refine reserves_of_settled ?_ (by simp [execute])
    simp only [execute]
    split <;> simp
  | org location' origin =>
    refine reserves_of_settled ?_ (by simp [execute])
    rcases hvalue : origin.evaluate a.symbols a.code.locationCounter with ⟨value, messages⟩
    simp only [execute, hvalue]
    rw [(defineLabel_frame _ _ _).2.1]
    cases value with
    | none => exact Nat.le_refl _
    | some target => exact (a.report messages).size_le_moveTo target origin.location
  | data width location' items =>
    refine reserves_of_put (by cases width <;> simp [Width.directive]) rfl (Or.inl ?_)
    exact ⟨emits_emissions _ _ _ _ _, Item.between_emissions _ _ _ _ 0 _⟩
  | instruction i location' arguments =>
    refine reserves_of_put (by simp [Instruction.node]) rfl ?_
    rcases i.emission_cases location' (arguments.map
        (Argument.settle (a.defineLabel label a.code.locationCounter).symbols
          a.code.locationCounter)) with ⟨bytes, hencode, heq⟩ | hsettled
    · -- Only an encoded instruction has a value that waits, and its bytes are all there.
      left
      rw [heq]
      refine ⟨rfl, ?_⟩
      simp only [(Instruction.yields_settle hbelongs.2 _ _).of_ok hencode]
      exact (i.family.between_slots _).sublist (Argument.slots_sublist hbelongs.2 _ _ _)
    · exact Or.inr hsettled

/-! ### Runs -/

/-- A line puts its slots behind those that are there already. -/
lemma between_step (line : SourceLine) (h : Slot.Between 0 a.code.size a.slots) :
    Slot.Between 0 (a.step line).code.size (a.step line).slots := by
  rcases a.step_eq_cases line with
    ⟨-, heq⟩ | ⟨first, label, statement, comment, -, hread, heq⟩ |
      ⟨first, label, fragment, failure, -, -, heq⟩
  · rw [heq]
    exact h
  · obtain ⟨hsize, hline⟩ := @reserves_execute a label comment first.location statement
      (SourceLine.belongsTo_of_read hread)
    rw [heq, slots, lines_accept, List.flatMap_append, List.flatMap_singleton]
    exact h.append hline (Nat.zero_le _) hsize
  · have hslots : (a.reject label fragment failure).slots = a.slots := by
      simp [slots, lines, Record.line?]
    rw [heq, hslots, (reject_frame _ _ _ _).2.1]
    exact h

/-- After any lines the slots are inside the code, one behind the other. -/
lemma between_steps (cpu : Cpu) (lines : List SourceLine) :
    Slot.Between 0 (({ cpu } : Assembly).steps lines).code.size
      (({ cpu } : Assembly).steps lines).slots :=
  steps_rec (P := fun _ a => Slot.Between 0 a.code.size a.slots) _ (Slot.between_nil _ _)
    (fun _ _ line h => between_step line h) lines

/-- The slots of a run are inside the code. -/
lemma inside_run (cpu : Cpu) (lines : List SourceLine) :
    ∀ s ∈ (({ cpu } : Assembly).run lines).slots,
      s.index + s.width ≤ (({ cpu } : Assembly).run lines).code.size := by
  obtain ⟨done, rest, -, hrun⟩ := ({ cpu } : Assembly).run_eq_steps lines
  rw [hrun, slots, lines_warnAfterEnd, (warnAfterEnd_frame _ rest).2.2.1]
  exact (between_steps cpu done).le_last

lemma exceptions_steps (cpu : Cpu) (lines : List SourceLine) :
    (({ cpu } : Assembly).steps lines).log.exceptions = 0 :=
  steps_rec (P := fun _ a => a.log.exceptions = 0) _ rfl
    (fun _ a line h => (a.exceptions_step line).trans h) lines

end Assembly

/-! ### The last pass -/

namespace Patching

variable {p : Patching} {symbols : SymbolTable}

lemma write_log {index : Nat} {bytes : List UInt8} (location : Location)
    (h : index + bytes.length ≤ p.code.size) : (p.write index bytes location).log = p.log := by
  have hinside : index + bytes.length ≤ p.code.bytes.size := h
  rw [write, Segment.patch?, if_pos hinside]

/-- An operand with its slot inside the code is only complained about. -/
lemma complains_resolveOperand {place : Placement} {o : OperandNode}
    (h : ∀ s ∈ Slot.ofOperands place.start [o], s.index + s.width ≤ p.code.size) :
    p.log.Complains (p.resolveOperand symbols place o).2.log := by
  rw [resolveOperand]
  cases hdeferred : o.deferred with
  | none => exact Log.Complains.refl _
  | some d =>
    simp only
    cases d.expr.eval symbols place.address with
    | error name =>
      exact ⟨[_], by simpa using isComplaint_undefinedSymbol name o.node.location, rfl⟩
    | ok n =>
      have hslot : place.start + d.offset + d.width.size ≤ p.code.size :=
        h ⟨place.start + d.offset, d.width.size⟩ (by simp [Slot.ofOperands, hdeferred])
      simp only
      rw [write_log _ (by rw [Width.length_bytesOf]; exact hslot)]
      exact ⟨_, isComplaint_of_mem_checkRange, rfl⟩

lemma complains_resolveOperands {place : Placement} {os : List OperandNode}
    (h : ∀ s ∈ Slot.ofOperands place.start os, s.index + s.width ≤ p.code.size) :
    p.log.Complains (p.resolveOperands symbols place os).2.log := by
  induction os generalizing p with
  | nil => exact Log.Complains.refl _
  | cons o os ih =>
    rw [← List.singleton_append, Slot.ofOperands_append, List.forall_mem_append] at h
    refine (complains_resolveOperand h.1).trans (ih ?_)
    rw [(p.resolveOperand_extent symbols place o).size]
    exact h.2

/-- The last pass adds complaints if all slots are inside the code. -/
lemma complains_resolveRecords {rs : List Record}
    (h : ∀ l ∈ rs.filterMap Record.line?, ∀ s ∈ l.slots, s.index + s.width ≤ p.code.size) :
    p.log.Complains (p.resolveRecords symbols rs).2.log := by
  induction rs generalizing p with
  | nil => exact Log.Complains.refl _
  | cons r rs ih =>
    cases r with
    | remnant r => exact ih h
    | line l =>
      simp only [List.filterMap_cons, Record.line?, List.forall_mem_cons] at h
      refine (complains_resolveOperands h.1).trans (ih ?_)
      rw [(p.resolveOperands_extent symbols l.place l.operands).size]
      exact h.2

lemma settled_resolveOperands (p : Patching) (symbols : SymbolTable) (place : Placement)
    (os : List OperandNode) :
    ∀ o ∈ (p.resolveOperands symbols place os).1, o.deferred = none := by
  induction os generalizing p with
  | nil => simp [resolveOperands]
  | cons o os ih =>
    simp only [resolveOperands, List.forall_mem_cons]
    refine ⟨?_, ih _⟩
    rw [resolveOperand]
    cases hdeferred : o.deferred with
    | none => exact hdeferred
    | some d =>
      simp only
      cases d.expr.eval symbols place.address <;> rfl

/-- After the last pass nothing waits any more. -/
lemma settled_resolveRecords (p : Patching) (symbols : SymbolTable) (rs : List Record) :
    ∀ r ∈ (p.resolveRecords symbols rs).1, r.Settled := by
  induction rs generalizing p with
  | nil => simp [resolveRecords]
  | cons r rs ih =>
    cases r with
    | remnant r =>
      simp only [resolveRecords, List.forall_mem_cons]
      exact ⟨trivial, ih p⟩
    | line l =>
      simp only [resolveRecords, List.forall_mem_cons]
      exact ⟨p.settled_resolveOperands symbols l.place l.operands, ih _⟩

end Patching

lemma Program.waiting_eq_zero {p : Program} (h : ∀ r ∈ p.records, r.Settled) : p.waiting = 0 := by
  rw [waiting, List.length_eq_zero_iff, List.flatMap_eq_nil_iff]
  intro l hl
  obtain ⟨r, hr, hline⟩ := List.mem_filterMap.mp hl
  cases r with
  | remnant r => cases hline
  | line l' =>
    cases hline
    exact List.filterMap_eq_nil_iff.mpr (h _ hr)

/-- The messages of a unit are those of its lines, with complaints behind them. -/
lemma complains_finish (cpu : Cpu) (moduleName : String) (done rest : List SourceLine) :
    (({ cpu } : Assembly).steps done).log.Complains
      (((({ cpu } : Assembly).steps done).warnAfterEnd rest).finish moduleName).2 := by
  refine Log.Complains.trans (Assembly.complains_warnAfterEnd _ rest) ?_
  refine Patching.complains_resolveRecords ?_
  intro l hl s hs
  rw [(Assembly.warnAfterEnd_frame _ rest).2.2.1]
  refine (Assembly.between_steps cpu done).le_last s (List.mem_flatMap.mpr ⟨l, ?_, hs⟩)
  rw [← Assembly.lines_warnAfterEnd _ rest]
  exact hl

/-- No failure but those of the source can be met. Assembling takes lines one after the other.
Between any two of them the bytes that wait for a value lie inside the code, each behind the one
before, and the instruction of the next line is encoded or its operands are to blame. At the end
nothing waits, and there is no exception. -/
theorem slots_between_and_exceptions_eq_zero (cpu : Cpu) (moduleName source : String) :
    (∃ done rest, SourceLine.ofText source = done ++ rest ∧
      assemble cpu moduleName source =
        ((({ cpu } : Assembly).steps done).warnAfterEnd rest).finish moduleName) ∧
    (∀ done rest, SourceLine.ofText source = done ++ rest →
      (∀ s ∈ (({ cpu } : Assembly).steps done).slots,
        s.index + s.width ≤ (({ cpu } : Assembly).steps done).code.size) ∧
      (({ cpu } : Assembly).steps done).slots.Pairwise
        (fun s s' => s.index + s.width ≤ s'.index) ∧
      ∀ line ∈ rest.head?, ∀ label i location arguments comment,
        line.read (({ cpu } : Assembly).steps done).cpu =
          .accepted label (.instruction i location arguments) comment →
        ∀ symbols here,
          let operands := (arguments.map (Argument.settle symbols here)).map Settled.operand
          (({ cpu } : Assembly).steps done).cpu.encode i.mnemonic operands = i.encode operands ∧
          ∀ e, i.encode operands = .error e → e.fault.blamesOperands = true) ∧
    (assemble cpu moduleName source).1.waiting = 0 ∧
    (assemble cpu moduleName source).2.exceptions = 0 := by
  obtain ⟨taken, left, hlines, hfinish, -⟩ := assemble_eq_finish cpu moduleName source
  refine ⟨⟨taken, left, hlines, hfinish⟩, ?_, ?_⟩
  · intro done rest _
    have hbetween := Assembly.between_steps cpu done
    refine ⟨hbetween.le_last, hbetween.ordered, ?_⟩
    intro line _ label i location arguments comment hread symbols here
    obtain ⟨hi, hkinds⟩ := SourceLine.belongsTo_of_read hread
    exact ⟨Cpu.encode_mnemonic hi _, fun e =>
      (Instruction.yields_settle hkinds symbols here).of_error⟩
  · rw [hfinish]
    constructor
    · exact Program.waiting_eq_zero (Patching.settled_resolveRecords _ _ _)
    · rw [(complains_finish cpu moduleName taken left).same.2]
      exact Assembly.exceptions_steps cpu taken

/-- Values wait in front of a line that was turned down and behind one with a register that is not
there. -/
theorem slots_between_of_forward_symbols :
    let source := "JMP X\nDW 1,X\nDB Y,\nMVI Q,Z\nLXI H,Z\nX: HLT"
    let a := ({ cpu := .intel8080 } : Assembly).steps ((SourceLine.ofText source).take 5)
    a.slots = [⟨1, 2⟩, ⟨5, 2⟩, ⟨10, 2⟩] ∧ (∀ s ∈ a.slots, s.index + s.width ≤ a.code.size) ∧
      (assemble .intel8080 "MAIN" source).1.waiting = 0 ∧
      (assemble .intel8080 "MAIN" source).2.exceptions = 0 := by
  intro source a
  obtain ⟨-, hstates, hend⟩ :=
    slots_between_and_exceptions_eq_zero .intel8080 "MAIN" source
  have hslots := (hstates _ _ (List.take_append_drop 5 _).symm).1
  exact ⟨by decide +kernel, hslots, hend⟩

end MicroAsm
