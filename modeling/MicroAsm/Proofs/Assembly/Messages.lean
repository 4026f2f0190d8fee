import MicroAsm.Proofs.Assembly.Slots
import MicroAsm.Proofs.Statement.Source

/-!
# Messages come from the source

A statement that was read from words of the source is told about at the places of these words, in
texts of one row. A value that waits keeps its place and its names until the last pass, which finds
all slots inside the code. So every message about a source is located at a token of a line that is
not blank.
-/

namespace MicroAsm

variable {S : Location → Prop}

/-- The message has a place in the source, and its text stays on one row. -/
def Message.Within (S : Location → Prop) (m : Message) : Prop :=
  S m.location ∧ Text.OneRow m.text

/-- All messages of the log have places in the source. -/
def Log.Within (S : Location → Prop) (log : Log) : Prop :=
  ∀ m ∈ log.messages.toList, m.Within S

lemma Log.Within.reportAll {log : Log} (h : log.Within S) {ms : List Message}
    (hms : ∀ m ∈ ms, m.Within S) : (log.reportAll ms).Within S := by
  rw [Log.Within, messages_reportAll, List.forall_mem_append]
  exact ⟨h, hms⟩

/-! ### Operands -/

lemma within_outOfRange {location : Location} (h : S location) (bits : Nat) (v : Int) :
    (outOfRange bits v location).Within S :=
  ⟨h, oneRow_outOfRangeText bits v⟩

lemma within_undefinedSymbol {location : Location} (h : S location) {name : String}
    (hname : Text.OneRow name) : (undefinedSymbol name location).Within S :=
  ⟨h, Text.OneRow.append (s := "Undefined label: ") (by decide) hname⟩

lemma within_of_mem_checkRange {location : Location} (h : S location) {bits : Nat} {v : Int} :
    ∀ m ∈ (checkRange bits v location).2, m.Within S := by
  rw [checkRange]
  split
  · simp
  · simpa using within_outOfRange h bits v

variable {symbols : SymbolTable} {here : UInt16}

lemma Value.Within.of_mem_evaluate {v : Value} (h : v.Within S) :
    ∀ m ∈ (v.evaluate symbols here).2, m.Within S := by
  rw [evaluate]
  split
  · split
    · simp
    · simpa using within_outOfRange h.1 16 _
  · rename_i name heval
    simpa using within_undefinedSymbol h.1 (h.2.of_eval heval)

lemma Value.Within.of_mem_settle {v : Value} (h : v.Within S) {kind : OperandKind} :
    ∀ m ∈ (v.settle symbols here kind).messages, m.Within S := by
  rw [settle]
  split
  · exact within_of_mem_checkRange h.1
  · simp

/-- What a value waits for are the names in its expression. -/
lemma Value.Within.waiting {v : Value} (h : v.Within S) {kind : OperandKind} :
    ∀ e ∈ (v.settle symbols here kind).waiting, e.OneRow := by
  rw [settle]
  split
  · simp
  · simpa using h.2

lemma Value.settle_location (v : Value) (kind : OperandKind) :
    (v.settle symbols here kind).node.location = v.location := by
  rw [settle]
  split <;> rfl

/-- An operand that waits has a place in the source and its names from there. -/
def OperandNode.Within (S : Location → Prop) (o : OperandNode) : Prop :=
  ∀ d ∈ o.deferred, S o.node.location ∧ d.expr.OneRow

/-- An operand of an instruction has a place in the source and its names from there. -/
structure Settled.Within (S : Location → Prop) (o : Settled) : Prop where
  location : S o.node.location
  operand : o.operand.OneRow
  waiting : ∀ w ∈ o.waiting, w.2.OneRow
  messages : ∀ m ∈ o.messages, m.Within S

lemma Value.Within.settleRestart {v : Value} (h : v.Within S) :
    (settleRestart symbols here v).Within S := by
  rw [MicroAsm.settleRestart]
  split
  · exact ⟨h.1, trivial, by simp, by simp⟩
  · rename_i name heval
    refine ⟨h.1, trivial, by simp, ?_⟩
    simpa using within_undefinedSymbol h.1 (h.2.of_eval heval)

lemma Argument.Within.settle {argument : Argument} (h : argument.Within S) :
    (argument.settle symbols here).Within S := by
  cases argument with
  | register kind t => exact ⟨h.1, h.2, by simp [Argument.settle, settleRegister], by
      simp [Argument.settle, settleRegister]⟩
  | value kind v =>
    have hwaiting : ∀ e ∈ (v.settle symbols here kind).waiting, e.OneRow :=
      Value.Within.waiting h
    cases kind with
    | restartCode => exact Value.Within.settleRestart h
    | _ =>
      refine ⟨(v.settle_location _).symm ▸ h.1, trivial, ?_, h.of_mem_settle⟩
      simpa [Argument.settle] using hwaiting

/-- What a statement puts into the code has its places and names from the source. -/
structure Emission.Within (S : Location → Prop) (e : Emission) : Prop where
  operands : ∀ o ∈ e.operands, o.Within S
  messages : ∀ m ∈ e.messages, m.Within S

lemma EncodingError.within_location {operands : List Settled} {default : Location}
    (h : ∀ o ∈ operands, o.Within S) (hdefault : S default) (e : EncodingError) :
    S (e.location operands default) := by
  rw [EncodingError.location]
  cases hblamed : e.operand.bind (operands[·]?) with
  | none => exact hdefault
  | some o =>
    obtain ⟨k, -, hk⟩ := Option.bind_eq_some_iff.mp hblamed
    exact (h o (List.mem_of_getElem? hk)).location

lemma OperandNode.within_of_settled (n : Node) : OperandNode.Within S { node := n } := nofun

lemma OperandNode.within_of_mem_invalidate {operands : List OperandNode} {position : Option Nat}
    (h : ∀ o ∈ operands, o.deferred = none) : ∀ o ∈ invalidate position operands, o.Within S := by
  have hsettled : ∀ o ∈ invalidate position operands, o.deferred = none := by
    cases position with
    | none => exact h
    | some i =>
      intro o ho
      rw [invalidate] at ho
      obtain ⟨k, hk⟩ := List.mem_iff_getElem?.mp ho
      rw [List.getElem?_modify] at hk
      obtain ⟨o', ho', rfl⟩ := Option.map_eq_some_iff.mp hk
      have hnone := h o' (List.mem_of_getElem? ho')
      split <;> exact hnone
  intro o ho d hd
  rw [hsettled o ho] at hd
  cases hd

lemma Instruction.within_emission {i : Instruction} (hmnemonic : Text.OneRow i.mnemonic)
    {location : Location} (hlocation : S location) {operands : List Settled}
    (h : ∀ o ∈ operands, o.Within S) : (i.emission location operands).Within S := by
  have hmessages : ∀ m ∈ operands.flatMap Settled.messages, m.Within S := by
    intro m hm
    obtain ⟨o, ho, hm⟩ := List.mem_flatMap.mp hm
    exact (h o ho).messages m hm
  rw [emission]
  split
  · have hoperands : ∀ o ∈ operands.map Settled.operand, o.OneRow := by
      simpa using fun o ho => (h o ho).operand
    have hencode := yields_encode_oneRow hmnemonic hoperands
    split
    · refine ⟨?_, hmessages⟩
      rw [List.forall_mem_map]
      intro o ho d hd
      obtain ⟨w, hw, rfl⟩ := Option.mem_map.mp hd
      exact ⟨(h o ho).location, (h o ho).waiting w hw⟩
    · rename_i e heq
      refine ⟨OperandNode.within_of_mem_invalidate (by simp), ?_⟩
      rw [List.forall_mem_append, List.forall_mem_singleton]
      exact ⟨hmessages, e.within_location h hlocation, hencode.of_error heq⟩
  · refine ⟨?_, hmessages⟩
    rw [List.forall_mem_map]
    exact fun o _ => OperandNode.within_of_settled o.node

lemma within_stringEmission {t : Token} (h : S t.location) (text : String) (cs : List Char) :
    (stringEmission t text cs).Within S := by
  induction cs generalizing text with
  | nil => exact ⟨by simp [stringEmission], by simp [stringEmission]⟩
  | cons c cs ih =>
    constructor
    · rw [stringEmission, List.forall_mem_cons]
      exact ⟨OperandNode.within_of_settled _, (ih "").operands⟩
    · rw [stringEmission, List.forall_mem_append]
      exact ⟨within_of_mem_checkRange h, (ih "").messages⟩

lemma Item.Within.emission {item : Item} (h : item.Within S) (width : Width) (offset : Nat) :
    (item.emission symbols here width offset).Within S := by
  cases item with
  | string t => exact within_stringEmission h.1 _ _
  | value v =>
    refine ⟨?_, h.of_mem_settle⟩
    rw [Item.emission, List.forall_mem_singleton]
    intro d hd
    obtain ⟨e, he, rfl⟩ := Option.mem_map.mp hd
    exact ⟨(v.settle_location _).symm ▸ h.1, Value.Within.waiting h e he⟩

lemma Item.within_emissions {items : List Item} (h : ∀ item ∈ items, item.Within S)
    (width : Width) (offset : Nat) :
    (Item.emissions symbols here width offset items).Within S := by
  induction items generalizing offset with
  | nil => exact ⟨by simp [emissions], by simp [emissions]⟩
  | cons item items ih =>
    rw [List.forall_mem_cons] at h
    have hfirst : (item.emission symbols here width offset).Within S :=
      Item.Within.emission h.1 width offset
    constructor
    · rw [emissions, List.forall_mem_append]
      exact ⟨hfirst.operands, (ih h.2 _).operands⟩
    · rw [emissions, List.forall_mem_append]
      exact ⟨hfirst.messages, (ih h.2 _).messages⟩

/-! ### Lines -/

lemma SymbolTable.yields_add_oneRow (t : SymbolTable) {name : String} (h : Text.OneRow name)
    (value : UInt16) (kind : SymbolKind) :
    Yields (fun _ => True) (fun e => Text.OneRow e.text) (t.add name value kind) := by
  rw [add]
  split
  · exact Text.OneRow.append (s := "Duplicate label: ") (by decide) h
  · trivial

lemma SymbolTable.yields_assign_oneRow (t : SymbolTable) {name : String} (h : Text.OneRow name)
    (value : UInt16) :
    Yields (fun _ => True) (fun e => Text.OneRow e.text) (t.assign name value) := by
  rw [assign]
  split
  · split
    · trivial
    · exact Text.OneRow.append (s := "Duplicate label: ") (by decide) h
  · trivial

/-- The operands of a line that wait have their places and names from the source. -/
def Record.Within (S : Location → Prop) (r : Record) : Prop :=
  ∀ l ∈ r.line?, ∀ o ∈ l.operands, o.Within S

lemma Record.within_remnant (r : Remnant) : (Record.remnant r).Within S := by
  intro l hl
  cases hl

namespace Assembly

/-- All that is told or waits is from the source. -/
structure Within (S : Location → Prop) (a : Assembly) : Prop where
  log : a.log.Within S
  records : ∀ r ∈ a.records.toList, r.Within S

/-- At the start nothing was told and nothing waits. -/
lemma within_start (cpu : Cpu) : Within S { cpu } :=
  ⟨by simp [Log.Within], by simp⟩

variable {a : Assembly} {location : Location} {label : Option Token}

lemma Within.report (h : a.Within S) {ms : List Message} (hms : ∀ m ∈ ms, m.Within S) :
    (a.report ms).Within S :=
  ⟨h.log.reportAll hms, h.records⟩

lemma Within.error (h : a.Within S) (hlocation : S location) {text : String}
    (htext : Text.OneRow text) : (a.error location text).Within S := by
  refine h.report ?_
  rw [List.forall_mem_singleton]
  exact ⟨hlocation, htext⟩

lemma Within.emit (h : a.Within S) (hlocation : S location) (bs : List UInt8) :
    (a.emit bs location).Within S := by
  rw [Assembly.emit]
  split
  · have htext : Text.OneRow "Location counter out of range" := by decide
    obtain ⟨hlog, hrecords⟩ := h.error hlocation htext
    exact ⟨hlog, hrecords⟩
  · exact ⟨h.log, h.records⟩

lemma Within.withSymbols (h : a.Within S) (hlocation : S location)
    {result : Except SymbolError SymbolTable}
    (hresult : Yields (fun _ => True) (fun e => Text.OneRow e.text) result) :
    (a.withSymbols result location).Within S := by
  cases result with
  | ok symbols => exact ⟨h.log, h.records⟩
  | error e => exact h.error hlocation hresult

lemma Within.defineLabel (h : a.Within S) (hlabel : ∀ t ∈ label, t.Word S) (value : UInt16) :
    (a.defineLabel label value).Within S := by
  cases label with
  | none => exact h
  | some t =>
    obtain ⟨hlocation, hname⟩ := hlabel t rfl
    exact h.withSymbols hlocation (a.symbols.yields_add_oneRow hname _ _)

lemma Within.moveTo (h : a.Within S) (hlocation : S location) (target : UInt16) :
    (a.moveTo target location).Within S := by
  rw [Assembly.moveTo]
  split
  · exact ⟨h.log, h.records⟩
  · split
    · exact h.emit hlocation _
    · exact h.error hlocation (Text.OneRow.append
        (s := "Cannot move the location counter backwards to ") (by decide) (Text.oneRow_hex 4 _))

lemma Within.assign (h : a.Within S) (hlabel : ∀ t ∈ label, t.Word S) (hlocation : S location)
    (how : Assignment) (value : Option UInt16) :
    (a.assign how location label value).Within S := by
  cases label with
  | none => exact h.error hlocation (by cases how <;> decide)
  | some t =>
    obtain ⟨hplace, hname⟩ := hlabel t rfl
    cases value with
    | none => exact h
    | some v =>
      cases how with
      | equ => exact h.withSymbols hplace (a.symbols.yields_add_oneRow hname _ _)
      | set => exact h.withSymbols hplace (a.symbols.yields_assign_oneRow hname _)

lemma Within.put (h : a.Within S) (hlocation : S location) {e : Emission} (he : e.Within S) :
    (a.put e location).Within S := by
  rw [Assembly.put]
  split
  · exact (h.report he.messages).emit hlocation _
  · exact h.report he.messages

/-- What a statement does is told, and waits, at its own places. -/
lemma Within.execute (h : a.Within S) (hlabel : ∀ t ∈ label, t.Word S) {statement : Statement}
    (hstatement : statement.Within S) (here : UInt16) :
    (a.execute here label statement).1.Within S ∧
      ∀ o ∈ (a.execute here label statement).2.2, o.Within S := by
  have hdefine := h.defineLabel hlabel here
  cases statement with
  | empty location => exact ⟨hdefine, by simp [Assembly.execute]⟩
  | endUnit location => exact ⟨⟨hdefine.log, hdefine.records⟩, by simp [Assembly.execute]⟩
  | cpu location name =>
    refine ⟨?_, by simp [Assembly.execute]⟩
    simp only [Assembly.execute]
    split
    · exact ⟨hdefine.log, hdefine.records⟩
    · exact hdefine.error hstatement.1
        (Text.OneRow.append (s := "Unknown CPU: ") (by decide) hstatement.2)
  | org location origin =>
    have hmessages : ∀ m ∈ (origin.evaluate a.symbols here).2, m.Within S :=
      hstatement.of_mem_evaluate
    have hreport := h.report hmessages
    constructor
    · simp only [Assembly.execute]
      refine Within.defineLabel ?_ hlabel _
      split
      · exact hreport.moveTo hstatement.1 _
      · exact hreport
    · rw [Assembly.execute, List.forall_mem_singleton]
      exact OperandNode.within_of_settled _
  | assign how location v =>
    have hmessages : ∀ m ∈ (v.evaluate a.symbols here).2, m.Within S :=
      hstatement.2.of_mem_evaluate
    have hreport := h.report hmessages
    constructor
    · exact hreport.assign hlabel hstatement.1 _ _
    · rw [Assembly.execute, List.forall_mem_singleton]
      exact OperandNode.within_of_settled _
  | data width location items =>
    have hemissions :
        (Item.emissions (a.defineLabel label here).symbols here width 0 items).Within S :=
      Item.within_emissions hstatement.2 width 0
    exact ⟨hdefine.put hstatement.1 hemissions, hemissions.operands⟩
  | instruction i location arguments =>
    obtain ⟨hmnemonic, hlocation, harguments⟩ := hstatement
    have hsettled :
        ∀ o ∈ arguments.map (Argument.settle (a.defineLabel label here).symbols here), o.Within S :=
      List.forall_mem_map.mpr fun argument hargument => (harguments argument hargument).settle
    have hemission := Instruction.within_emission hmnemonic hlocation hsettled
    exact ⟨hdefine.put hlocation hemission, hemission.operands⟩

lemma Within.record (h : a.Within S) {r : Record} (hr : r.Within S) : (a.record r).Within S := by
  refine ⟨h.log, ?_⟩
  rw [Assembly.record, Array.toList_push, List.forall_mem_append, List.forall_mem_singleton]
  exact ⟨h.records, hr⟩

lemma Within.accept (h : a.Within S) (hlabel : ∀ t ∈ label, t.Word S) {statement : Statement}
    (hstatement : statement.Within S) (location : Location) (comment : Option Token) :
    (a.accept location label statement comment).Within S := by
  obtain ⟨hafter, hoperands⟩ := h.execute hlabel hstatement a.code.locationCounter
  rw [accept_eq]
  refine hafter.record ?_
  rintro l ⟨⟩
  exact hoperands

lemma Within.examine (h : a.Within S) (hlabel : ∀ t ∈ label, t.Word S) {fragment : Fragment}
    (hfragment : fragment.Within S) (here : UInt16) :
    (a.examine here label fragment).1.Within S := by
  have hdefine := h.defineLabel hlabel here
  cases fragment with
  | nothing => exact hdefine
  | org location | assign how location => exact h
  | data width location items =>
    exact hdefine.report (Item.within_emissions hfragment width 0).messages
  | instruction i location arguments =>
    refine hdefine.report ?_
    simp only [List.mem_flatMap, List.mem_map]
    rintro m ⟨-, ⟨argument, hargument, rfl⟩, hm⟩
    exact (Argument.Within.settle (hfragment argument hargument)).messages m hm

lemma Within.reject (h : a.Within S) (hlabel : ∀ t ∈ label, t.Word S) {fragment : Fragment}
    (hfragment : fragment.Within S) {failure : Failure} (hfailure : failure.Within S) :
    (a.reject label fragment failure).Within S := by
  rw [reject_eq]
  refine ((h.examine hlabel hfragment _).record (Record.within_remnant _)).report ?_
  rw [List.forall_mem_singleton]
  exact hfailure

/-- A line of the source is told about at its own places. -/
lemma Within.step (h : a.Within S) {line : SourceLine} (hline : line.body ≠ [] → line.Within S) :
    (a.step line).Within S := by
  rcases a.step_eq_cases line with
    ⟨-, heq⟩ | ⟨first, label, statement, comment, hfirst, hread, heq⟩ |
      ⟨first, label, fragment, failure, hfirst, hread, heq⟩
  · rw [heq]
    exact h
  · have hwithin := (hline (List.ne_nil_of_mem (List.mem_of_mem_head? hfirst))).read a.cpu
    rw [hread] at hwithin
    rw [heq]
    exact h.accept hwithin.1 hwithin.2 _ _
  · have hwithin := (hline (List.ne_nil_of_mem (List.mem_of_mem_head? hfirst))).read a.cpu
    rw [hread] at hwithin
    rw [heq]
    exact h.reject hwithin.1 hwithin.2.1 hwithin.2.2

lemma Within.steps (h : a.Within S) {lines : List SourceLine}
    (hlines : ∀ line ∈ lines, line.body ≠ [] → line.Within S) : (a.steps lines).Within S := by
  induction lines generalizing a with
  | nil => exact h
  | cons line lines ih =>
    rw [List.forall_mem_cons] at hlines
    exact ih (h.step hlines.1) hlines.2

lemma Within.warnAfterEnd (h : a.Within S) {lines : List SourceLine}
    (hlines : ∀ line ∈ lines, line.body ≠ [] → line.Within S) :
    (a.warnAfterEnd lines).Within S := by
  rw [Assembly.warnAfterEnd]
  split
  · rename_i t hfind
    obtain ⟨line, hline, ht⟩ := List.mem_flatMap.mp (List.mem_of_find?_eq_some hfind)
    have htext : Text.OneRow "Text after END is ignored" := by decide
    refine h.report ?_
    rw [List.forall_mem_singleton]
    exact ⟨((hlines line hline (List.ne_nil_of_mem ht)).body t ht).1, htext⟩
  · exact h

lemma within_run (cpu : Cpu) {lines : List SourceLine}
    (hlines : ∀ line ∈ lines, line.body ≠ [] → line.Within S) :
    (({ cpu } : Assembly).run lines).Within S := by
  obtain ⟨done, rest, rfl, hrun⟩ := ({ cpu } : Assembly).run_eq_steps lines
  rw [List.forall_mem_append] at hlines
  rw [hrun]
  exact ((within_start cpu).steps hlines.1).warnAfterEnd hlines.2

end Assembly

/-! ### The last pass -/

namespace Patching

variable {p : Patching}

/-- An operand with its slot inside the code is told about at its own place. -/
lemma within_resolveOperand (h : p.log.Within S) {place : Placement} {o : OperandNode}
    (hslots : ∀ s ∈ Slot.ofOperands place.start [o], s.index + s.width ≤ p.code.size)
    (ho : o.Within S) : (p.resolveOperand symbols place o).2.log.Within S := by
  rw [resolveOperand]
  cases hdeferred : o.deferred with
  | none => exact h
  | some d =>
    obtain ⟨hlocation, hexpr⟩ := ho d hdeferred
    simp only
    cases heval : d.expr.eval symbols place.address with
    | error name =>
      have hmessage := within_undefinedSymbol hlocation (hexpr.of_eval heval)
      exact h.reportAll (List.forall_mem_singleton.mpr hmessage)
    | ok n =>
      have hslot : place.start + d.offset + d.width.size ≤ p.code.size :=
        hslots ⟨place.start + d.offset, d.width.size⟩ (by simp [Slot.ofOperands, hdeferred])
      simp only
      rw [write_log _ (by rw [Width.length_bytesOf]; exact hslot)]
      exact h.reportAll (within_of_mem_checkRange hlocation)

lemma within_resolveOperands (h : p.log.Within S) {place : Placement} {os : List OperandNode}
    (hslots : ∀ s ∈ Slot.ofOperands place.start os, s.index + s.width ≤ p.code.size)
    (hos : ∀ o ∈ os, o.Within S) : (p.resolveOperands symbols place os).2.log.Within S := by
  induction os generalizing p with
  | nil => exact h
  | cons o os ih =>
    rw [← List.singleton_append, Slot.ofOperands_append, List.forall_mem_append] at hslots
    rw [List.forall_mem_cons] at hos
    have hfirst : (p.resolveOperand symbols place o).2.log.Within S :=
      within_resolveOperand h hslots.1 hos.1
    have hsize := (p.resolveOperand_extent symbols place o).size
    exact ih hfirst (hsize.symm ▸ hslots.2) hos.2

lemma within_resolveRecords (h : p.log.Within S) {rs : List Record}
    (hslots : ∀ l ∈ rs.filterMap Record.line?, ∀ s ∈ l.slots, s.index + s.width ≤ p.code.size)
    (hrs : ∀ r ∈ rs, r.Within S) : (p.resolveRecords symbols rs).2.log.Within S := by
  induction rs generalizing p with
  | nil => exact h
  | cons r rs ih =>
    rw [List.forall_mem_cons] at hrs
    cases r with
    | remnant r => exact ih h hslots hrs.2
    | line l =>
      simp only [List.filterMap_cons, Record.line?, List.forall_mem_cons] at hslots
      have hfirst : (p.resolveOperands symbols l.place l.operands).2.log.Within S :=
        within_resolveOperands h hslots.1 (hrs.1 l rfl)
      have hsize := (p.resolveOperands_extent symbols l.place l.operands).size
      exact ih hfirst (hsize.symm ▸ hslots.2) hrs.2

end Patching

/-- With all slots inside the code, the last pass tells about what waits at its own places. -/
lemma Assembly.Within.finish {a : Assembly} (h : a.Within S) (moduleName : String)
    (hslots : ∀ s ∈ a.slots, s.index + s.width ≤ a.code.size) :
    (a.finish moduleName).2.Within S := by
  refine Patching.within_resolveRecords (p := ⟨a.code, a.log⟩) h.log ?_ h.records
  exact fun l hl s hs => hslots s (List.mem_flatMap.mpr ⟨l, hl, hs⟩)

/-! ### Sources -/

/-- The place of a token on a line of the source that is not blank. -/
def SourceLine.Has (source : String) (location : Location) : Prop :=
  ∃ line ∈ ofText source, line.body ≠ [] ∧ ∃ t ∈ line.tokens, location = t.location

lemma SourceLine.within_of_mem {source : String} {line : SourceLine} (h : line ∈ ofText source)
    (hbody : line.body ≠ []) : line.Within (Has source) := by
  have hdivide := divide_ofText source
  have hhas : ∀ t ∈ line.tokens, Has source t.location := fun t ht => ⟨line, h, hbody, t, ht, rfl⟩
  have hmem : ∀ t ∈ line.tokens, t ∈ (Scanner.ofText source).allTokens := by
    intro t ht
    rw [← hdivide.tokens]
    exact List.mem_flatMap.mpr ⟨line, h, ht⟩
  rw [tokens, List.forall_mem_append] at hhas hmem
  refine ⟨?_, hhas.2 _ List.mem_cons_self, hdivide.endsLine_stop line h⟩
  intro t ht
  exact ⟨hhas.1 t ht, Scanner.oneRow_allTokens _ t (hmem.1 t ht) (hdivide.body line h t ht)⟩

/-- Every message about a source is located at a token of one of its lines that are not blank, and
its text takes up one row. -/
lemma within_assemble (cpu : Cpu) (moduleName source : String) :
    (assemble cpu moduleName source).2.Within (SourceLine.Has source) := by
  have hrun : (({ cpu } : Assembly).run (SourceLine.ofText source)).Within (SourceLine.Has source) :=
    Assembly.within_run cpu fun _ => SourceLine.within_of_mem
  exact hrun.finish moduleName (Assembly.inside_run cpu _)

end MicroAsm
