import MicroAsm.Proofs.Assembly.Slots
import MicroAsm.Proofs.Likeness.Operand
import MicroAsm.Proofs.Likeness.Reading

/-!
# Assembling texts that are alike

Lines that are alike leave like records and the same code. What an assembly does next depends on
its processor, symbols and code, so these are kept alike from line to line; the records are only
looked at by the last pass.
-/

namespace MicroAsm

open List (Forall₂)

variable {L : Likeness}

/-! ### Logs -/

namespace Log.Alike

variable {log log' : Log}

lemma report (h : log.Alike L log') {m m' : Message} (hm : m.Alike L m') :
    (log.report m).Alike L (log'.report m') := by
  obtain ⟨severity, location, text⟩ := m
  obtain ⟨severity', location', text'⟩ := m'
  obtain ⟨rfl, -, -⟩ := id hm
  have hmessages : Forall₂ (Message.Alike L) (log.messages.toList ++ [_])
      (log'.messages.toList ++ [_]) := List.rel_append h.messages (.cons hm .nil)
  rw [← Array.toList_push, ← Array.toList_push] at hmessages
  cases severity with
  | warning => exact ⟨hmessages, h.errors, congrArg (· + 1) h.warnings, h.exceptions⟩
  | error => exact ⟨hmessages, congrArg (· + 1) h.errors, h.warnings, h.exceptions⟩
  | exception => exact ⟨hmessages, h.errors, h.warnings, congrArg (· + 1) h.exceptions⟩

lemma reportAll (h : log.Alike L log') {ms ms' : List Message}
    (hms : Forall₂ (Message.Alike L) ms ms') : (log.reportAll ms).Alike L (log'.reportAll ms') :=
  List.rel_foldl (fun _ _ hlog _ _ hm => hlog.report hm) h hms

end Log.Alike

/-! ### Operations -/

/-- The states of two assemblies are alike but for the records so far. -/
structure Assembly.Alike (L : Likeness) (a a' : Assembly) : Prop where
  cpu : a.cpu = a'.cpu
  symbols : a.symbols.Alike L a'.symbols
  code : a.code = a'.code
  log : a.log.Alike L a'.log
  ended : a.ended = a'.ended

namespace Assembly.Alike

variable {a a' : Assembly} {l l' : Location}

lemma report (h : a.Alike L a') {ms ms' : List Message} (hms : Forall₂ (Message.Alike L) ms ms') :
    (a.report ms).Alike L (a'.report ms') :=
  ⟨h.cpu, h.symbols, h.code, h.log.reportAll hms, h.ended⟩

lemma error (h : a.Alike L a') (hplace : L.place l l') {text text' : String}
    (htext : L.SameText text text') : (a.error l text).Alike L (a'.error l' text') :=
  h.report (.cons ⟨rfl, hplace, htext⟩ .nil)

lemma emit (h : a.Alike L a') (hplace : L.place l l') (bytes : List UInt8) :
    (a.emit bytes l).Alike L (a'.emit bytes l') := by
  have herror := h.error hplace (.refl "Location counter out of range")
  rw [Assembly.emit, Assembly.emit, ← h.code]
  split
  · exact ⟨herror.cpu, herror.symbols, congrArg (·.append bytes) herror.code, herror.log,
      herror.ended⟩
  · exact ⟨h.cpu, h.symbols, congrArg (·.append bytes) h.code, h.log, h.ended⟩

lemma withSymbols (h : a.Alike L a') (hplace : L.place l l')
    {result result' : Except SymbolError SymbolTable}
    (hresult : Corresponds (SymbolError.Alike L) (SymbolTable.Alike L) result result') :
    (a.withSymbols result l).Alike L (a'.withSymbols result' l') := by
  cases hresult with
  | ok hsymbols => exact ⟨h.cpu, hsymbols, h.code, h.log, h.ended⟩
  | error he => exact h.error hplace he

lemma defineLabel (h : a.Alike L a') {label label' : Option Token}
    (hlabel : Option.Rel (Token.Alike L) label label') (value : UInt16) :
    (a.defineLabel label value).Alike L (a'.defineLabel label' value) := by
  cases hlabel with
  | none => exact h
  | some ht => exact h.withSymbols ht.place (SymbolTable.add_alike h.symbols ht.name value .label)

lemma moveTo (h : a.Alike L a') (hplace : L.place l l') (target : UInt16) :
    (a.moveTo target l).Alike L (a'.moveTo target l') := by
  rw [Assembly.moveTo, Assembly.moveTo, ← h.code]
  split
  · exact ⟨h.cpu, h.symbols, rfl, h.log, h.ended⟩
  · split
    · exact h.emit hplace _
    · exact h.error hplace (.refl _)

lemma assign (h : a.Alike L a') (how : Assignment) (hplace : L.place l l')
    {label label' : Option Token} (hlabel : Option.Rel (Token.Alike L) label label')
    (value : Option UInt16) :
    (a.assign how l label value).Alike L (a'.assign how l' label' value) := by
  cases hlabel with
  | none => exact h.error hplace (.refl _)
  | some ht =>
    cases value with
    | none => exact h
    | some v =>
      cases how with
      | equ => exact h.withSymbols ht.place (SymbolTable.add_alike h.symbols ht.name v .equ)
      | set => exact h.withSymbols ht.place (SymbolTable.assign_alike h.symbols ht.name v)

lemma put (h : a.Alike L a') (hplace : L.place l l') {e e' : Emission} (he : e.Alike L e') :
    (a.put e l).Alike L (a'.put e' l') := by
  have hreport := h.report he.messages
  rw [Assembly.put, Assembly.put, ← he.emits, ← he.bytes]
  split
  · exact hreport.emit hplace _
  · exact hreport

/-! ### Statements -/

variable {label label' comment comment' : Option Token}

/-- What a statement does to like states, with the nodes that it makes. -/
structure Executed (L : Likeness) (r r' : Assembly × Node × List OperandNode) : Prop where
  state : r.1.Alike L r'.1
  node : r.2.1.Alike L r'.2.1
  operands : Forall₂ (OperandNode.Alike L) r.2.2 r'.2.2

lemma directive_alike (width : Width) (hplace : L.place l l') :
    (width.directive l).Alike L (width.directive l') := by
  cases width <;> exact ⟨.same _, .refl _, hplace⟩

lemma execute (h : a.Alike L a') (here : UInt16)
    (hlabel : Option.Rel (Token.Alike L) label label') {statement statement' : Statement}
    (hstatement : statement.Alike L statement') :
    Executed L (a.execute here label statement) (a'.execute here label' statement') := by
  have hdefined := h.defineLabel hlabel here
  cases hstatement with
  | empty hplace => exact ⟨hdefined, ⟨.same _, .refl _, hplace⟩, .nil⟩
  | endUnit hplace =>
    exact ⟨⟨hdefined.cpu, hdefined.symbols, hdefined.code, hdefined.log, rfl⟩,
      ⟨.same _, .refl _, hplace⟩, .nil⟩
  | cpu hplace ht =>
    refine ⟨?_, ⟨.same _, ht.name.text, hplace⟩, .nil⟩
    simp only [Assembly.execute, ← ht.name.ofName?]
    split
    · exact ⟨rfl, hdefined.symbols, hdefined.code, hdefined.log, hdefined.ended⟩
    · exact hdefined.error ht.place ((Likeness.SameText.refl _).append ht.name.text)
  | @org _ _ hplace v v' hv =>
    obtain ⟨hvalue, hmessages⟩ := hv.evaluate h.symbols here
    have hreport := h.report hmessages
    simp only [Assembly.execute, ← hvalue]
    refine ⟨?_, ⟨.same _, .refl _, hplace⟩, .cons ⟨hv.node here .address _, .none⟩ .nil⟩
    cases (v.evaluate a.symbols here).1 with
    | none =>
      simp only [← hreport.code]
      exact hreport.defineLabel hlabel _
    | some target =>
      have hmove := hreport.moveTo hv.place target
      simp only [← hmove.code]
      exact hmove.defineLabel hlabel _
  | assign how hplace hv =>
    obtain ⟨hvalue, hmessages⟩ := hv.evaluate h.symbols here
    simp only [Assembly.execute, ← hvalue]
    exact ⟨(h.report hmessages).assign how hplace hlabel _, ⟨.same _, .refl _, hplace⟩,
      .cons ⟨hv.node here .word _, .none⟩ .nil⟩
  | data width hplace hitems =>
    have he := Item.emissions_alike hitems hdefined.symbols here width 0
    exact ⟨hdefined.put hplace he, directive_alike width hplace, he.operands⟩
  | instruction i hplace harguments =>
    have he := i.emission_alike hplace
      (List.rel_map (fun _ _ ha => ha.settle hdefined.symbols here) harguments)
    exact ⟨hdefined.put hplace he, ⟨.same _, .refl _, hplace⟩, he.operands⟩

lemma labelNode_alike {t t' : Token} (ht : t.Alike L t') :
    (labelNode t).Alike L (labelNode t') :=
  ⟨.same _, ht.name.text, ht.place⟩

lemma commentNode_alike {t t' : Token} (ht : t.Alike L t') :
    (commentNode t).Alike L (commentNode t') :=
  ⟨.same _, ht.name.text, ht.place⟩

lemma isOrg_alike {n n' : Node} (h : n.Alike L n') : (n.kind = .org) = (n'.kind = .org) := by
  obtain ⟨kind, text, place⟩ := n
  obtain ⟨kind', text', place'⟩ := n'
  obtain ⟨hkind, -, -⟩ := h
  change kind.Alike L kind' at hkind
  cases hkind with
  | same => rfl
  | expression => simp

lemma lineOf (h : a.Alike L a') (hplace : L.place l l')
    (hlabel : Option.Rel (Token.Alike L) label label') {statement statement' : Statement}
    (hstatement : statement.Alike L statement')
    (hcomment : Option.Rel (Token.Alike L) comment comment') :
    (a.lineOf l label statement comment).Alike L (a'.lineOf l' label' statement' comment') := by
  have hexecuted := h.execute a.code.locationCounter hlabel hstatement
  rw [h.code] at hexecuted
  refine ⟨?_, hplace, hlabel.map fun _ _ => labelNode_alike, ?_, ?_,
    hcomment.map fun _ _ => commentNode_alike⟩
  · simp only [Assembly.lineOf, placement, h.code, hexecuted.state.code,
      isOrg_alike hexecuted.node]
  · simp only [Assembly.lineOf, h.code]
    exact hexecuted.node
  · simp only [Assembly.lineOf, h.code]
    exact hexecuted.operands

/-- What is left of rejected lines in like states. -/
structure Examined (L : Likeness) (r r' : Assembly × Option Node × List Node) : Prop where
  state : r.1.Alike L r'.1
  node : Option.Rel (Node.Alike L) r.2.1 r'.2.1
  operands : Forall₂ (Node.Alike L) r.2.2 r'.2.2

lemma examine (h : a.Alike L a') (here : UInt16)
    (hlabel : Option.Rel (Token.Alike L) label label') {fragment fragment' : Fragment}
    (hfragment : fragment.Alike L fragment') :
    Examined L (a.examine here label fragment) (a'.examine here label' fragment') := by
  have hdefined := h.defineLabel hlabel here
  cases hfragment with
  | nothing => exact ⟨hdefined, .none, .nil⟩
  | org hplace => exact ⟨h, .some ⟨.same _, .refl _, hplace⟩, .nil⟩
  | assign how hplace => exact ⟨h, .some ⟨.same _, .refl _, hplace⟩, .nil⟩
  | data width hplace hitems =>
    have he := Item.emissions_alike hitems hdefined.symbols here width 0
    exact ⟨hdefined.report he.messages, .some (directive_alike width hplace),
      List.rel_map (fun _ _ ho => ho.node) he.operands⟩
  | instruction i hplace harguments =>
    have hsettled := List.rel_map (fun _ _ ha => ha.settle hdefined.symbols here) harguments
    exact ⟨hdefined.report (List.rel_flatMap hsettled fun _ _ hs => hs.messages),
      .some ⟨.same _, .refl _, hplace⟩, List.rel_map (fun _ _ hs => hs.node) hsettled⟩

/-! ### Lines -/

/-- From like states two assemblies have come to like states, and they have added like records. -/
structure Advance (L : Likeness) (a a' b b' : Assembly) : Prop where
  state : b.Alike L b'
  records : ∃ rs rs', b.records.toList = a.records.toList ++ rs ∧
    b'.records.toList = a'.records.toList ++ rs' ∧ Forall₂ (Record.Alike L) rs rs'

lemma Advance.of_records {b b' : Assembly} (h : b.Alike L b') (hrecords : b.records = a.records)
    (hrecords' : b'.records = a'.records) : Advance L a a' b b' :=
  ⟨h, [], [], by rw [hrecords, List.append_nil], by rw [hrecords', List.append_nil], .nil⟩

lemma Advance.trans {b b' c c' : Assembly} (h : Advance L a a' b b') (h' : Advance L b b' c c') :
    Advance L a a' c c' := by
  obtain ⟨rs, rs', hrs, hrs', halike⟩ := h.records
  obtain ⟨ss, ss', hss, hss', halike'⟩ := h'.records
  refine ⟨h'.state, rs ++ ss, rs' ++ ss', ?_, ?_, List.rel_append halike halike'⟩
  · rw [hss, hrs, List.append_assoc]
  · rw [hss', hrs', List.append_assoc]

lemma accept (h : a.Alike L a') (hplace : L.place l l')
    (hlabel : Option.Rel (Token.Alike L) label label') {statement statement' : Statement}
    (hstatement : statement.Alike L statement')
    (hcomment : Option.Rel (Token.Alike L) comment comment') :
    Advance L a a' (a.accept l label statement comment)
      (a'.accept l' label' statement' comment') := by
  have hexecuted := (h.execute a.code.locationCounter hlabel hstatement).state
  rw [accept_eq, accept_eq, ← h.code]
  refine ⟨⟨hexecuted.cpu, hexecuted.symbols, hexecuted.code, hexecuted.log, hexecuted.ended⟩,
    [_], [_], ?_, ?_, .cons (.line (h.lineOf hplace hlabel hstatement hcomment)) .nil⟩
  · rw [record, execute_records, Array.toList_push]
  · rw [record, execute_records, Array.toList_push]

lemma reject (h : a.Alike L a') (hlabel : Option.Rel (Token.Alike L) label label')
    {fragment fragment' : Fragment} (hfragment : fragment.Alike L fragment')
    {failure failure' : Failure} (hfailure : failure.Alike L failure') :
    Advance L a a' (a.reject label fragment failure) (a'.reject label' fragment' failure') := by
  have hexamined := h.examine a.code.locationCounter hlabel hfragment
  have hmessage : failure.message.Alike L failure'.message :=
    ⟨rfl, hfailure.place, fun hspelled => congrArg SyntaxFault.text (hfailure.fault hspelled)⟩
  have hstate := hexamined.state.report (.cons hmessage .nil)
  have hremnant : (a.remnantOf label fragment).Alike L (a'.remnantOf label' fragment') := by
    rw [remnantOf, remnantOf, ← h.code]
    exact ⟨hlabel.map fun _ _ => labelNode_alike, hexamined.node, hexamined.operands⟩
  refine ⟨?_, [_], [_], ?_, ?_, .cons (.remnant hremnant) .nil⟩
  · rw [reject_eq, reject_eq, ← h.code]
    exact ⟨hstate.cpu, hstate.symbols, hstate.code, hstate.log, hstate.ended⟩
  · rw [(reject_frame _ _ _ _).2.2.1, Array.toList_push]
  · rw [(reject_frame _ _ _ _).2.2.1, Array.toList_push]

/-- Like lines leave like records. -/
lemma step (h : a.Alike L a') {line line' : SourceLine} (hline : line.Alike L line') :
    Advance L a a' (a.step line) (a'.step line') := by
  have hread := SourceLine.read_alike a.cpu hline
  rw [Assembly.step, Assembly.step, ← h.cpu]
  cases hbody : line.body with
  | nil =>
    have hbody' := hline.body
    rw [hbody] at hbody'
    rw [List.forall₂_nil_left_iff.mp hbody']
    exact .of_records h rfl rfl
  | cons first rest =>
    have hbody' := hline.body
    rw [hbody, List.forall₂_cons_left_iff] at hbody'
    obtain ⟨first', rest', hfirst, -, hbody'⟩ := hbody'
    simp only [hbody']
    generalize line.read a.cpu = reading at hread
    generalize line'.read a.cpu = reading' at hread
    cases hread with
    | accepted hlabel hstatement hcomment => exact h.accept hfirst.place hlabel hstatement hcomment
    | rejected hlabel hfragment hfailure => exact h.reject hlabel hfragment hfailure

lemma warnAfterEnd (h : a.Alike L a') {lines lines' : List SourceLine}
    (hlines : Forall₂ (SourceLine.Alike L) lines lines') :
    (a.warnAfterEnd lines).Alike L (a'.warnAfterEnd lines') := by
  have hword : Option.Rel (Token.Alike L)
      ((lines.flatMap SourceLine.body).find? (·.kind ≠ .comment))
      ((lines'.flatMap SourceLine.body).find? (·.kind ≠ .comment)) := by
    refine rel_find? (List.rel_flatMap hlines fun _ _ hline => hline.body) ?_
    intro t t' ht
    rw [ht.kind]
  rw [Assembly.warnAfterEnd, Assembly.warnAfterEnd]
  generalize (lines.flatMap SourceLine.body).find? (·.kind ≠ .comment) = word at hword
  generalize (lines'.flatMap SourceLine.body).find? (·.kind ≠ .comment) = word' at hword
  cases hword with
  | none => exact h
  | some ht => exact h.report (.cons ⟨rfl, ht.place, .refl _⟩ .nil)

/-- Texts that are alike are assembled alike, up to the last pass. -/
lemma run (h : a.Alike L a') {lines lines' : List SourceLine}
    (hlines : Forall₂ (SourceLine.Alike L) lines lines') :
    Advance L a a' (a.run lines) (a'.run lines') := by
  induction hlines generalizing a a' with
  | nil => exact .of_records h rfl rfl
  | @cons line line' lines lines' hline hlines ih =>
    rw [Assembly.run, Assembly.run, ← h.ended]
    split
    · exact .of_records (h.warnAfterEnd (.cons hline hlines)) (a.warnAfterEnd_frame _).2.2.2.1
        (a'.warnAfterEnd_frame _).2.2.2.1
    · have hstep := h.step hline
      exact hstep.trans (ih hstep.state)

end Assembly.Alike

/-! ### The last pass -/

structure Patching.Alike (L : Likeness) (p p' : Patching) : Prop where
  code : p.code = p'.code
  log : p.log.Alike L p'.log

namespace Patching.Alike

variable {p p' : Patching} {symbols symbols' : SymbolTable}

/-- Only a value that has no room is told about with its place. -/
lemma write (h : p.Alike L p') (index : Nat) (bytes : List UInt8) {l l' : Location}
    (hplace : L.place l l') (hroom : index + bytes.length ≤ p.code.size ∨ L.Shows) :
    (p.write index bytes l).Alike L (p'.write index bytes l') := by
  rw [Patching.write, Patching.write, ← h.code]
  split
  · exact ⟨rfl, h.log⟩
  · rename_i hnone
    have hover : ¬index + bytes.length ≤ p.code.size :=
      fun hle => Option.some_ne_none _ ((if_pos hle).symm.trans hnone)
    have hshows := hroom.resolve_left hover
    have hmessage : Message.Alike L
        ⟨.exception, .none, "fixup out of bounds at " ++ l.text⟩
        ⟨.exception, .none, "fixup out of bounds at " ++ l'.text⟩ := by
      refine ⟨rfl, L.place_none, fun hspelled => ?_⟩
      exact congrArg ("fixup out of bounds at " ++ ·) (hshows hspelled hplace)
    exact ⟨rfl, h.log.report hmessage⟩

lemma kind_resolved {kind kind' : NodeKind} (h : kind.Alike L kind') (word : UInt16) :
    (kind.resolved word).Alike L (kind'.resolved word) := by
  cases h with
  | same kind => exact .same _
  | expression he => exact .expression he

lemma resolveOperand (h : p.Alike L p') (hsymbols : symbols.Alike L symbols') (place : Placement)
    {o o' : OperandNode} (ho : o.Alike L o')
    (hroom : (∀ s ∈ Slot.ofOperands place.start [o], s.index + s.width ≤ p.code.size) ∨ L.Shows) :
    (p.resolveOperand symbols place o).1.Alike L (p'.resolveOperand symbols' place o').1 ∧
      (p.resolveOperand symbols place o).2.Alike L (p'.resolveOperand symbols' place o').2 := by
  rw [Patching.resolveOperand, Patching.resolveOperand]
  cases hdeferred : o.deferred with
  | none =>
    rw [ho.deferred.of_none hdeferred]
    exact ⟨ho, h⟩
  | some d =>
    obtain ⟨d', hdeferred', hd⟩ := ho.deferred.of_some hdeferred
    simp only [hdeferred']
    cases heval : d.expr.eval symbols place.address with
    | error name =>
      obtain ⟨name', heval', hname⟩ := (hd.expr.eval hsymbols place.address).of_error heval
      rw [heval']
      exact ⟨⟨ho.node, .none⟩, h.code, h.log.report (undefinedSymbol_alike hname ho.node.place)⟩
    | ok n =>
      obtain ⟨_, heval', rfl⟩ := (hd.expr.eval hsymbols place.address).of_ok heval
      obtain ⟨hword, hmessages⟩ := checkRange_alike d.width.bits n ho.node.place
      have hlog : Patching.Alike L { p with log := p.log.reportAll _ }
          { p' with log := p'.log.reportAll _ } := ⟨h.code, h.log.reportAll hmessages⟩
      have hwrite : place.start + d.offset +
          (d.width.bytesOf ((checkRange d.width.bits n o.node.location).1)).length ≤ p.code.size ∨
            L.Shows := by
        refine hroom.imp_left fun hslots => ?_
        rw [Width.length_bytesOf]
        exact hslots ⟨place.start + d.offset, d.width.size⟩
          (by simp [Slot.ofOperands, hdeferred])
      simp only [heval', ← hd.width, ← hd.offset, ← hword]
      exact ⟨⟨⟨kind_resolved ho.node.kind _, ho.node.text, ho.node.place⟩, .none⟩,
        hlog.write _ _ ho.node.place hwrite⟩

lemma resolveOperands (h : p.Alike L p') (hsymbols : symbols.Alike L symbols') (place : Placement)
    {os os' : List OperandNode} (hos : Forall₂ (OperandNode.Alike L) os os')
    (hroom : (∀ s ∈ Slot.ofOperands place.start os, s.index + s.width ≤ p.code.size) ∨ L.Shows) :
    Forall₂ (OperandNode.Alike L) (p.resolveOperands symbols place os).1
        (p'.resolveOperands symbols' place os').1 ∧
      (p.resolveOperands symbols place os).2.Alike L (p'.resolveOperands symbols' place os').2 := by
  induction hos generalizing p p' with
  | nil => exact ⟨.nil, h⟩
  | @cons o o' os os' ho _ ih =>
    rw [← List.singleton_append, Slot.ofOperands_append, List.forall_mem_append] at hroom
    obtain ⟨hfirst, hp⟩ := h.resolveOperand hsymbols place ho (hroom.imp_left And.left)
    have hsize := (p.resolveOperand_extent symbols place o).size
    obtain ⟨hrest, hp'⟩ := ih hp (hroom.imp_left fun hslots => hsize.symm ▸ hslots.2)
    exact ⟨.cons hfirst hrest, hp'⟩

lemma resolveRecords (h : p.Alike L p') (hsymbols : symbols.Alike L symbols') {rs rs' : List Record}
    (hrs : Forall₂ (Record.Alike L) rs rs')
    (hroom : (∀ l ∈ rs.filterMap Record.line?, ∀ s ∈ l.slots, s.index + s.width ≤ p.code.size) ∨
      L.Shows) :
    Forall₂ (Record.Alike L) (p.resolveRecords symbols rs).1 (p'.resolveRecords symbols' rs').1 ∧
      (p.resolveRecords symbols rs).2.Alike L (p'.resolveRecords symbols' rs').2 := by
  induction hrs generalizing p p' with
  | nil => exact ⟨.nil, h⟩
  | cons hr _ ih =>
    cases hr with
    | remnant hr =>
      obtain ⟨hrest, hp⟩ := ih h hroom
      exact ⟨.cons (.remnant hr) hrest, hp⟩
    | @line l l' hl =>
      simp only [List.filterMap_cons, Record.line?, List.forall_mem_cons] at hroom
      obtain ⟨hoperands, hp⟩ :=
        h.resolveOperands hsymbols l.place hl.operands (hroom.imp_left And.left)
      have hsize := (p.resolveOperands_extent symbols l.place l.operands).size
      simp only [Patching.resolveRecords, ← hl.place]
      obtain ⟨hrest, hp'⟩ := ih hp (hroom.imp_left fun hslots => hsize.symm ▸ hslots.2)
      exact ⟨.cons (.line ⟨rfl, hl.location, hl.label, hl.statement, hoperands, hl.comment⟩)
        hrest, hp'⟩

end Patching.Alike

/-! ### Programs -/

structure Program.Alike (L : Likeness) (p p' : Program) : Prop where
  records : Forall₂ (Record.Alike L) p.records p'.records
  object : p.object = p'.object
  symbols : p.symbols.Alike L p'.symbols
  cpu : p.cpu = p'.cpu

lemma Program.Alike.lines {p p' : Program} (h : p.Alike L p') :
    Forall₂ (Line.Alike L) p.lines p'.lines := by
  refine List.rel_filterMap ?_ h.records
  rintro _ _ (hl | _)
  · exact .some hl
  · exact .none

/-- Lines that are alike come to like programs and like messages. All values that wait have room in
the code, so the last pass shows no place. -/
lemma finish_alike (cpu : Cpu) (moduleName : String) {lines lines' : List SourceLine}
    (h : Forall₂ (SourceLine.Alike L) lines lines') :
    ((({ cpu } : Assembly).run lines).finish moduleName).1.Alike L
        ((({ cpu } : Assembly).run lines').finish moduleName).1 ∧
      ((({ cpu } : Assembly).run lines).finish moduleName).2.Alike L
        ((({ cpu } : Assembly).run lines').finish moduleName).2 := by
  have hstart : Assembly.Alike L { cpu } { cpu } :=
    ⟨rfl, .nil, rfl, ⟨.nil, rfl, rfl, rfl⟩, rfl⟩
  have hrun := hstart.run h
  obtain ⟨rs, rs', hrs, hrs', hrecords⟩ := hrun.records
  rw [Array.toList_empty, List.nil_append] at hrs hrs'
  rw [← hrs, ← hrs'] at hrecords
  have hpatching : Patching.Alike L ⟨_, _⟩ ⟨_, _⟩ := ⟨hrun.state.code, hrun.state.log⟩
  have hroom : ∀ l ∈ (({ cpu } : Assembly).run lines).lines, ∀ s ∈ l.slots,
      s.index + s.width ≤ (({ cpu } : Assembly).run lines).code.size :=
    fun l hl s hs => Assembly.inside_run cpu lines s (List.mem_flatMap.mpr ⟨l, hl, hs⟩)
  obtain ⟨hresolved, hlast⟩ :=
    hpatching.resolveRecords hrun.state.symbols hrecords (.inl hroom)
  refine ⟨⟨hresolved, ?_, hrun.state.symbols, hrun.state.cpu⟩, hlast.log⟩
  exact congrArg ((ObjectCode.ofModule moduleName).put .code) hlast.code

/-- Texts that are alike come to like programs and like messages. -/
lemma assemble_alike (cpu : Cpu) (moduleName : String) {source source' : String}
    (h : Forall₂ (SourceLine.Alike L) (SourceLine.ofText source) (SourceLine.ofText source')) :
    (assemble cpu moduleName source).1.Alike L (assemble cpu moduleName source').1 ∧
      (assemble cpu moduleName source).2.Alike L (assemble cpu moduleName source').2 :=
  finish_alike cpu moduleName h

end MicroAsm
