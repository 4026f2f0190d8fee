import MicroAsm.Proofs.Assembly.Resolution

/-!
# Lines that pass without a word

Lines without a label that put bytes into the code or move the location counter, give no message
and leave no value waiting. Nothing but the code and the records changes on them, so a unit of such
lines has exactly the bytes of its lines.
-/

namespace MicroAsm

namespace Assembly

/-- From one state to another only the code and the records have changed, and no value waits that
did not wait before. -/
structure Quiet (a b : Assembly) : Prop where
  cpu : b.cpu = a.cpu
  symbols : b.symbols = a.symbols
  log : b.log = a.log
  ended : b.ended = a.ended
  settled : (∀ r ∈ a.records.toList, r.Settled) → ∀ r ∈ b.records.toList, r.Settled

lemma Quiet.refl (a : Assembly) : Quiet a a := ⟨rfl, rfl, rfl, rfl, id⟩

lemma Quiet.trans {a b c : Assembly} (h : Quiet a b) (h' : Quiet b c) : Quiet a c :=
  ⟨h'.cpu.trans h.cpu, h'.symbols.trans h.symbols, h'.log.trans h.log, h'.ended.trans h.ended,
    fun ha => h'.settled (h.settled ha)⟩

variable {a : Assembly} {line : SourceLine} {first : Token} {rest : List Token}
  {statement : Statement} {comment : Option Token}

/-- Keeping a line without waiting values is quiet. -/
lemma quiet_record {l : Line} (h : ∀ o ∈ l.operands, o.deferred = none) :
    Quiet a (a.record (.line l)) := by
  refine ⟨rfl, rfl, rfl, rfl, ?_⟩
  intro ha r hr
  rw [record, Array.toList_push, List.mem_append, List.mem_singleton] at hr
  rcases hr with hr | rfl
  · exact ha r hr
  · exact h

/-- A line whose statement puts bytes inside the machine without a message. -/
lemma step_put {e : Emission} {location : Location} {node : Node}
    (hbody : line.body = first :: rest)
    (hread : line.read a.cpu = .accepted none statement comment)
    (hexecute : a.execute a.code.locationCounter none statement =
      (a.put e location, node, e.operands))
    (hmessages : e.messages = []) (hemits : e.emits = true)
    (hsettled : ∀ o ∈ e.operands, o.deferred = none)
    (hend : a.code.endAddress + e.bytes.length ≤ 0x10000) :
    Quiet a (a.step line) ∧ (a.step line).code = a.code.append e.bytes := by
  have hput : a.put e location = { a with code := a.code.append e.bytes } := by
    rw [put, hmessages, report_nil, if_pos hemits]
    exact a.emit_of_le location hend
  rw [step_eq_accept (by rw [hbody]; rfl) hread, accept_eq, hexecute]
  have hoperands : (a.lineOf first.location none statement comment).operands = e.operands := by
    rw [lineOf, hexecute]
  refine ⟨?_, by rw [record, hput]⟩
  have hcode : Quiet a { a with code := a.code.append e.bytes } := ⟨rfl, rfl, rfl, rfl, id⟩
  rw [hput]
  exact hcode.trans (quiet_record (by rw [hoperands]; exact hsettled))

/-- A line that moves the location counter without a message. -/
lemma step_org {location : Location} {origin : Value} {target : UInt16} {code : Segment}
    (hbody : line.body = first :: rest)
    (hread : line.read a.cpu = .accepted none (.org location origin) comment)
    (hvalue : origin.evaluate a.symbols a.code.locationCounter = (some target, []))
    (hmove : a.moveTo target origin.location = { a with code }) :
    Quiet a (a.step line) ∧ (a.step line).code = code := by
  have hexecute : a.execute a.code.locationCounter none (.org location origin) =
      ({ a with code }, orgDirective location,
        [{ node := origin.node a.code.locationCounter .address (some target) }]) := by
    simp only [execute, hvalue, report_nil, hmove]
    rfl
  rw [step_eq_accept (by rw [hbody]; rfl) hread, accept_eq, hexecute]
  have hoperands : (a.lineOf first.location none (.org location origin) comment).operands =
      [{ node := origin.node a.code.locationCounter .address (some target) }] := by
    rw [lineOf, hexecute]
  refine ⟨?_, rfl⟩
  have hcode : Quiet a { a with code } := ⟨rfl, rfl, rfl, rfl, id⟩
  refine hcode.trans (quiet_record ?_)
  rw [hoperands]
  simp

lemma moveTo_of_size_eq_zero {target : UInt16} (location : Location) (h : a.code.size = 0) :
    a.moveTo target location = { a with code := { a.code with offset := target } } := by
  rw [moveTo, if_pos h]

/-- A segment with bytes is filled up with zeros. -/
lemma moveTo_of_le {target : UInt16} (location : Location) (h : a.code.size ≠ 0)
    (hle : a.code.locationCounter ≤ target) (hend : a.code.endAddress +
      (target.toNat - a.code.locationCounter.toNat) ≤ 0x10000) :
    a.moveTo target location = { a with
      code := a.code.append
        (List.replicate (target.toNat - a.code.locationCounter.toNat) 0) } := by
  rw [moveTo, if_neg h, if_pos hle]
  exact a.emit_of_le location (by rw [List.length_replicate]; exact hend)

lemma run_cons (l : SourceLine) (ls : List SourceLine) (h : a.ended = false) :
    a.run (l :: ls) = (a.step l).run ls := by
  rw [run, if_neg (by simp [h])]

/-- Where nothing waits, the program has the code and the messages of the state. -/
lemma finish_of_settled (moduleName : String) (h : ∀ r ∈ a.records.toList, r.Settled) :
    (a.finish moduleName).1.object = (ObjectCode.ofModule moduleName).put .code a.code ∧
      (a.finish moduleName).2 = a.log := by
  have hresolved : a.resolved.2 = ⟨a.code, a.log⟩ :=
    Patching.resolveRecords_of_settled ⟨a.code, a.log⟩ a.symbols h
  rw [finish_eq, hresolved]
  exact ⟨rfl, rfl⟩

end Assembly

end MicroAsm
