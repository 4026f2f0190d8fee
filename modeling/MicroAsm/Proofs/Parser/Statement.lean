import MicroAsm.Proofs.Assembly.Slots
import MicroAsm.Proofs.Parser.Operand

/-!
# Statements token by token

A parser acts while it takes a statement: it defines the label, complains about operands and adds
nodes before it knows whether the rest can be read. What it has done in the end is what an assembly
does that gets the whole statement at once, or, when the rest cannot be read, what an assembly does
about the part in front of the mistake.

A parser that holds the state of an assembly makes this precise. Each change of the parser is the
same change of what it holds.
-/

namespace MicroAsm

namespace Parser

variable {stop t : Token} {more ts : List Token} {p : Parser} {name : String} {a : Assembly}
  {label : Option Token}

/-- The parser with the state of an assembly in place of its own. Its object code is that of a
module with the given name. -/
def holding (p : Parser) (name : String) (a : Assembly) : Parser :=
  { p with
    cpu := a.cpu
    log := a.log
    symbols := a.symbols
    object := (ObjectCode.ofModule name).put .code a.code
    segment := .code
    ended := a.ended }

/-! ### Changes of the state -/

section Changes

variable (p : Parser) (name : String) (a : Assembly) (location : Location)

@[simp] lemma cursor_holding : (p.holding name a).cursor = p.cursor := rfl

@[simp] lemma cpu_holding : (p.holding name a).cpu = a.cpu := rfl

lemma moved_holding : (p.holding name a).moved = p.moved.holding name a := rfl

lemma reportAll_holding (ms : List Message) :
    (p.holding name a).reportAll ms = p.holding name (a.report ms) := rfl

lemma segmentSize_holding : (p.holding name a).segmentSize = a.code.size := rfl

lemma locationCounter_holding : (p.holding name a).locationCounter = a.code.locationCounter := rfl

lemma emit_holding (bytes : List UInt8) :
    (p.holding name a).emit bytes location = p.holding name (a.emit bytes location) := by
  have hcode : (p.holding name a).object.get? (p.holding name a).segment = some a.code := rfl
  simp only [emit, hcode, Assembly.emit]
  split <;> rfl

lemma withSymbols_holding (result : Except SymbolError SymbolTable) :
    (p.holding name a).withSymbols result location =
      p.holding name (a.withSymbols result location) := by
  cases result <;> rfl

lemma defineLabel_holding (label : Option Token) (value : UInt16) :
    (p.holding name a).defineLabel label value = p.holding name (a.defineLabel label value) := by
  cases label with
  | none => rfl
  | some t => exact withSymbols_holding p name a _ _

lemma assign_holding (how : Assignment) (label : Option Token) (value : Option UInt16) :
    (p.holding name a).assign how location label value =
      p.holding name (a.assign how location label value) := by
  cases label with
  | none => rfl
  | some t =>
    cases value with
    | none => rfl
    | some v => cases how <;> exact withSymbols_holding p name a _ _

lemma moveTo_holding (target : UInt16) :
    (p.holding name a).moveTo target location = p.holding name (a.moveTo target location) := by
  rw [moveTo, Assembly.moveTo, segmentSize_holding, locationCounter_holding, emit_holding]
  split
  · rfl
  · split <;> rfl

lemma selectCpu_holding (t : Token) :
    (p.holding name a).selectCpu t =
      p.holding name
        (match Cpu.ofName? t.value with
        | some cpu => { a with cpu }
        | none => a.error t.location (Cpu.unknownText t.value)) := by
  rw [selectCpu]
  cases Cpu.ofName? t.value <;> rfl

end Changes

/-! ### What is left of a statement -/

/-- The parser at another cursor, with the node of a statement and those of its operands. -/
def planted (p : Parser) (c : Cursor) (n : Node) (ns : List Node) : Parser :=
  { p with cursor := c, tree := (p.tree.addParent n ns).2 }

/-- The parser behind a statement, with its nodes and the values that wait. -/
def withStatement (p : Parser) (c : Cursor) (n : Node) (operands : List OperandNode)
    (start : Nat) : Parser :=
  { p.planted c n (operands.map OperandNode.node) with
    fixups := p.fixups ++
      (pendingFrom (p.tree.size + 1) operands).map (·.fixup .code start p.lineAddress) }

/-- The parser behind a mistake in a statement, with the nodes of the part in front of it. -/
def withRemains (p : Parser) (c : Cursor) (n : Option Node) (ns : List Node) : Parser :=
  match n with
  | some n => p.planted c n ns
  | none => { p with cursor := c }

lemma pendingFrom_of_settled {os : List OperandNode} (h : ∀ o ∈ os, o.deferred = none)
    (id : Nat) : pendingFrom id os = [] := by
  induction os generalizing id with
  | nil => rfl
  | cons o os ih =>
    rw [List.forall_mem_cons] at h
    rw [pendingFrom, h.1, ih h.2]
    rfl

lemma withStatement_of_settled {operands : List OperandNode}
    (h : ∀ o ∈ operands, o.deferred = none) (p : Parser) (c : Cursor) (n : Node) (start : Nat) :
    p.withStatement c n operands start = p.planted c n (operands.map OperandNode.node) := by
  rw [withStatement, pendingFrom_of_settled h, List.map_nil, List.append_nil]
  rfl

/-- A parser that holds the state of an assembly takes a statement, or fails, and does what the
assembly does about what is read of it. -/
inductive Follows (stop : Token) (more : List Token) (p : Parser) (name : String) (a : Assembly)
    (label : Option Token) : Reader.StatementResult → EStateM.Result Failure Parser Nat → Prop
  | ok {s : Statement} {rest : List Token} {c : Cursor} (h : c.OnLine stop more rest) :
      Follows stop more p name a label (.ok (s, rest))
        (.ok p.tree.size
          ((p.withStatement c (a.execute p.lineAddress label s).2.1
            (a.execute p.lineAddress label s).2.2 a.code.size).holding name
              (a.execute p.lineAddress label s).1))
  | error {fragment : Fragment} {f : Failure} {rest : List Token} {c : Cursor}
      (h : c.OnLine stop more rest) :
      Follows stop more p name a label (.error (fragment, f))
        (.error f
          ((p.withRemains c (a.examine p.lineAddress label fragment).2.1
            (a.examine p.lineAddress label fragment).2.2).holding name
              (a.examine p.lineAddress label fragment).1))

namespace Follows

variable {s : Statement} {rest : List Token} {fragment : Fragment} {f : Failure}
  {result : EStateM.Result Failure Parser Nat}

lemma exists_of_ok (h : Follows stop more p name a label (.ok (s, rest)) result) :
    ∃ c, c.OnLine stop more rest ∧
      result = .ok p.tree.size
        ((p.withStatement c (a.execute p.lineAddress label s).2.1
          (a.execute p.lineAddress label s).2.2 a.code.size).holding name
            (a.execute p.lineAddress label s).1) := by
  cases h with
  | ok hc => exact ⟨_, hc, rfl⟩

lemma exists_of_error (h : Follows stop more p name a label (.error (fragment, f)) result) :
    ∃ c rest, c.OnLine stop more rest ∧
      result = .error f
        ((p.withRemains c (a.examine p.lineAddress label fragment).2.1
          (a.examine p.lineAddress label fragment).2.2).holding name
            (a.examine p.lineAddress label fragment).1) := by
  cases h with
  | error hc => exact ⟨_, _, hc, rfl⟩

/-- No value of the statement waits. -/
lemma settled {c : Cursor} {b : Assembly} {node : Node} (ns : List Node)
    (h : c.OnLine stop more rest)
    (hexecute : a.execute p.lineAddress label s =
      (b, node, ns.map fun n => ({ node := n } : OperandNode))) :
    Follows stop more p name a label (.ok (s, rest))
      (.ok p.tree.size ((p.planted c node ns).holding name b)) := by
  have hok : Follows stop more p name a label (.ok (s, rest)) _ := .ok h
  rw [hexecute, withStatement_of_settled (by simp)] at hok
  simpa only [List.map_map, Function.comp_def, List.map_id'] using hok

/-- A statement is accepted where it ends, and does the rest of its work then. -/
lemma atEnd {q : Parser} {step : Parse Nat} (hq : q.cursor.OnLine stop more rest)
    (hok : Follows stop more p name a label (.ok (s, rest)) (step.run q))
    (herror : ∀ f, Follows stop more p name a label (.error (fragment, f)) (.error f q)) :
    Follows stop more p name a label
      (match Reader.expectEnd stop rest with
      | .ok () => .ok (s, rest)
      | .error f => .error (fragment, f))
      ((do
        expectEnd
        step : Parse Nat).run q) := by
  have hend := run_expectEnd hq
  cases hread : Reader.expectEnd stop rest with
  | ok _ =>
    rw [hread] at hend
    rw [run_bind_of_ok hend]
    exact hok
  | error f =>
    rw [hread] at hend
    rw [run_bind_of_error hend]
    exact herror f

end Follows

/-! ### Processors and ends -/

lemma follows_parseCpu (h : p.cursor.OnLine stop more (t :: ts)) :
    Follows stop more p name a label (Reader.readCpu stop t.location ts)
      (parseCpu.run (p.holding name (a.defineLabel label p.lineAddress))) := by
  have htoken : p.cursor.token = t := h.token_eq
  have hnext : p.moved.cursor.token = Reader.current stop ts := h.advance.token_eq
  rw [parseCpu, run_bind_of_ok run_token, run_bind_of_ok run_advance, run_bind_of_ok run_token,
    moved_holding, cursor_holding, cursor_holding, htoken, hnext]
  cases ts with
  | nil =>
    have hident : (Reader.current stop []).kind ≠ .identifier := h.advance.kind_current_ne rfl
    have hnumber : (Reader.current stop []).kind ≠ .number := h.advance.kind_current_ne rfl
    rw [if_neg (by simp [hident, hnumber]), run_missing_of_onLine h.advance]
    exact .error h.advance
  | cons u rest =>
    have hcurrent : Reader.current stop (u :: rest) = u := rfl
    rw [Reader.readCpu, hcurrent]
    by_cases hkind : u.kind = .identifier ∨ u.kind = .number
    · rw [if_pos hkind, if_pos hkind, run_bind_of_ok run_advance, moved_holding]
      refine .atEnd h.advance.advance ?_ fun f => .error h.advance.advance
      rw [EStateM.run_bind, EStateM.run_modify]
      simp only [selectCpu_holding]
      exact .settled [] h.advance.advance rfl
    · rw [if_neg hkind, if_neg hkind, run_missing_of_onLine h.advance]
      exact .error h.advance

lemma follows_parseEnd (h : p.cursor.OnLine stop more (t :: ts)) :
    Follows stop more p name a label
      (match Reader.expectEnd stop ts with
      | .ok () => .ok (.endUnit t.location, ts)
      | .error failure => .error (.nothing, failure))
      (parseEnd.run (p.holding name (a.defineLabel label p.lineAddress))) := by
  have htoken : p.cursor.token = t := h.token_eq
  rw [parseEnd, run_bind_of_ok run_token, run_bind_of_ok run_advance, moved_holding,
    cursor_holding, htoken]
  refine .atEnd h.advance ?_ fun f => .error h.advance
  exact .settled (s := .endUnit t.location) [] h.advance rfl

/-! ### Statements with a node of their own -/

/-- The parser behind the first token of a statement, with the node of the statement. -/
def opened (p : Parser) (n : Node) : Parser :=
  { p with cursor := p.cursor.advance, tree := (p.tree.add n).2 }

lemma run_opened {β : Type} (p : Parser) (name : String) (a : Assembly) (n : Node)
    (step : Nat → Parse β) :
    (do
      let id ← addNode n
      advance
      step id : Parse β).run (p.holding name a) =
        (step p.tree.size).run ((p.holding name a).opened n) := rfl

lemma size_opened (p : Parser) (name : String) (a : Assembly) (n : Node) :
    ((p.holding name a).opened n).tree.size = p.tree.size + 1 := by
  change (p.tree.add n).2.size = p.tree.size + 1
  rw [SyntaxTree.add_eq]
  exact p.tree.size_extend [n]

/-- What is gathered below the node of a statement makes the statement with its operands. -/
lemma taking_opened (p : Parser) (n : Node) (name : String) (a : Assembly) (c : Cursor)
    (ms : List Message) (ns : List Node) :
    ((p.holding name a).opened n).taking c ms p.tree.size ns =
      (p.planted c n ns).holding name (a.report ms) := by
  rw [planted, ← SyntaxTree.addChildren_add]
  rfl

/-- Bytes and the values that wait for a place among them. -/
lemma addFixups_emit_holding (p : Parser) (name : String) (a : Assembly) (bytes : List UInt8)
    (location : Location) (pending : List PendingValue) :
    ((p.holding name a).emit bytes location).addFixups (p.holding name a).segmentSize pending =
      ({ p with
          fixups := p.fixups ++ pending.map (·.fixup .code a.code.size p.lineAddress) } :
        Parser).holding name (a.emit bytes location) := by
  rw [emit_holding]
  rfl

/-! ### Data -/

lemma follows_parseData (h : p.cursor.OnLine stop more (t :: ts)) (width : Width) :
    Follows stop more p name a label (Reader.readData stop width t.location ts)
      ((parseData width).run (p.holding name (a.defineLabel label p.lineAddress))) := by
  have htoken : p.cursor.token = t := h.token_eq
  have hcode : (a.defineLabel label p.lineAddress).code = a.code := (a.defineLabel_frame _ _).2.1
  rcases hread : Reader.readItems stop width ts with ⟨items, result⟩
  obtain ⟨e, he⟩ : ∃ e, Item.emissions (a.defineLabel label p.lineAddress).symbols p.lineAddress
      width 0 items = e := ⟨_, rfl⟩
  have hgathers := gathers_parseItems
    (p := (p.holding name (a.defineLabel label p.lineAddress)).opened (width.directive t.location))
    h.advance width p.tree.size 0 hread he
  rw [size_opened] at hgathers
  rw [parseData, run_bind_of_ok run_token, run_opened, cursor_holding, htoken, Reader.readData,
    hread]
  cases result with
  | error f =>
    obtain ⟨c, rest, hc, hrun⟩ := hgathers.exists_of_error
    rw [taking_opened] at hrun
    rw [run_bind_of_error hrun]
    subst he
    exact .error hc
  | ok rest =>
    obtain ⟨c, hc, hrun⟩ := hgathers.exists_of_ok
    rw [taking_opened] at hrun
    rw [run_bind_of_ok hrun]
    subst he
    refine .atEnd hc ?_ fun f => .error hc
    have hok : Follows stop more p name a label (.ok (.data width t.location items, rest)) _ :=
      .ok hc
    simp only [Assembly.execute, Assembly.put, Assembly.emits_emissions, if_true,
      withStatement] at hok
    rw [EStateM.run_bind, EStateM.run_modify]
    simp only [addFixups_emit_holding, (Assembly.report_frame _ _).2.2.1, hcode]
    exact hok

/-! ### Instructions -/

section Parsed

variable (id : Nat) (ss : List Settled)

lemma all_valid_parsedFrom :
    (parsedFrom id ss).all ParsedOperand.valid = ss.all Settled.usable := by
  induction ss generalizing id with
  | nil => rfl
  | cons s ss ih => rw [parsedFrom, List.all_cons, List.all_cons, ih, Settled.parsed]

lemma map_operand_parsedFrom :
    (parsedFrom id ss).map ParsedOperand.operand = ss.map Settled.operand := by
  induction ss generalizing id with
  | nil => rfl
  | cons s ss ih => rw [parsedFrom, List.map_cons, List.map_cons, ih, Settled.parsed]

lemma getElem?_parsedFrom (i : Nat) :
    (parsedFrom id ss)[i]? = ss[i]?.map (·.parsed (id + i)) := by
  induction ss generalizing id i with
  | nil => rfl
  | cons s ss ih =>
    cases i with
    | zero => rfl
    | succ i =>
      rw [parsedFrom, List.getElem?_cons_succ, List.getElem?_cons_succ, ih, Nat.add_assoc,
        Nat.add_comm 1]

/-- The values of an instruction that wait come right after its code byte. -/
lemma pending_parsedFrom :
    ((parsedFrom id ss).filterMap ParsedOperand.pending).map ({ · with offset := 1 }) =
      pendingFrom id (ss.map fun s =>
        { node := s.node, deferred := s.waiting.map fun (width, expr) => ⟨1, width, expr⟩ }) := by
  induction ss generalizing id with
  | nil => rfl
  | cons s ss ih =>
    rw [parsedFrom, List.map_cons, pendingFrom, ← ih]
    cases hwaiting : s.waiting <;> simp [Settled.parsed, hwaiting]

end Parsed

/-- The operand to blame is marked in the tree. -/
lemma blame_planted (p : Parser) (c : Cursor) (n : Node) (ss : List Settled)
    (position : Option Nat) :
    (p.planted c n (ss.map Settled.node)).blame
        (position.bind ((parsedFrom (p.tree.size + 1) ss)[·]?)) =
      p.planted c n ((invalidate position
        (ss.map fun s => ({ node := s.node } : OperandNode))).map OperandNode.node) := by
  cases position with
  | none => simp [blame, invalidate, Function.comp_def]
  | some i =>
    have hnodes : (invalidate (some i) (ss.map fun s => ({ node := s.node } : OperandNode))).map
        OperandNode.node =
        (ss.map Settled.node).modify i fun n => { n with kind := n.kind.invalidated } := by
      refine List.ext_getElem? fun k => ?_
      simp only [invalidate, List.getElem?_map, List.getElem?_modify]
      by_cases hk : i = k <;> cases ss[k]? <;> simp [hk]
    rw [hnodes, Option.bind_some, getElem?_parsedFrom]
    cases hs : ss[i]? with
    | none =>
      have hlength : (ss.map Settled.node).length ≤ i := by simpa using hs
      rw [List.modify_eq_self hlength]
      rfl
    | some s =>
      rw [planted, planted, ← SyntaxTree.modify_addParent]
      rfl

lemma blame_holding (p : Parser) (name : String) (a : Assembly) (operand : Option ParsedOperand) :
    (p.holding name a).blame operand = (p.blame operand).holding name a := by
  cases operand <;> rfl

lemma location_parsedFrom (id : Nat) (ss : List Settled) (e : EncodingError)
    (location : Location) :
    ((e.operand.bind ((parsedFrom id ss)[·]?)).map ParsedOperand.location).getD location =
      e.location ss location := by
  rw [EncodingError.location]
  cases e.operand with
  | none => rfl
  | some i =>
    rw [Option.bind_some, Option.bind_some, getElem?_parsedFrom]
    cases ss[i]? <;> rfl

/-- An instruction is put into the code with its operands parsed as it is with them settled. -/
lemma emitInstruction_holding (p : Parser) (c : Cursor) (name : String) (a : Assembly)
    (i : Instruction) (location : Location) (n : Node) (ss : List Settled) {e : Emission}
    (he : i.emission location ss = e) :
    ((p.planted c n (ss.map Settled.node)).holding name
        (a.report (ss.flatMap Settled.messages))).emitInstruction i location
          (parsedFrom (p.tree.size + 1) ss) =
      (p.withStatement c n e.operands a.code.size).holding name (a.put e location) := by
  have hnodes : (ss.map fun s => ({ node := s.node } : OperandNode)).map OperandNode.node =
      ss.map Settled.node := by simp [Function.comp_def]
  simp only [emitInstruction, all_valid_parsedFrom, map_operand_parsedFrom]
  rw [Instruction.emission] at he
  by_cases husable : ss.all Settled.usable = true
  · simp only [if_pos husable] at he ⊢
    cases hencode : i.encode (ss.map Settled.operand) with
    | ok bytes =>
      simp only [hencode] at he ⊢
      subst he
      rw [addFixups_emit_holding, pending_parsedFrom, withStatement, List.map_map]
      rfl
    | error f =>
      simp only [hencode] at he ⊢
      subst he
      rw [blame_holding, blame_planted, location_parsedFrom,
        withStatement_of_settled (settled_invalidate (by simp) _)]
      have hreport : ∀ ms ms' : List Message, a.report (ms ++ ms') = (a.report ms).report ms' :=
        fun ms ms' => congrArg (fun log => { a with log }) (Log.reportAll_append a.log ms ms')
      rw [report, reportAll_holding, Assembly.put, hreport]
      cases f.fault.isIncorrectOpcode with
      | true => rfl
      | false => exact emit_holding _ _ _ _ _
  · simp only [if_neg husable] at he ⊢
    subst he
    rw [emit_holding, withStatement_of_settled (by simp), hnodes]
    rfl

lemma follows_parseOpcode (h : p.cursor.OnLine stop more (t :: ts)) :
    Follows stop more p name a label
      (match a.cpu.lookup t.value with
      | .supported i => Reader.readInstruction stop i t.location ts
      | .otherCpu _ => .error (.nothing, Reader.missing stop (t :: ts) "Opcode")
      | .unknown => .error (.nothing, ⟨t.location, .unknownMnemonic t.value⟩))
      (parseOpcode.run (p.holding name (a.defineLabel label p.lineAddress))) := by
  have htoken : p.cursor.token = t := h.token_eq
  obtain ⟨hcpu, hcode, -, -⟩ := a.defineLabel_frame label p.lineAddress
  have hrun : ∀ f : Parser → Parse Nat, (get >>= f).run
      (p.holding name (a.defineLabel label p.lineAddress)) =
        (f (p.holding name (a.defineLabel label p.lineAddress))).run
          (p.holding name (a.defineLabel label p.lineAddress)) := fun f => rfl
  rw [parseOpcode, run_bind_of_ok run_token, hrun, cursor_holding, htoken]
  simp only [cpu_holding, hcpu]
  cases a.cpu.lookup t.value with
  | otherCpu _ =>
    rw [run_missing_of_onLine (p := p.holding name (a.defineLabel label p.lineAddress)) h]
    exact .error h
  | unknown => exact .error h
  | supported i =>
    rcases hread : Reader.readArguments stop i.family.operands ts with ⟨arguments, result⟩
    obtain ⟨ss, hss⟩ : ∃ ss, arguments.map
        (Argument.settle (a.defineLabel label p.lineAddress).symbols p.lineAddress) = ss :=
      ⟨_, rfl⟩
    have hgathers := gathers_parseOperands
      (p := (p.holding name (a.defineLabel label p.lineAddress)).opened (i.node t.location))
      h.advance p.tree.size i.family.operands hread hss
    rw [size_opened] at hgathers
    simp only [run_opened, Reader.readInstruction, hread]
    cases result with
    | error f =>
      obtain ⟨c, rest, hc, hrun⟩ := hgathers.exists_of_error
      rw [taking_opened] at hrun
      rw [run_bind_of_error hrun]
      subst hss
      exact .error hc
    | ok rest =>
      obtain ⟨c, hc, hrun⟩ := hgathers.exists_of_ok
      rw [taking_opened] at hrun
      rw [run_bind_of_ok hrun]
      subst hss
      refine .atEnd hc ?_ fun f => .error hc
      rw [EStateM.run_bind, EStateM.run_modify]
      simp only [emitInstruction_holding p c name _ i t.location _ _ rfl, hcode]
      exact .ok hc

/-! ### Directives with one value -/

/-- The only value of a directive is evaluated at once and becomes the child of its node. -/
lemma gathers_parseOnlyValue (h : p.cursor.OnLine stop more ts) (parent : Nat)
    (kind : OperandKind) :
    match Reader.readOnlyValue stop ts with
    | .ok (v, rest) =>
      Gathers stop more p parent (v.evaluate p.symbols p.lineAddress).2
        [v.node p.lineAddress kind (v.evaluate p.symbols p.lineAddress).1]
        (.ok ((v, (v.evaluate p.symbols p.lineAddress).1), rest))
        ((parseOnlyValue parent kind).run p)
    | .error f =>
      Gathers stop more p parent [] [] (.error f) ((parseOnlyValue parent kind).run p) := by
  have hvalue := reads_parseExpr h
  rw [parseOnlyValue, Reader.readOnlyValue]
  cases hread : Reader.readValue stop ts with
  | error f =>
    rw [hread] at hvalue
    obtain ⟨c, rest, hc, hrun⟩ := hvalue.exists_of_error
    rw [run_bind_of_error hrun]
    exact .error hc
  | ok result =>
    obtain ⟨v, rest⟩ := result
    rw [hread] at hvalue
    obtain ⟨c, hc, hrun⟩ := hvalue.exists_of_ok
    have hend := run_expectEnd (p := { p with cursor := c }) hc
    rw [run_bind_of_ok hrun]
    cases hrest : Reader.expectEnd stop rest with
    | error f =>
      rw [hrest] at hend
      rw [run_bind_of_error hend]
      simp only [bind, Except.bind, hrest]
      exact .error hc
    | ok _ =>
      rw [hrest] at hend
      rw [run_bind_of_ok hend]
      simp only [bind, Except.bind, hrest]
      exact .ok hc

/-- A directive with one value fails in front of it, or goes on with its value as its only child. -/
lemma follows_directive {statement : Value → Statement} {fragment : Fragment} {n : Node}
    {kind : OperandKind} {step : Value × Option UInt16 → Parse Nat}
    (h : p.cursor.OnLine stop more (t :: ts))
    (hexecute : ∀ v, (a.execute p.lineAddress label (statement v)).2 =
      (n, [{ node := v.node p.lineAddress kind (v.evaluate a.symbols p.lineAddress).1 }]))
    (hexamine : a.examine p.lineAddress label fragment = (a, some n, []))
    (hstep : ∀ (q : Parser) v,
      (step (v, (v.evaluate a.symbols p.lineAddress).1)).run
        (q.holding name (a.report (v.evaluate a.symbols p.lineAddress).2)) =
          .ok p.tree.size (q.holding name (a.execute p.lineAddress label (statement v)).1)) :
    Follows stop more p name a label
      (match Reader.readOnlyValue stop ts with
      | .ok (v, rest) => .ok (statement v, rest)
      | .error f => .error (fragment, f))
      ((parseOnlyValue p.tree.size kind >>= step).run ((p.holding name a).opened n)) := by
  have hgathers := gathers_parseOnlyValue (p := (p.holding name a).opened n) h.advance
    p.tree.size kind
  cases hread : Reader.readOnlyValue stop ts with
  | error f =>
    rw [hread] at hgathers
    obtain ⟨c, rest, hc, hrun⟩ := hgathers.exists_of_error
    rw [taking_opened] at hrun
    have herror : Follows stop more p name a label (.error (fragment, f)) _ := .error hc
    rw [hexamine] at herror
    rw [run_bind_of_error hrun]
    exact herror
  | ok result =>
    obtain ⟨v, rest⟩ := result
    rw [hread] at hgathers
    obtain ⟨c, hc, hrun⟩ := hgathers.exists_of_ok
    rw [taking_opened] at hrun
    have hok : Follows stop more p name a label _ _ := .settled
      [v.node p.lineAddress kind (v.evaluate a.symbols p.lineAddress).1] hc
      (Prod.ext rfl (hexecute v))
    rw [← hstep] at hok
    rw [run_bind_of_ok hrun]
    exact hok

lemma follows_parseOrg (h : p.cursor.OnLine stop more (t :: ts)) :
    Follows stop more p name a label
      (match Reader.readOnlyValue stop ts with
      | .ok (v, rest) => .ok (.org t.location v, rest)
      | .error f => .error (.org t.location, f))
      ((parseOrg label).run (p.holding name a)) := by
  have htoken : p.cursor.token = t := h.token_eq
  rw [parseOrg, run_bind_of_ok run_token, run_opened, cursor_holding, htoken]
  refine follows_directive h (fun v => rfl) rfl fun q v => ?_
  rcases hvalue : v.evaluate a.symbols p.lineAddress with ⟨value, messages⟩
  simp only [Assembly.execute, hvalue, EStateM.run_bind, EStateM.run_modify]
  cases value with
  | none =>
    simp only [locationCounter_holding, defineLabel_holding]
    rfl
  | some target =>
    simp only [moveTo_holding, locationCounter_holding, defineLabel_holding]
    rfl

lemma follows_parseAssignment (h : p.cursor.OnLine stop more (t :: ts)) (how : Assignment) :
    Follows stop more p name a label
      (match Reader.readOnlyValue stop ts with
      | .ok (v, rest) => .ok (.assign how t.location v, rest)
      | .error f => .error (.assign how t.location, f))
      ((parseAssignment label how).run (p.holding name a)) := by
  have htoken : p.cursor.token = t := h.token_eq
  rw [parseAssignment, run_bind_of_ok run_token, run_opened, cursor_holding, htoken]
  refine follows_directive h (fun v => rfl) rfl fun q v => ?_
  simp only [EStateM.run_bind, EStateM.run_modify, assign_holding]
  rfl

/-! ### Any statement -/

/-- A statement without tokens of its own. -/
lemma follows_empty (h : p.cursor.OnLine stop more ts)
    (hend : p.cursor.token.kind = .comment ∨ p.cursor.token.kind.endsLine = true) :
    Follows stop more p name a label (.ok (.empty p.cursor.token.location, ts))
      (parsePlainStatement.run (p.holding name (a.defineLabel label p.lineAddress))) := by
  rw [parsePlainStatement, run_bind_of_ok run_token, cursor_holding]
  cases hkind : p.cursor.token.kind with
  | comment | endOfLine | endOfFile => exact .settled [] h rfl
  | _ => simp [hkind, TokenKind.endsLine] at hend

lemma follows_parsePlainStatement (h : p.cursor.OnLine stop more (t :: ts))
    (hequ : t.kind ≠ .equ) (hset : t.kind ≠ .set) (horg : t.kind ≠ .org) :
    Follows stop more p name a label (Reader.readStatement a.cpu stop (t :: ts))
      (parsePlainStatement.run (p.holding name (a.defineLabel label p.lineAddress))) := by
  have htoken : p.cursor.token = t := h.token_eq
  have hends := h.body t List.mem_cons_self
  by_cases hcomment : t.kind = .comment
  · have hempty : Follows stop more p name a label _ _ :=
      follows_empty h (.inl (htoken ▸ hcomment))
    rw [htoken] at hempty
    rw [Reader.readStatement]
    simp only [hcomment]
    exact hempty
  rw [parsePlainStatement, run_bind_of_ok run_token, cursor_holding, htoken, Reader.readStatement]
  cases hkind : t.kind with
  | cpu => exact follows_parseCpu h
  | endUnit => exact follows_parseEnd h
  | db => exact follows_parseData h .byte
  | dw => exact follows_parseData h .word
  | identifier => exact follows_parseOpcode h
  | comment | equ | set | org => contradiction
  | endOfLine | endOfFile => simp [hkind, TokenKind.endsLine] at hends
  | _ =>
    simp only
    rw [run_missing_of_onLine (p := p.holding name (a.defineLabel label p.lineAddress)) h]
    exact .error h

/-- A parser that holds the state of an assembly takes a statement, or fails, and does what the
assembly does about what is read of it. -/
lemma follows_parseStatement (name : String) (a : Assembly) (label : Option Token)
    (h : p.cursor.OnLine stop more ts) :
    Follows stop more p name a label (Reader.readStatement a.cpu stop ts)
      ((parseStatement label).run (p.holding name a)) := by
  have htoken : p.cursor.token = Reader.current stop ts := h.token_eq
  -- A statement that does not say what its label stands for defines it first.
  have hplain (hequ : (Reader.current stop ts).kind ≠ .equ)
      (hset : (Reader.current stop ts).kind ≠ .set) (horg : (Reader.current stop ts).kind ≠ .org) :
      (parseStatement label).run (p.holding name a) =
        parsePlainStatement.run (p.holding name (a.defineLabel label p.lineAddress)) := by
    rw [parseStatement, run_bind_of_ok run_token, cursor_holding, htoken]
    split
    · contradiction
    · contradiction
    · contradiction
    · rw [EStateM.run_bind, EStateM.run_modify]
      simp only [defineLabel_holding]
      rfl
  cases ts with
  | nil =>
    rw [hplain (h.kind_current_ne rfl) (h.kind_current_ne rfl) (h.kind_current_ne rfl)]
    have hempty : Follows stop more p name a label _ _ :=
      follows_empty h (.inr (htoken ▸ h.stop))
    rw [htoken] at hempty
    exact hempty
  | cons t ts =>
    by_cases hequ : t.kind = .equ
    · rw [parseStatement, run_bind_of_ok run_token, cursor_holding, htoken, Reader.readStatement]
      simp only [Reader.current, List.headD_cons, hequ]
      exact follows_parseAssignment h .equ
    by_cases hset : t.kind = .set
    · rw [parseStatement, run_bind_of_ok run_token, cursor_holding, htoken, Reader.readStatement]
      simp only [Reader.current, List.headD_cons, hset]
      exact follows_parseAssignment h .set
    by_cases horg : t.kind = .org
    · rw [parseStatement, run_bind_of_ok run_token, cursor_holding, htoken, Reader.readStatement]
      simp only [Reader.current, List.headD_cons, horg]
      exact follows_parseOrg h
    rw [hplain hequ hset horg]
    exact follows_parsePlainStatement h hequ hset horg

end Parser

end MicroAsm
