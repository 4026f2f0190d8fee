import MicroAsm.Proofs.Parser.Reading
import MicroAsm.Proofs.Tree.Editing

/-!
# Operands token by token

A parser that takes operands or items of data from its cursor comes to what is read of the line: to
the same values and complaints, and to a node for each below that of the statement. When it fails,
this is so for the ones in front of the mistake.
-/

namespace MicroAsm

namespace Parser

variable {stop : Token} {more ts : List Token} {p : Parser}

/-- The parser at another cursor, after more complaints, and with more nodes below one of its
tree. -/
def taking (p : Parser) (c : Cursor) (ms : List Message) (parent : Nat) (ns : List Node) :
    Parser :=
  { p with
    cursor := c
    log := p.log.reportAll ms
    tree := p.tree.addChildren parent ns }

lemma taking_taking (p : Parser) (c c' : Cursor) (ms ms' : List Message) (parent : Nat)
    (ns ns' : List Node) :
    (p.taking c ms parent ns).taking c' ms' parent ns' =
      p.taking c' (ms ++ ms') parent (ns ++ ns') := by
  simp only [taking, Log.reportAll, List.foldl_append, SyntaxTree.addChildren_append]

/-- A step comes to what reading the tokens of its line gives, and leaves complaints and nodes
below one of its tree. -/
inductive Gathers (stop : Token) (more : List Token) (p : Parser) (parent : Nat)
    (ms : List Message) (ns : List Node) {α : Type} :
    Except Failure (α × List Token) → EStateM.Result Failure Parser α → Prop
  | ok {a : α} {rest : List Token} {c : Cursor} (h : c.OnLine stop more rest) :
      Gathers stop more p parent ms ns (.ok (a, rest)) (.ok a (p.taking c ms parent ns))
  | error {f : Failure} {rest : List Token} {c : Cursor} (h : c.OnLine stop more rest) :
      Gathers stop more p parent ms ns (.error f) (.error f (p.taking c ms parent ns))

namespace Gathers

variable {α β : Type} {parent : Nat} {ms ms' : List Message} {ns ns' : List Node}
  {x : Except Failure (α × List Token)}

lemma exists_of_ok {a : α} {rest : List Token} {result : EStateM.Result Failure Parser α}
    (h : Gathers stop more p parent ms ns (.ok (a, rest)) result) :
    ∃ c, c.OnLine stop more rest ∧ result = .ok a (p.taking c ms parent ns) := by
  cases h with
  | ok hc => exact ⟨_, hc, rfl⟩

lemma exists_of_error {f : Failure} {result : EStateM.Result Failure Parser α}
    (h : Gathers stop more p parent ms ns (.error f) result) :
    ∃ c rest, c.OnLine stop more rest ∧ result = .error f (p.taking c ms parent ns) := by
  cases h with
  | error hc => exact ⟨_, _, hc, rfl⟩

/-- What is gathered later stands behind what was there before. -/
lemma after {c : Cursor} {result : EStateM.Result Failure Parser α}
    (h : Gathers stop more (p.taking c ms parent ns) parent ms' ns' x result) :
    Gathers stop more p parent (ms ++ ms') (ns ++ ns') x result := by
  cases h with
  | ok hc =>
    rw [taking_taking]
    exact .ok hc
  | error hc =>
    rw [taking_taking]
    exact .error hc

/-- Something is made of what was gathered. -/
lemma map {step : Parse α} (h : Gathers stop more p parent ms ns x (step.run p)) (f : α → β) :
    Gathers stop more p parent ms ns (x.map fun read => (f read.1, read.2))
      ((step >>= fun a => pure (f a)).run p) := by
  rw [EStateM.run_bind]
  generalize step.run p = result at h ⊢
  cases h with
  | ok hc => exact .ok hc
  | error hc => exact .error hc

end Gathers

/-! ### Operands -/

/-- The parser at another cursor, after the complaints about an operand, and with its node. -/
def settling (p : Parser) (c : Cursor) (s : Settled) : Parser :=
  { p with cursor := c, log := p.log.reportAll s.messages, tree := (p.tree.add s.node).2 }

/-- A value becomes the next node. -/
lemma run_parseValue (h : p.cursor.OnLine stop more ts) (kind : OperandKind) :
    match Reader.readValue stop ts with
    | .ok (v, rest) =>
      ∃ c, c.OnLine stop more rest ∧
        (parseValue kind).run p =
          .ok (((Argument.value kind v).settle p.symbols p.lineAddress).parsed p.tree.size)
            (p.settling c ((Argument.value kind v).settle p.symbols p.lineAddress))
    | .error f =>
      ∃ c rest, c.OnLine stop more rest ∧
        (parseValue kind).run p = .error f { p with cursor := c } := by
  have hread := reads_parseExpr h
  cases hvalue : Reader.readValue stop ts with
  | error f =>
    rw [hvalue] at hread
    obtain ⟨c, rest, hc, hrun⟩ := hread.exists_of_error
    exact ⟨c, rest, hc, run_bind_of_error hrun⟩
  | ok result =>
    obtain ⟨v, rest⟩ := result
    rw [hvalue] at hread
    obtain ⟨c, hc, hrun⟩ := hread.exists_of_ok
    exact ⟨c, hc, run_bind_of_ok hrun⟩

/-- A register becomes the next node. -/
lemma run_parseRegister (h : p.cursor.OnLine stop more ts) (kind : OperandKind) :
    (∃ t rest c, ts = t :: rest ∧ t.kind = .identifier ∧ c.OnLine stop more rest ∧
        (parseRegister kind).run p =
          .ok ((settleRegister kind t).parsed p.tree.size) (p.settling c (settleRegister kind t))) ∨
      (∀ t rest, ts = t :: rest → t.kind ≠ .identifier) ∧
        (parseRegister kind).run p = .error (Reader.missing stop ts kind.name) p := by
  rw [parseRegister, run_bind_of_ok run_token, h.token_eq]
  cases ts with
  | nil =>
    refine .inr ⟨by simp, ?_⟩
    rw [if_neg (h.kind_current_ne (by decide)), run_missing_of_onLine h]
  | cons t rest =>
    by_cases hkind : t.kind = .identifier
    · refine .inl ⟨t, rest, p.cursor.advance, rfl, hkind, h.advance, ?_⟩
      rw [if_pos (by exact hkind)]
      rfl
    · refine .inr ⟨?_, ?_⟩
      · rintro t' rest' heq
        cases heq
        exact hkind
      · rw [if_neg (by exact hkind), run_missing_of_onLine h]

/-- An operand becomes the next node. -/
lemma run_parseArgument (h : p.cursor.OnLine stop more ts) (kind : OperandKind) :
    match Reader.readArgument stop kind ts with
    | .ok (x, rest) =>
      ∃ c, c.OnLine stop more rest ∧
        (parseArgument kind).run p =
          .ok ((x.settle p.symbols p.lineAddress).parsed p.tree.size)
            (p.settling c (x.settle p.symbols p.lineAddress))
    | .error f =>
      ∃ c rest, c.OnLine stop more rest ∧
        (parseArgument kind).run p = .error f { p with cursor := c } := by
  by_cases hregister : kind = .register ∨ kind = .pair
  · have hparse : parseArgument kind = parseRegister kind := by
      obtain rfl | rfl := hregister <;> rfl
    rw [hparse]
    obtain ⟨t, rest, c, rfl, hkind, hc, hrun⟩ | ⟨hne, hrun⟩ := run_parseRegister h kind
    · have hread : Reader.readArgument stop kind (t :: rest) = .ok (.register kind t, rest) := by
        obtain rfl | rfl := hregister <;> exact if_pos hkind
      rw [hread]
      exact ⟨c, hc, hrun⟩
    · have hread : Reader.readArgument stop kind ts =
          .error (Reader.missing stop ts kind.name) := by
        cases ts with
        | nil => obtain rfl | rfl := hregister <;> rfl
        | cons t rest => obtain rfl | rfl := hregister <;> exact if_neg (hne t rest rfl)
      rw [hread]
      exact ⟨p.cursor, ts, h, hrun⟩
  · have hparse : parseArgument kind = parseValue kind := by
      cases kind <;> first | rfl | simp at hregister
    have hread : Reader.readArgument stop kind ts =
        (Reader.readValue stop ts).map fun read => (.value kind read.1, read.2) := by
      cases kind <;> first | rfl | simp at hregister
    have hvalue := run_parseValue h kind
    rw [hparse, hread]
    cases hresult : Reader.readValue stop ts with
    | error f =>
      rw [hresult] at hvalue
      exact hvalue
    | ok result =>
      rw [hresult] at hvalue
      exact hvalue

/-- An operand becomes the last child of its statement. -/
lemma gathers_parseOperand (h : p.cursor.OnLine stop more ts) (parent : Nat) (kind : OperandKind) :
    match Reader.readArgument stop kind ts with
    | .ok (x, rest) =>
      Gathers stop more p parent (x.settle p.symbols p.lineAddress).messages
        [(x.settle p.symbols p.lineAddress).node]
        (.ok ((x.settle p.symbols p.lineAddress).parsed p.tree.size, rest))
        ((parseOperand parent kind).run p)
    | .error f =>
      Gathers stop more p parent [] [] (.error f) ((parseOperand parent kind).run p) := by
  have hargument := run_parseArgument h kind
  rw [parseOperand]
  cases hread : Reader.readArgument stop kind ts with
  | error f =>
    rw [hread] at hargument
    obtain ⟨c, rest, hc, hrun⟩ := hargument
    rw [run_bind_of_error hrun]
    exact .error hc
  | ok result =>
    obtain ⟨x, rest⟩ := result
    rw [hread] at hargument
    obtain ⟨c, hc, hrun⟩ := hargument
    simp only [run_bind_of_ok hrun]
    exact .ok hc

/-- Operands that have the given number and those after it for their nodes. -/
def parsedFrom : (id : Nat) → List Settled → List ParsedOperand
  | _, [] => []
  | id, s :: ss => s.parsed id :: parsedFrom (id + 1) ss

lemma run_expect (h : p.cursor.OnLine stop more ts) {kind : TokenKind}
    (hkind : (Reader.current stop ts).kind = kind) : (expect kind).run p = .ok () p.moved := by
  rw [expect, run_bind_of_ok run_token, h.token_eq, if_pos hkind, run_advance]

lemma run_expect_of_ne (h : p.cursor.OnLine stop more ts) {kind : TokenKind}
    (hkind : (Reader.current stop ts).kind ≠ kind) :
    (expect kind).run p = .error (Reader.missing stop ts kind.name) p := by
  rw [expect, run_bind_of_ok run_token, h.token_eq, if_neg hkind, run_missing_of_onLine h]

section Commas

variable {kind : OperandKind} {kinds : List OperandKind} {x : Argument} {rest : List Token}

/-- Behind an operand that is not the last there is a comma, and then the other operands. -/
lemma run_parseOperands_cons (h : p.cursor.OnLine stop more ts) (parent : Nat) (hne : kinds ≠ [])
    (hread : Reader.readArgument stop kind ts = .ok (x, rest)) {s : Settled}
    (hs : x.settle p.symbols p.lineAddress = s) :
    ∃ c, c.OnLine stop more rest ∧
      (parseOperands parent (kind :: kinds)).run p =
        (do
          expect .comma
          let os ← parseOperands parent kinds
          return s.parsed p.tree.size :: os : Parse (List ParsedOperand)).run
            (p.taking c s.messages parent [s.node]) := by
  have hfirst := gathers_parseOperand h parent kind
  rw [hread] at hfirst
  obtain ⟨c, hc, hrun⟩ := hfirst.exists_of_ok
  rw [hs] at hrun
  exact ⟨c, hc, by rw [parseOperands.eq_3 _ _ _ hne, run_bind_of_ok hrun]⟩

lemma gathers_of_missing_comma (h : p.cursor.OnLine stop more ts) (parent : Nat)
    (hne : kinds ≠ []) (hread : Reader.readArgument stop kind ts = .ok (x, rest)) {s : Settled}
    (hs : x.settle p.symbols p.lineAddress = s)
    (hcomma : (Reader.current stop rest).kind ≠ .comma) :
    Gathers stop more p parent s.messages [s.node]
      (.error (Reader.missing stop rest TokenKind.comma.name))
      ((parseOperands parent (kind :: kinds)).run p) := by
  obtain ⟨c, hc, hrun⟩ := run_parseOperands_cons h parent hne hread hs
  have hexpect := run_expect_of_ne (p := p.taking c s.messages parent [s.node]) hc hcomma
  rw [hrun, run_bind_of_error hexpect]
  exact .error hc

end Commas

/-- Operands become the next nodes, as children of their statement. -/
lemma gathers_parseOperands (h : p.cursor.OnLine stop more ts) (parent : Nat)
    (kinds : List OperandKind) {arguments : List Argument} {result : Except Failure (List Token)}
    (hread : Reader.readArguments stop kinds ts = (arguments, result)) {ss : List Settled}
    (hss : arguments.map (Argument.settle p.symbols p.lineAddress) = ss) :
    Gathers stop more p parent (ss.flatMap Settled.messages) (ss.map Settled.node)
      (result.map fun rest => (parsedFrom p.tree.size ss, rest))
      ((parseOperands parent kinds).run p) := by
  fun_induction Reader.readArguments stop kinds ts generalizing p arguments result ss with
  | case1 ts =>
    cases hread
    subst hss
    rw [parseOperands]
    exact .ok h
  | case2 kind ts f hargument =>
    cases hread
    subst hss
    have hfirst := gathers_parseOperand h parent kind
    rw [hargument] at hfirst
    rw [parseOperands]
    exact hfirst.map fun o => [o]
  | case3 kind ts x rest hargument =>
    cases hread
    subst hss
    have hfirst := gathers_parseOperand h parent kind
    rw [hargument] at hfirst
    rw [parseOperands]
    simp only [List.map_cons, List.map_nil, List.flatMap_cons, List.flatMap_nil, List.append_nil]
    exact hfirst.map fun o => [o]
  | case4 kind kinds ts hne f hargument =>
    cases hread
    subst hss
    have hfirst := gathers_parseOperand h parent kind
    rw [hargument] at hfirst
    obtain ⟨c, rest, hc, hrun⟩ := hfirst.exists_of_error
    rw [parseOperands.eq_3 _ _ _ hne, run_bind_of_error hrun]
    exact .error hc
  | case5 kind kinds ts hne x comma rest hargument hcomma arguments' result' hrest ih =>
    cases hread
    subst hss
    obtain ⟨s, hs⟩ : ∃ s, x.settle p.symbols p.lineAddress = s := ⟨_, rfl⟩
    obtain ⟨c, hc, hrun⟩ := run_parseOperands_cons h parent hne hargument hs
    have hexpect := run_expect (p := p.taking c s.messages parent [s.node]) hc hcomma
    have hlater := (ih (p := p.taking c.advance s.messages parent [s.node]) hc.advance hrest
      rfl).map fun os => s.parsed p.tree.size :: os
    rw [map_map] at hlater
    simp only [taking, SyntaxTree.size_addChildren] at hlater
    rw [hrun, run_bind_of_ok hexpect, List.map_cons, hs]
    exact hlater.after
  | case6 kind kinds ts hne x comma rest hargument hcomma =>
    cases hread
    subst hss
    simp only [List.map_cons, List.map_nil, List.flatMap_cons, List.flatMap_nil, List.append_nil]
    exact gathers_of_missing_comma h parent hne hargument rfl hcomma
  | case7 kind kinds ts hne x hargument =>
    cases hread
    subst hss
    simp only [List.map_cons, List.map_nil, List.flatMap_cons, List.flatMap_nil, List.append_nil]
    exact gathers_of_missing_comma h parent hne hargument rfl (h.kind_current_ne rfl)

/-! ### Items of data -/

/-- The values of operands that have to wait, when their nodes have the given number and those
after it. -/
def pendingFrom : (id : Nat) → List OperandNode → List PendingValue
  | _, [] => []
  | id, o :: os =>
    (o.deferred.map fun d => ⟨d.expr, o.node.location, id, d.width, d.offset⟩).toList ++
      pendingFrom (id + 1) os

lemma pendingFrom_append (id : Nat) (os os' : List OperandNode) :
    pendingFrom id (os ++ os') = pendingFrom id os ++ pendingFrom (id + os.length) os' := by
  induction os generalizing id with
  | nil => rfl
  | cons o os ih =>
    rw [List.cons_append, pendingFrom, pendingFrom, ih, List.append_assoc, List.length_cons,
      Nat.add_assoc, Nat.add_comm 1]

lemma pendingFrom_stringEmission (id : Nat) (t : Token) (text : String) (cs : List Char) :
    pendingFrom id (stringEmission t text cs).operands = [] := by
  induction cs generalizing id text with
  | nil => rfl
  | cons c cs ih => exact ih (id + 1) ""

/-- Looking ahead tells an item that is a string from one that starts with a character. -/
lemma run_atStringItem (h : p.cursor.OnLine stop more ts) (width : Width) :
    ∃ c, c.OnLine stop more ts ∧
      (atStringItem width).run p = .ok (Reader.isStringItem width ts) { p with cursor := c } := by
  rw [atStringItem, run_bind_of_ok run_token, h.token_eq]
  cases ts with
  | nil =>
    have hkind : (Reader.current stop []).kind ≠ .string := h.kind_current_ne rfl
    rw [if_neg fun hstring => hkind hstring.2]
    refine ⟨p.cursor, h, ?_⟩
    cases width <;> rfl
  | cons t rest =>
    have hcurrent : Reader.current stop (t :: rest) = t := rfl
    rw [hcurrent]
    by_cases hstring : width = .byte ∧ t.kind = .string
    · obtain ⟨rfl, hkind⟩ := hstring
      have hrun : stringItemEnds.run p =
          .ok ((p.cursor.peek.1.kind = .comma || p.cursor.peek.1.kind = .comment ||
              p.cursor.peek.1.kind.endsLine) && p.cursor.peek.2.token.value.length != 3)
            { p with cursor := p.cursor.peek.2 } := rfl
      have htoken : p.cursor.peek.2.token = t := h.peek_snd.token_eq
      rw [if_pos ⟨rfl, hkind⟩, hrun, h.peek_fst, htoken]
      refine ⟨p.cursor.peek.2, h.peek_snd, ?_⟩
      congr 1
      cases rest with
      | nil => simp [Reader.isStringItem, Reader.current, hkind, h.stop]
      | cons u rest =>
        have hbody := h.body u (by simp)
        simp [Reader.isStringItem, Reader.current, hkind, hbody, Bool.and_comm]
    · rw [if_neg hstring]
      refine ⟨p.cursor, h, ?_⟩
      cases width with
      | word => rfl
      | byte =>
        have hkind : t.kind ≠ .string := fun hkind => hstring ⟨rfl, hkind⟩
        simp [Reader.isStringItem, hkind]

/-- A step after the complaints about a new child of a node. -/
lemma run_addChild {β : Type} (p : Parser) (ms : List Message) (parent : Nat) (n : Node)
    (step : Parse β) :
    (do
      modify (·.reportAll ms)
      let id ← addNode n
      appendChild parent id
      step : Parse β).run p = step.run (p.taking p.cursor ms parent [n]) := rfl

/-- The characters of a string become the next nodes, as children of their statement. -/
lemma run_addCharacters (p : Parser) (parent : Nat) (t : Token) (text : String) (cs : List Char) :
    (addCharacters parent t text cs).run p =
      .ok (stringEmission t text cs).bytes
        (p.taking p.cursor (stringEmission t text cs).messages parent
          ((stringEmission t text cs).operands.map OperandNode.node)) := by
  induction cs generalizing p text with
  | nil => rfl
  | cons c cs ih =>
    rw [addCharacters, stringEmission]
    generalize checkRange 8 c.toNat t.location = checked
    rw [run_addChild, run_bind_of_ok (ih _ ""), taking_taking]
    rfl

/-- What a value of data comes to as an operand. -/
lemma settle_operandKind (symbols : SymbolTable) (here : UInt16) (width : Width) (v : Value) :
    (Argument.value width.operandKind v).settle symbols here =
      { node := (v.settle symbols here width.operandKind).node
        operand := .value (v.settle symbols here width.operandKind).word.toNat
        waiting := (v.settle symbols here width.operandKind).waiting.map (width, ·)
        messages := (v.settle symbols here width.operandKind).messages } := by
  cases width <;> rfl

/-- The nodes of an item become the next ones, as children of its statement. -/
lemma gathers_parseItem (h : p.cursor.OnLine stop more ts) (width : Width) (parent offset : Nat) :
    match Reader.readItem stop width ts with
    | .ok (item, rest) =>
      Gathers stop more p parent (item.emission p.symbols p.lineAddress width offset).messages
        ((item.emission p.symbols p.lineAddress width offset).operands.map OperandNode.node)
        (.ok (((item.emission p.symbols p.lineAddress width offset).bytes,
          pendingFrom p.tree.size
            (item.emission p.symbols p.lineAddress width offset).operands), rest))
        ((parseItem width parent offset).run p)
    | .error f =>
      Gathers stop more p parent [] [] (.error f) ((parseItem width parent offset).run p) := by
  obtain ⟨c, hc, hstring⟩ := run_atStringItem h width
  rw [parseItem, run_bind_of_ok hstring, Reader.readItem]
  by_cases hitem : Reader.isStringItem width ts = true
  · cases ts with
    | nil => cases width <;> cases hitem
    | cons t rest =>
      have htoken : c.token = t := hc.token_eq
      rw [if_pos hitem, if_pos hitem, run_bind_of_ok run_token,
        run_bind_of_ok (run_addCharacters _ _ _ _ _)]
      simp only [htoken, Item.emission, Reader.current, List.headD_cons, pendingFrom_stringEmission]
      exact .ok hc.advance
  · have hvalue := run_parseValue (p := { p with cursor := c }) hc width.operandKind
    rw [if_neg hitem, if_neg hitem]
    cases hread : Reader.readValue stop ts with
    | error f =>
      rw [hread] at hvalue
      obtain ⟨c', rest, hc', hrun⟩ := hvalue
      rw [run_bind_of_error hrun]
      exact .error hc'
    | ok result =>
      obtain ⟨v, rest⟩ := result
      rw [hread] at hvalue
      obtain ⟨c', hc', hrun⟩ := hvalue
      rw [settle_operandKind] at hrun
      rw [run_bind_of_ok hrun]
      simp only [Except.map, Item.emission]
      generalize v.settle p.symbols p.lineAddress width.operandKind = s
      simp only [ParsedOperand.word, Settled.parsed, wordOfInt_toNat]
      cases s.waiting with
      | none => exact .ok hc'
      | some expr => exact .ok hc'

lemma run_parseItems (width : Width) (parent offset : Nat) (p : Parser) :
    (parseItems width parent offset).run p =
      match (parseItem width parent offset).run p with
      | .error f q => .error f q
      | .ok item q =>
        if q.cursor.token.kind = .comma then
          (parseItems width parent (offset + item.1.length) >>= fun rest =>
            pure (item.1 ++ rest.1, item.2 ++ rest.2)).run q.moved
        else .ok item q := by
  conv_lhs => rw [EStateM.run, parseItems]
  split
  · rename_i f q hitem
    rw [hitem]
  · rename_i bytes pending q hitem
    simp only [hitem]
    by_cases hcomma : q.cursor.token.kind = .comma
    · rw [dif_pos hcomma, if_pos hcomma, EStateM.run_bind, EStateM.run]
      cases parseItems width parent (offset + bytes.length) q.moved <;> rfl
    · rw [dif_neg hcomma, if_neg hcomma]

lemma emissions_singleton (symbols : SymbolTable) (here : UInt16) (width : Width) (offset : Nat)
    (item : Item) :
    Item.emissions symbols here width offset [item] =
      { item.emission symbols here width offset with emits := true } := by
  simp [Item.emissions]

/-- An item without a comma behind it is the last. -/
lemma gathers_of_last_item (h : p.cursor.OnLine stop more ts) (width : Width)
    (parent offset : Nat) {item : Item} {rest : List Token}
    (hread : Reader.readItem stop width ts = .ok (item, rest))
    (hcomma : (Reader.current stop rest).kind ≠ .comma) {e : Emission}
    (he : Item.emissions p.symbols p.lineAddress width offset [item] = e) :
    Gathers stop more p parent e.messages (e.operands.map OperandNode.node)
      (.ok ((e.bytes, pendingFrom p.tree.size e.operands), rest))
      ((parseItems width parent offset).run p) := by
  have hfirst := gathers_parseItem h width parent offset
  rw [hread] at hfirst
  obtain ⟨c, hc, hrun⟩ := hfirst.exists_of_ok
  rw [← hc.token_eq] at hcomma
  rw [← he, emissions_singleton, run_parseItems, hrun]
  simp only [taking, hcomma, if_false]
  exact .ok hc

/-- The nodes of a list of data become the next ones, as children of its statement. -/
lemma gathers_parseItems (h : p.cursor.OnLine stop more ts) (width : Width) (parent offset : Nat)
    {items : List Item} {result : Except Failure (List Token)}
    (hread : Reader.readItems stop width ts = (items, result)) {e : Emission}
    (he : Item.emissions p.symbols p.lineAddress width offset items = e) :
    Gathers stop more p parent e.messages (e.operands.map OperandNode.node)
      (result.map fun rest => ((e.bytes, pendingFrom p.tree.size e.operands), rest))
      ((parseItems width parent offset).run p) := by
  fun_induction Reader.readItems stop width ts generalizing p offset items result e with
  | case1 ts f hitem =>
    cases hread
    subst he
    have hfirst := gathers_parseItem h width parent offset
    rw [hitem] at hfirst
    obtain ⟨c, rest, hc, hrun⟩ := hfirst.exists_of_error
    rw [run_parseItems, hrun]
    exact .error hc
  | case2 ts item comma rest hitem hcomma hlt items' result' hrest ih =>
    cases hread
    subst he
    have hfirst := gathers_parseItem h width parent offset
    rw [hitem] at hfirst
    obtain ⟨c, hc, hrun⟩ := hfirst.exists_of_ok
    rw [Item.emissions]
    generalize item.emission p.symbols p.lineAddress width offset = first at hrun ⊢
    have hcurrent : c.token = comma := hc.token_eq
    have hsize : (p.tree.addChildren parent (first.operands.map OperandNode.node)).size =
        p.tree.size + first.operands.length := by simp
    have hlater := (ih (p := p.taking c.advance first.messages parent
      (first.operands.map OperandNode.node)) hc.advance (offset + first.bytes.length) hrest
      rfl).map fun rest =>
        (first.bytes ++ rest.1, pendingFrom p.tree.size first.operands ++ rest.2)
    rw [map_map] at hlater
    simp only [taking, hsize] at hlater
    rw [run_parseItems, hrun]
    simp only [taking, hcurrent, hcomma, if_true, List.map_append, pendingFrom_append]
    exact hlater.after
  | case3 ts item comma rest hitem hcomma =>
    cases hread
    exact gathers_of_last_item h width parent offset hitem hcomma he
  | case4 ts item hitem =>
    cases hread
    exact gathers_of_last_item h width parent offset hitem (h.kind_current_ne rfl) he

end Parser

end MicroAsm
