import MicroAsm.Parser.Basic

/-!
# Parsing operands

    expr := ["+" | "-"] term (("+" | "-") term)*
    term := number | identifier | "$" | string of one character

A value is taken token by token, and then evaluated with the symbols that are there. The items of
a list of data and the operands of an instruction become children of the node of their statement
one after the other, so those in front of a mistake stay there.
-/

namespace MicroAsm

namespace Parser

/-! ### Expressions -/

/-- Takes terms with signs between them, and gives their text too. -/
def parseTerms (negative : Bool) : Parse (List SignedTerm × String) := fun p =>
  match h : Reader.readTerm p.cursor.token with
  | .error f => .error f p
  | .ok term =>
    match Reader.sign? p.moved.cursor.token with
    | none => .ok ([⟨negative, term⟩], p.cursor.token.value) p.moved
    | some next =>
      have : p.moved.moved.cursor.remaining < p.cursor.remaining := by
        have hkind : p.cursor.token.kind ≠ .endOfFile := by
          intro hend
          simp [Reader.readTerm, hend] at h
        exact Nat.lt_of_le_of_lt (Cursor.remaining_advance_le _)
          (Cursor.remaining_advance_lt hkind)
      match parseTerms next p.moved.moved with
      | .error f q => .error f q
      | .ok (terms, text) q =>
        .ok (⟨negative, term⟩ :: terms,
          p.cursor.token.value ++ p.moved.cursor.token.value ++ text) q
termination_by p => p.cursor.remaining

/-- Takes an expression, and gives its text and its place too. -/
def parseExpr : Parse Value := do
  let first ← token
  match Reader.sign? first with
  | some negative =>
    advance
    let (terms, text) ← parseTerms negative
    return ⟨⟨terms⟩, first.value ++ text, first.location⟩
  | none =>
    let (terms, text) ← parseTerms false
    return ⟨⟨terms⟩, text, first.location⟩

/-- The value of an expression that cannot wait. If there is none, the reason is reported. -/
def evaluateNow (v : Value) : Parse (Option UInt16) := do
  let p ← get
  let (value, messages) := v.evaluate p.symbols p.lineAddress
  modify (·.reportAll messages)
  return value

/-- Adds the node that tells most about an expression. -/
def addValueNode (v : Value) (kind : OperandKind) (value : Option UInt16) : Parse Nat := do
  let p ← get
  addNode (v.node p.lineAddress kind value)

/-! ### Operands -/

/-- Reports what is wrong with an operand, and adds its node. -/
def addOperand (s : Settled) : Parse ParsedOperand := do
  modify (·.reportAll s.messages)
  let node ← addNode s.node
  return s.parsed node

/-- Takes a register. Whether the instruction can have it is seen when it is encoded. -/
def parseRegister (kind : OperandKind) : Parse ParsedOperand := do
  let t ← token
  if t.kind = .identifier then
    let o ← addOperand (settleRegister kind t)
    advance
    return o
  else missing kind.name

/-- Takes a value. One that cannot be computed yet is zero and pending, and one out of range is
reported and zero. -/
def parseValue (kind : OperandKind) : Parse ParsedOperand := do
  let v ← parseExpr
  let p ← get
  addOperand ((Argument.value kind v).settle p.symbols p.lineAddress)

/-- Takes an operand of the given kind. -/
def parseArgument (kind : OperandKind) : Parse ParsedOperand :=
  match kind with
  | .register | .pair => parseRegister kind
  | _ => parseValue kind

/-- Takes an operand of the given kind as a child of a node. -/
def parseOperand (parent : Nat) (kind : OperandKind) : Parse ParsedOperand := do
  let o ← parseArgument kind
  appendChild parent o.node
  return o

/-- Takes operands with commas between them. -/
def parseOperands (parent : Nat) : List OperandKind → Parse (List ParsedOperand)
  | [] => return []
  | [kind] => do
    let o ← parseOperand parent kind
    return [o]
  | kind :: kinds => do
    let o ← parseOperand parent kind
    expect .comma
    let os ← parseOperands parent kinds
    return o :: os

/-! ### Data -/

/-- Looks whether the string on the current token is a whole item, rather than the start of an
expression. -/
def stringItemEnds : Parse Bool := do
  let next ← peek
  let t ← token
  return (next.kind = .comma || next.kind = .comment || next.kind.endsLine) && t.value.length != 3

/-- Looks whether the current token is an item of its own, which only strings of bytes are. -/
def atStringItem (width : Width) : Parse Bool := do
  let t ← token
  if width = .byte ∧ t.kind = .string then stringItemEnds else return false

/-- Adds a node for each character of a string as a child of another. The first one has the text
of the whole string. -/
def addCharacters (parent : Nat) (t : Token) : (text : String) → List Char → Parse (List UInt8)
  | _, [] => return []
  | text, c :: cs => do
    let checked := checkRange 8 c.toNat t.location
    modify (·.reportAll checked.2)
    let item ← addNode ⟨.data8 checked.1.toUInt8, text, t.location⟩
    appendChild parent item
    let bytes ← addCharacters parent t "" cs
    return checked.1.toUInt8 :: bytes

/-- Takes an item of a list of data, `offset` bytes from the start of the statement: its bytes, and
its value if that has to wait. -/
def parseItem (width : Width) (parent offset : Nat) : Parse (List UInt8 × List PendingValue) := do
  if ← atStringItem width then
    let t ← token
    let bytes ← addCharacters parent t t.value (stringBody t)
    advance
    return (bytes, [])
  else
    let o ← parseValue width.operandKind
    appendChild parent o.node
    return (width.bytesOf o.word, o.pending.toList.map ({ · with offset }))

/-! ### Moving forward -/

theorem forward_parseTerms (negative : Bool) : Forward (parseTerms negative) := by
  intro p
  rw [after, EStateM.run]
  fun_induction parseTerms negative p with
  | case1 => exact .refl _
  | case2 => exact .advance _
  | case3 negative p term hterm next hsign hlt f q hrest ih
  | case4 negative p term hterm next hsign hlt terms text q hrest ih =>
    rw [hrest] at ih
    exact (Cursor.Ahead.advance _).trans ((Cursor.Ahead.advance _).trans ih)

theorem forward_parseExpr : Forward parseExpr := by
  refine forward_token.bind fun first => ?_
  split
  · refine forward_advance.bind fun _ => (forward_parseTerms _).bind fun terms => ?_
    exact forward_pure _
  · exact (forward_parseTerms _).bind fun terms => forward_pure _

theorem forward_evaluateNow (v : Value) : Forward (evaluateNow v) :=
  forward_get.bind fun _ => (forward_reportAll _).bind fun _ => forward_pure _

theorem forward_addValueNode (v : Value) (kind : OperandKind) (value : Option UInt16) :
    Forward (addValueNode v kind value) :=
  forward_get.bind fun _ => forward_addNode _

theorem forward_addOperand (s : Settled) : Forward (addOperand s) := by
  refine (forward_reportAll s.messages).bind fun _ => (forward_addNode s.node).bind fun _ => ?_
  exact forward_pure _

theorem forward_parseValue (kind : OperandKind) : Forward (parseValue kind) :=
  forward_parseExpr.bind fun _ => forward_get.bind fun _ => forward_addOperand _

theorem forward_atStringItem (width : Width) : Forward (atStringItem width) := by
  refine forward_token.bind fun t => ?_
  split
  · exact forward_peek.bind fun next => forward_token.bind fun t => forward_pure _
  · exact forward_pure false

theorem forward_addCharacters (parent : Nat) (t : Token) (text : String) (cs : List Char) :
    Forward (addCharacters parent t text cs) := by
  induction cs generalizing text with
  | nil =>
    rw [addCharacters]
    exact forward_pure []
  | cons c cs ih =>
    rw [addCharacters]
    refine (forward_reportAll _).bind fun _ => (forward_addNode _).bind fun item => ?_
    exact (forward_appendChild _ _).bind fun _ => (ih "").bind fun bytes => forward_pure _

theorem forward_parseItem (width : Width) (parent offset : Nat) :
    Forward (parseItem width parent offset) := by
  refine (forward_atStringItem width).bind fun isString => ?_
  split
  · refine forward_token.bind fun t => (forward_addCharacters _ _ _ _).bind fun bytes => ?_
    exact forward_advance.bind fun _ => forward_pure _
  · refine (forward_parseValue _).bind fun o => ?_
    exact (forward_appendChild _ _).bind fun _ => forward_pure _

/-- Takes items with commas between them, `offset` bytes from the start of the statement. -/
def parseItems (width : Width) (parent offset : Nat) :
    Parse (List UInt8 × List PendingValue) := fun p =>
  match h : (parseItem width parent offset).run p with
  | .error f q => .error f q
  | .ok (bytes, pending) q =>
    if hcomma : q.cursor.token.kind = .comma then
      have : q.moved.cursor.remaining < p.cursor.remaining :=
        Nat.lt_of_lt_of_le (Cursor.remaining_advance_lt (by simp [hcomma]))
          ((forward_parseItem width parent offset).of_ok h).le
      match parseItems width parent (offset + bytes.length) q.moved with
      | .error f r => .error f r
      | .ok (rest, waiting) r => .ok (bytes ++ rest, pending ++ waiting) r
    else .ok (bytes, pending) q
termination_by p => p.cursor.remaining

theorem forward_parseItems (width : Width) (parent offset : Nat) :
    Forward (parseItems width parent offset) := by
  intro p
  rw [after, EStateM.run]
  fun_induction parseItems width parent offset p with
  | case1 offset p f q hitem => exact (forward_parseItem _ _ _).of_error hitem
  | case2 offset p bytes pending q hitem hcomma hlt f r hrest ih
  | case3 offset p bytes pending q hitem hcomma hlt rest waiting r hrest ih =>
    rw [hrest] at ih
    exact ((forward_parseItem _ _ _).of_ok hitem).trans ((Cursor.Ahead.advance _).trans ih)
  | case4 offset p bytes pending q hitem => exact (forward_parseItem _ _ _).of_ok hitem

end Parser

end MicroAsm
