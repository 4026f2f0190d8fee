import MicroAsm.Assembly.Program
import MicroAsm.Parser.Cursor

/-!
# Parsers

The state of a parser that takes a text token by token, and the small steps it is made of. A step
changes the state as it goes: it moves over tokens, adds nodes to the syntax tree, complains,
defines symbols and puts bytes into the object code. A step that fails keeps what it has done until
then.

`Parser.Forward` says that a step only moves forward, whether it fails or not. It holds of chains
of such steps, which is what makes the loops of a parser end.
-/

namespace MicroAsm

/-- A value in the object code that is known only when the whole text has been read. -/
structure Fixup where
  segment : SegmentId
  /-- Where its bytes are in the segment. -/
  index : Nat
  width : Width
  expr : Expr
  /-- The address of the line where it stands. -/
  here : UInt16
  location : Location
  /-- The node that shows it. -/
  node : Nat
deriving DecidableEq, Repr

/-- A value that has to wait, on a line whose bytes are not in the object code yet. -/
structure PendingValue where
  expr : Expr
  location : Location
  node : Nat
  width : Width
  /-- Where its bytes go, from the start of the statement. -/
  offset : Nat := 0
deriving DecidableEq, Repr

/-- What is kept of a value for later, when its statement has its first byte at `start` and stands
on a line with the address `here`. -/
def PendingValue.fixup (v : PendingValue) (segment : SegmentId) (start : Nat) (here : UInt16) :
    Fixup :=
  { segment, index := start + v.offset, width := v.width, expr := v.expr, here,
    location := v.location, node := v.node }

/-- An operand ready to be encoded. -/
structure ParsedOperand where
  node : Nat
  operand : Operand
  location : Location
  pending : Option PendingValue := none
  /-- False if the instruction cannot be encoded with it. -/
  valid : Bool := true
deriving DecidableEq, Repr

/-- The operand whose node has the given number. -/
def Settled.parsed (s : Settled) (node : Nat) : ParsedOperand where
  node
  operand := s.operand
  location := s.node.location
  pending := s.waiting.map fun (width, expr) => ⟨expr, s.node.location, node, width, 0⟩
  valid := s.usable

/-- The operand as a word of data. -/
def ParsedOperand.word (o : ParsedOperand) : UInt16 :=
  match o.operand with
  | .value v => wordOfInt v
  | .register _ => 0

/-- The state of a parser. -/
structure Parser where
  cursor : Cursor
  cpu : Cpu := .intel8080
  log : Log := {}
  symbols : SymbolTable := {}
  tree : SyntaxTree := {}
  object : ObjectCode := .ofModule Program.defaultModule
  /-- Where bytes are put. -/
  segment : SegmentId := .code
  fixups : List Fixup := []
  /-- The location counter at the start of the line. -/
  lineAddress : UInt16 := 0
  /-- An END has been accepted. -/
  ended : Bool := false
  /-- The text has been parsed. -/
  parsed : Bool := false

/-- A step of a parser. A step that fails keeps the state it has come to. -/
abbrev Parse (α : Type) := EStateM Failure Parser α

namespace Parser

/-- A parser at the start of a text, with its messages after those of a log. -/
def ofText (log : Log) (text : String) : Parser :=
  { cursor := .ofText text, log }

/-- The parser with the processor to be assumed until the text selects one. -/
def withCpu (p : Parser) (cpu : Cpu) : Parser :=
  { p with cpu }

def withModule (p : Parser) (name : String) : Parser :=
  { p with object := p.object.setModuleName name }

/-! ### Changes of the state -/

/-- The parser on its next token. -/
def moved (p : Parser) : Parser :=
  { p with cursor := p.cursor.advance }

def reportAll (p : Parser) (ms : List Message) : Parser :=
  { p with log := p.log.reportAll ms }

def report (p : Parser) (m : Message) : Parser :=
  p.reportAll [m]

def segmentSize (p : Parser) : Nat :=
  ((p.object.get? p.segment).map Segment.size).getD 0

def segmentOffset (p : Parser) : UInt16 :=
  ((p.object.get? p.segment).map Segment.offset).getD 0

def locationCounter (p : Parser) : UInt16 :=
  ((p.object.get? p.segment).map Segment.locationCounter).getD 0

/-- Puts bytes into the object code, also those past the last address of the machine, which is an
error. -/
def emit (p : Parser) (bytes : List UInt8) (location : Location) : Parser :=
  match p.object.get? p.segment with
  | none => p
  | some s =>
    let p :=
      if s.endAddress + bytes.length > 0x10000 then
        p.report ⟨.error, location, "Location counter out of range"⟩
      else p
    { p with object := p.object.put p.segment (s.append bytes) }

/-- Keeps the values of a statement that has its first byte at `start` for later. -/
def addFixups (p : Parser) (start : Nat) (pending : List PendingValue) : Parser :=
  { p with fixups := p.fixups ++ pending.map (·.fixup p.segment start p.lineAddress) }

/-- Takes over what changing the symbols gives, or reports what is wrong at a place. -/
def withSymbols (p : Parser) (result : Except SymbolError SymbolTable) (location : Location) :
    Parser :=
  match result with
  | .ok symbols => { p with symbols }
  | .error e => p.report ⟨.error, location, e.text⟩

/-- Gives the label of a line a value, if there is one. -/
def defineLabel (p : Parser) (label : Option Token) (value : UInt16) : Parser :=
  match label with
  | none => p
  | some t => p.withSymbols (p.symbols.add t.value value .label) t.location

/-! ### Steps over tokens -/

/-- The current token. -/
def token : Parse Token := do
  return (← get).cursor.token

def advance : Parse Unit :=
  modify moved

/-- Looks at the token after the current one. -/
def peek : Parse Token :=
  modifyGet fun p => (p.cursor.peek.1, { p with cursor := p.cursor.peek.2 })

/-- Fails because something else was expected in place of the current token. -/
def missing {α : Type} (what : String) : Parse α := do
  let t ← token
  throw ⟨t.location, .expected what t.shown⟩

/-- Moves over a token of the given kind. -/
def expect (kind : TokenKind) : Parse Unit := do
  let t ← token
  if t.kind = kind then advance else missing kind.name

/-- Checks that the statement is over: a comment or the end of the line follows. -/
def expectEnd : Parse Unit := do
  let t ← token
  if t.kind = .comment ∨ t.kind.endsLine then return else missing TokenKind.endOfLine.name

/-! ### Steps that change the tree -/

/-- Adds a node without a parent, and gives its number. -/
def addNode (n : Node) : Parse Nat :=
  modifyGet fun p => (p.tree.size, { p with tree := (p.tree.add n).2 })

def appendChild (parent child : Nat) : Parse Unit :=
  modify fun p => { p with tree := p.tree.appendChild parent child }

/-! ### Chains of steps -/

section Chains

variable {α β : Type} {x : Parse α} {f : α → Parse β} {p : Parser}

theorem run_bind_of_ok {a : α} {q : Parser} (h : x.run p = .ok a q) :
    (x >>= f).run p = (f a).run q := by
  rw [EStateM.run_bind, h]

theorem run_bind_of_error {e : Failure} {q : Parser} (h : x.run p = .error e q) :
    (x >>= f).run p = .error e q := by
  rw [EStateM.run_bind, h]

theorem run_bind_eq_ok {b : β} {r : Parser} (h : (x >>= f).run p = .ok b r) :
    ∃ a q, x.run p = .ok a q ∧ (f a).run q = .ok b r := by
  rw [EStateM.run_bind] at h
  cases hx : x.run p with
  | ok a q => exact ⟨a, q, rfl, by rwa [hx] at h⟩
  | error e q =>
    rw [hx] at h
    cases h

end Chains

/-! ### Moving forward -/

/-- The state that a step comes to, whether it fails or not. -/
def after {α : Type} (x : Parse α) (p : Parser) : Parser :=
  match x.run p with
  | .ok _ q => q
  | .error _ q => q

/-- A step never goes back over tokens. -/
def Forward {α : Type} (x : Parse α) : Prop :=
  ∀ p : Parser, p.cursor.Ahead (after x p).cursor

section Forward

variable {α β : Type} {x : Parse α}

theorem Forward.of_ok (h : Forward x) {p q : Parser} {a : α} (hrun : x.run p = .ok a q) :
    p.cursor.Ahead q.cursor := by
  have hahead := h p
  rwa [after, hrun] at hahead

theorem Forward.of_error (h : Forward x) {p q : Parser} {f : Failure}
    (hrun : x.run p = .error f q) : p.cursor.Ahead q.cursor := by
  have hahead := h p
  rwa [after, hrun] at hahead

theorem forward_pure (a : α) : Forward (pure a : Parse α) :=
  fun p => Cursor.Ahead.refl p.cursor

theorem forward_throw (f : Failure) : Forward (throw f : Parse α) :=
  fun p => Cursor.Ahead.refl p.cursor

theorem forward_get : Forward (get : Parse Parser) :=
  fun p => Cursor.Ahead.refl p.cursor

/-- A change that leaves the tokens alone. -/
theorem forward_modify {f : Parser → Parser} (h : ∀ p, (f p).cursor = p.cursor) :
    Forward (modify f) := by
  intro p
  rw [after, EStateM.run_modify, h]
  exact Cursor.Ahead.refl p.cursor

theorem forward_reportAll (ms : List Message) :
    Forward (modify (·.reportAll ms) : Parse Unit) :=
  forward_modify fun _ => rfl

theorem Forward.bind (h : Forward x) {f : α → Parse β} (hf : ∀ a, Forward (f a)) :
    Forward (x >>= f) := by
  intro p
  rw [after, EStateM.run_bind]
  cases hx : x.run p with
  | ok a q => exact (h.of_ok hx).trans (hf a q)
  | error e q => exact h.of_error hx

theorem forward_token : Forward token :=
  forward_get.bind fun p => forward_pure p.cursor.token

theorem forward_advance : Forward advance :=
  fun p => Cursor.Ahead.advance p.cursor

theorem forward_peek : Forward peek :=
  fun p => Cursor.Ahead.peek p.cursor

theorem forward_missing (what : String) : Forward (missing what : Parse α) :=
  forward_token.bind fun t => forward_throw ⟨t.location, .expected what t.shown⟩

theorem forward_expect (kind : TokenKind) : Forward (expect kind) := by
  refine forward_token.bind fun t => ?_
  split
  · exact forward_advance
  · exact forward_missing _

theorem forward_expectEnd : Forward expectEnd := by
  refine forward_token.bind fun t => ?_
  split
  · exact forward_pure ()
  · exact forward_missing _

theorem forward_addNode (n : Node) : Forward (addNode n) :=
  fun p => Cursor.Ahead.refl p.cursor

theorem forward_appendChild (parent child : Nat) : Forward (appendChild parent child) :=
  forward_modify fun _ => rfl

end Forward

end Parser

end MicroAsm
