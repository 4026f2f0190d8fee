import MicroAsm.Statement.Basic
import MicroAsm.Token.Scanner

/-!
# Reading statements

Reads the tokens of a physical line by the grammar

    line := [label] statement [comment]
    label := identifier ":" | identifier, before EQU or SET
    expr := ["+" | "-"] term (("+" | "-") term)*
    term := number | identifier | "$" | string of one character

A line is read on its own: only the tokens and the processor decide whether it is accepted. The
token that ends the line stands for what is found where tokens run out.
-/

namespace MicroAsm

namespace Reader

/-- The next token of a line that ends with `stop`. -/
def current (stop : Token) (ts : List Token) : Token :=
  ts.headD stop

/-- The failure to find something at the next token. -/
def missing (stop : Token) (ts : List Token) (what : String) : Failure :=
  let t := current stop ts
  ⟨t.location, .expected what t.shown⟩

/-- The statement is over: nothing but a comment follows. -/
def atEnd (ts : List Token) : Bool :=
  match ts with
  | [] => true
  | t :: _ => t.kind = .comment

/-- Checks that the statement is over. -/
def expectEnd (stop : Token) (ts : List Token) : Except Failure Unit :=
  if atEnd ts then .ok () else .error (missing stop ts TokenKind.endOfLine.name)

def readTerm (t : Token) : Except Failure Term :=
  let value : Failure := ⟨t.location, .expected "Value" t.shown⟩
  match t.kind with
  | .number =>
    match t.number? with
    | some n => .ok (.number n)
    | none => .error ⟨t.location, .invalidNumber t.value⟩
  | .identifier => .ok (.symbol t.value)
  | .dollar => .ok .locationCounter
  | .string =>
    match t.value.toList with
    | [_, c, _] => .ok (.char c)
    | _ => .error value
  | _ => .error value

/-- The sign that a token is. -/
def sign? (t : Token) : Option Bool :=
  match t.kind with
  | .plus => some false
  | .minus => some true
  | _ => none

/-- Reads terms with signs between them, and gives their text too. -/
def readTerms (stop : Token) :
    (negative : Bool) → List Token → Except Failure (List SignedTerm × String × List Token)
  | _, [] => .error (missing stop [] "Value")
  | negative, [t] => (readTerm t).map fun term => ([⟨negative, term⟩], t.value, [])
  | negative, t :: op :: rest =>
    match readTerm t, sign? op with
    | .error failure, _ => .error failure
    | .ok term, none => .ok ([⟨negative, term⟩], t.value, op :: rest)
    | .ok term, some next =>
      (readTerms stop next rest).map fun (terms, text, rest) =>
        (⟨negative, term⟩ :: terms, t.value ++ op.value ++ text, rest)

def readValue (stop : Token) (ts : List Token) : Except Failure (Value × List Token) :=
  match ts.head?.bind sign? with
  | some negative =>
    (readTerms stop negative ts.tail).map fun (terms, text, rest) =>
      (⟨⟨terms⟩, (current stop ts).value ++ text, (current stop ts).location⟩, rest)
  | none =>
    (readTerms stop false ts).map fun (terms, text, rest) =>
      (⟨⟨terms⟩, text, (current stop ts).location⟩, rest)

/-- Terms take tokens off the line. -/
theorem length_readTerms_lt {stop : Token} {negative : Bool} {ts : List Token}
    {r : List SignedTerm × String × List Token} (h : readTerms stop negative ts = .ok r) :
    r.2.2.length < ts.length := by
  fun_induction readTerms stop negative ts generalizing r with
  | case1 => cases h
  | case2 negative t =>
    cases ht : readTerm t <;> simp [ht, Except.map] at h
    simp [← h]
  | case3 => cases h
  | case4 =>
    cases h
    simp
  | case5 negative t op rest term next _ _ ih =>
    cases hr : readTerms stop next rest with
    | error e => simp [hr, Except.map] at h
    | ok r' =>
      obtain ⟨terms, text, rest'⟩ := r'
      have := ih hr
      simp only [hr, Except.map, Except.ok.injEq] at h
      simp only [← h, List.length_cons] at this ⊢
      omega

/-- An expression takes tokens off the line. -/
theorem length_readValue_lt {stop : Token} {ts : List Token} {r : Value × List Token}
    (h : readValue stop ts = .ok r) : r.2.length < ts.length := by
  unfold readValue at h
  split at h
  · rename_i negative _
    cases hr : readTerms stop negative ts.tail with
    | error e => simp [hr, Except.map] at h
    | ok r' =>
      obtain ⟨terms, text, rest⟩ := r'
      have hlt := length_readTerms_lt hr
      simp only [hr, Except.map, Except.ok.injEq] at h
      simp only [← h, List.length_tail] at hlt ⊢
      omega
  · cases hr : readTerms stop false ts with
    | error e => simp [hr, Except.map] at h
    | ok r' =>
      have hlt := length_readTerms_lt hr
      simp only [hr, Except.map, Except.ok.injEq] at h
      simpa only [← h] using hlt

/-- A string is an item of its own, unless it is a character that an expression starts with. -/
def isStringItem (width : Width) (ts : List Token) : Bool :=
  match width, ts with
  | .byte, t :: rest =>
    t.kind = .string && t.value.length != 3 &&
      (match rest with
      | [] => true
      | u :: _ => u.kind = .comma || u.kind = .comment)
  | _, _ => false

/-- Reads an item of a list of data. -/
def readItem (stop : Token) (width : Width) (ts : List Token) :
    Except Failure (Item × List Token) :=
  if isStringItem width ts then .ok (.string (current stop ts), ts.tail)
  else (readValue stop ts).map fun (v, rest) => (.value v, rest)

/-- An item takes tokens off the line. -/
theorem length_readItem_lt {stop : Token} {width : Width} {ts : List Token}
    {r : Item × List Token} (h : readItem stop width ts = .ok r) : r.2.length < ts.length := by
  unfold readItem at h
  split at h
  · rename_i hs
    cases ts with
    | nil => simp [isStringItem] at hs
    | cons t rest =>
      cases h
      simp
  · cases hr : readValue stop ts with
    | error e => simp [hr, Except.map] at h
    | ok r' =>
      have hlt := length_readValue_lt hr
      simp only [hr, Except.map, Except.ok.injEq] at h
      simpa only [← h] using hlt

/-- Reads items with commas between them: the items read, and the tokens after them or what went
wrong. -/
def readItems (stop : Token) (width : Width) (ts : List Token) :
    List Item × Except Failure (List Token) :=
  match h : readItem stop width ts with
  | .error failure => ([], .error failure)
  | .ok (item, comma :: rest) =>
    if comma.kind = .comma then
      have : rest.length < ts.length := by
        have := length_readItem_lt h
        simp only [List.length_cons] at this
        omega
      let (items, result) := readItems stop width rest
      (item :: items, result)
    else ([item], .ok (comma :: rest))
  | .ok (item, []) => ([item], .ok [])
termination_by ts.length

def readArgument (stop : Token) (kind : OperandKind) (ts : List Token) :
    Except Failure (Argument × List Token) :=
  match kind with
  | .register | .pair =>
    match ts with
    | t :: rest =>
      if t.kind = .identifier then .ok (.register kind t, rest)
      else .error (missing stop ts kind.name)
    | [] => .error (missing stop [] kind.name)
  | _ => (readValue stop ts).map fun (v, rest) => (.value kind v, rest)

/-- Reads operands with commas between them: the operands read, and the tokens after them or what
went wrong. -/
def readArguments (stop : Token) :
    List OperandKind → List Token → List Argument × Except Failure (List Token)
  | [], ts => ([], .ok ts)
  | [kind], ts =>
    match readArgument stop kind ts with
    | .error failure => ([], .error failure)
    | .ok (argument, rest) => ([argument], .ok rest)
  | kind :: kinds, ts =>
    match readArgument stop kind ts with
    | .error failure => ([], .error failure)
    | .ok (argument, comma :: rest) =>
      if comma.kind = .comma then
        let (arguments, result) := readArguments stop kinds rest
        (argument :: arguments, result)
      else ([argument], .error (missing stop (comma :: rest) TokenKind.comma.name))
    | .ok (argument, []) => ([argument], .error (missing stop [] TokenKind.comma.name))

/-- What reading a statement gives: the statement and the tokens after it, or what was read of it
and what went wrong. -/
abbrev StatementResult := Except (Fragment × Failure) (Statement × List Token)

/-- Reads the name after a CPU directive. -/
def readCpu (stop : Token) (location : Location) (ts : List Token) : StatementResult :=
  match ts with
  | t :: rest =>
    if t.kind = .identifier ∨ t.kind = .number then
      match expectEnd stop rest with
      | .ok () => .ok (.cpu location t, rest)
      | .error failure => .error (.nothing, failure)
    else .error (.nothing, missing stop ts TokenKind.identifier.name)
  | [] => .error (.nothing, missing stop [] TokenKind.identifier.name)

/-- Reads the only expression of a directive. -/
def readOnlyValue (stop : Token) (ts : List Token) : Except Failure (Value × List Token) := do
  let (v, rest) ← readValue stop ts
  expectEnd stop rest
  return (v, rest)

/-- Reads the items after a data directive. -/
def readData (stop : Token) (width : Width) (location : Location) (ts : List Token) :
    StatementResult :=
  let (items, result) := readItems stop width ts
  match result with
  | .error failure => .error (.data width location items, failure)
  | .ok rest =>
    match expectEnd stop rest with
    | .ok () => .ok (.data width location items, rest)
    | .error failure => .error (.data width location items, failure)

def readInstruction (stop : Token) (i : Instruction) (location : Location) (ts : List Token) :
    StatementResult :=
  let (arguments, result) := readArguments stop i.family.operands ts
  match result with
  | .error failure => .error (.instruction i location arguments, failure)
  | .ok rest =>
    match expectEnd stop rest with
    | .ok () => .ok (.instruction i location arguments, rest)
    | .error failure => .error (.instruction i location arguments, failure)

def readStatement (cpu : Cpu) (stop : Token) (ts : List Token) : StatementResult :=
  match ts with
  | [] => .ok (.empty stop.location, [])
  | t :: rest =>
    let opcode : StatementResult := .error (.nothing, missing stop ts "Opcode")
    match t.kind with
    | .comment => .ok (.empty t.location, ts)
    | .equ =>
      match readOnlyValue stop rest with
      | .ok (v, rest) => .ok (.assign .equ t.location v, rest)
      | .error failure => .error (.assign .equ t.location, failure)
    | .set =>
      match readOnlyValue stop rest with
      | .ok (v, rest) => .ok (.assign .set t.location v, rest)
      | .error failure => .error (.assign .set t.location, failure)
    | .org =>
      match readOnlyValue stop rest with
      | .ok (v, rest) => .ok (.org t.location v, rest)
      | .error failure => .error (.org t.location, failure)
    | .cpu => readCpu stop t.location rest
    | .endUnit =>
      match expectEnd stop rest with
      | .ok () => .ok (.endUnit t.location, rest)
      | .error failure => .error (.nothing, failure)
    | .db => readData stop .byte t.location rest
    | .dw => readData stop .word t.location rest
    | .identifier =>
      match cpu.lookup t.value with
      | .supported i => readInstruction stop i t.location rest
      | .otherCpu _ => opcode
      | .unknown => .error (.nothing, ⟨t.location, .unknownMnemonic t.value⟩)
    | _ => opcode

/-- Takes the label off the front of a line. -/
def readLabel : List Token → Option Token × List Token
  | t :: u :: rest =>
    if t.kind = .identifier then
      match u.kind with
      | .colon => (some t, rest)
      | .equ | .set => (some t, u :: rest)
      | _ => (none, t :: u :: rest)
    else (none, t :: u :: rest)
  | ts => (none, ts)

end Reader

def SourceLine.read (cpu : Cpu) (line : SourceLine) : LineReading :=
  let (label, ts) := Reader.readLabel line.body
  match Reader.readStatement cpu line.stop ts with
  | .error (fragment, failure) => .rejected label fragment failure
  | .ok (statement, []) => .accepted label statement none
  | .ok (statement, [comment]) => .accepted label statement (some comment)
  | .ok (_, _ :: ts) =>
    .rejected label .nothing (Reader.missing line.stop ts TokenKind.endOfLine.name)

end MicroAsm
