import MicroAsm.Parser.Statement

/-!
# Parsing a text

A text is taken line by line until its end or until an END is accepted. A line that fails is
reported, and the rest of it is skipped. After the last line the values that had to wait are
written into the object code.
-/

namespace MicroAsm

namespace Parser

/-! ### Lines -/

/-- Leaves the rest of the line and its end behind. -/
def skipLine (p : Parser) : Parser :=
  { p with cursor := p.cursor.skipLine }

/-- The place of a line between the states before and after its statement. -/
def placement (before after : Parser) (children : List Nat) : Placement :=
  if children.any fun id => (after.tree.node? id).any (·.kind = .org) then
    { segment := before.segment, address := after.locationCounter, start := after.segmentSize }
  else
    { segment := before.segment
      address := after.segmentOffset + UInt16.ofNat before.segmentSize
      start := before.segmentSize
      size := after.segmentSize - before.segmentSize }

/-- Adds the node of a line with the given children, and leaves the end of the line behind. -/
def closeLine (before after : Parser) (children : List Nat) : Parser :=
  let line : Node := ⟨.line (before.placement after children), "", before.cursor.token.location⟩
  let (id, tree) := after.tree.add line
  { after with
    tree := (tree.appendChildren id children).addLine id
    cursor := after.cursor.skipBreak }

/-- The parser at the start of a line that is not blank. -/
def startLine (p : Parser) : Parser :=
  { p with lineAddress := p.locationCounter }

/-- Takes a line. A blank line leaves no trace, and one that fails leaves no line. -/
def parseLine (p : Parser) : Parser :=
  if p.cursor.token.kind = .endOfLine then p.moved
  else
    match parseStatementLine.run p.startLine with
    | .ok children q => p.closeLine q children
    | .error f q => (q.report f.message).skipLine

/-- A line without a mistake is taken up to its end. -/
theorem endsLine_of_parseStatementLine {p q : Parser} {children : List Nat}
    (h : parseStatementLine.run p = .ok children q) : q.cursor.token.kind.endsLine = true := by
  obtain ⟨label, p₁, -, h⟩ := run_bind_eq_ok h
  obtain ⟨statement, p₂, -, h⟩ := run_bind_eq_ok h
  obtain ⟨comment, p₃, -, h⟩ := run_bind_eq_ok h
  obtain ⟨t, p₄, htoken, h⟩ := run_bind_eq_ok h
  cases htoken
  split at h
  · cases h
    assumption
  · cases h

/-- A line takes something off the text. Without a mistake it ends at another token than it starts,
and after one at least the token where it starts is skipped. -/
theorem remaining_parseLine_lt {p : Parser} (h : p.cursor.token.kind ≠ .endOfFile) :
    p.parseLine.cursor.remaining < p.cursor.remaining := by
  rw [parseLine]
  split
  · exact Cursor.remaining_advance_lt h
  rename_i hbreak
  have hends : p.cursor.token.kind.endsLine = false := by
    cases hkind : p.cursor.token.kind <;> simp_all [TokenKind.endsLine]
  split
  · rename_i children q hrun
    have hle := (Cursor.ahead_skipBreak q.cursor).le
    obtain hlt | ⟨-, hsame | hend⟩ := forward_parseStatementLine.of_ok hrun
    · exact Nat.lt_of_le_of_lt hle hlt
    · have hq := endsLine_of_parseStatementLine hrun
      rw [hsame] at hq
      exact absurd (hends.symm.trans hq) (by decide)
    · exact absurd hend h
  · rename_i f q hrun
    obtain hlt | ⟨hle, hsame | hend⟩ := forward_parseStatementLine.of_error hrun
    · exact Nat.lt_of_le_of_lt q.cursor.remaining_skipLine_le hlt
    · have hq : q.cursor.token.kind.endsLine = false := by
        rw [hsame]
        exact hends
      exact Nat.lt_of_lt_of_le (Cursor.remaining_skipLine_lt hq) hle
    · exact absurd hend h

/-! ### The whole text -/

/-- Warns about anything but comments behind the end of the unit. -/
def afterEnd (p : Parser) : Parser :=
  let p := { p with cursor := p.cursor.skipComments }
  if p.cursor.token.kind = .endOfFile then p
  else p.report ⟨.warning, p.cursor.token.location, "Text after END is ignored"⟩

/-- Takes lines up to the end of the text or of the unit. -/
def parseLines (p : Parser) : Parser :=
  if p.cursor.token.kind = .endOfFile then p
  else if p.ended then p.afterEnd
  else p.parseLine.parseLines
termination_by p.cursor.remaining
decreasing_by exact remaining_parseLine_lt ‹_›

/-- Writes bytes over those that were kept free for a value. -/
def patch (p : Parser) (x : Fixup) (bytes : List UInt8) : Parser :=
  match p.object.get? x.segment with
  | none => p
  | some s =>
    match s.patch? x.index bytes with
    | some s => { p with object := p.object.put x.segment s }
    | none => { p with log := p.log.exception ("fixup out of bounds at " ++ x.location.text) }

/-- Gives a value that had to wait to the object code and to its node. -/
def resolveFixup (p : Parser) (x : Fixup) : Parser :=
  match x.expr.eval p.symbols x.here with
  | .error name => p.report (undefinedSymbol name x.location)
  | .ok n =>
    let (word, messages) := checkRange x.width.bits n x.location
    let p := (p.reportAll messages).patch x (x.width.bytesOf word)
    { p with tree := p.tree.modify x.node fun n => { n with kind := n.kind.resolved word } }

/-- Resolves all values that had to wait, in the order of the text. -/
def resolveFixups (p : Parser) : Parser :=
  p.fixups.foldl resolveFixup { p with fixups := [] }

/-- Parses the whole text, unless that has been done. -/
def parse (p : Parser) : Parser :=
  if p.parsed then p else ({ p with parsed := true }).parseLines.resolveFixups

/-- The syntax tree, if there is a line. -/
def syntaxTree (p : Parser) : Except TreeError SyntaxTree :=
  match p.tree.root with
  | some _ => .ok p.tree
  | none => .error .noStatements

end Parser

end MicroAsm
