import MicroAsm.Tree.Basic
import MicroAsm.Word

/-!
# Records of lines

What is kept of each line of a source. A line that was accepted has a place in the code, and its
operands may wait for symbols that later lines define; of a line that was rejected only loose
nodes are left. The syntax tree of a source is made from these records.
-/

namespace MicroAsm

/-- A value that waits for symbols of later lines. -/
structure Deferred where
  /-- Where its bytes go, from the start of the line. -/
  offset : Nat
  width : Width
  expr : Expr
deriving DecidableEq, Repr, Inhabited

/-- An operand of a statement. -/
structure OperandNode where
  node : Node
  deferred : Option Deferred := none
deriving DecidableEq, Repr, Inhabited

/-- A line that was accepted. -/
structure Line where
  place : Placement
  /-- The place of its first token. -/
  location : Location
  label : Option Node
  statement : Node
  operands : List OperandNode
  comment : Option Node
deriving DecidableEq, Repr, Inhabited

/-- What is left of a line that was rejected. -/
structure Remnant where
  label : Option Node
  statement : Option Node
  operands : List Node
deriving DecidableEq, Repr, Inhabited

/-- What is kept of a line. -/
inductive Record where
  | line (l : Line)
  | remnant (r : Remnant)
deriving DecidableEq, Repr

namespace Line

def operandNodes (l : Line) : List Node :=
  l.operands.map OperandNode.node

/-- The statement as a source would have it. -/
def statementText (l : Line) : String :=
  l.statement.statementText l.operandNodes

/-- The values that still wait. -/
def deferred (l : Line) : List Deferred :=
  l.operands.filterMap OperandNode.deferred

end Line

def Record.line? : Record → Option Line
  | line l => some l
  | remnant _ => none

namespace SyntaxTree

/-- Adds nodes without a parent, and gives their numbers. -/
def addAll (t : SyntaxTree) : List Node → List Nat × SyntaxTree
  | [] => ([], t)
  | n :: ns =>
    let (id, t) := t.add n
    let (ids, t) := t.addAll ns
    (id :: ids, t)

/-- Adds a node with children that have none themselves, and gives its number. -/
def addParent (t : SyntaxTree) (n : Node) (children : List Node) : Nat × SyntaxTree :=
  let (id, t) := t.add n
  let (ids, t) := t.addAll children
  (id, t.appendChildren id ids)

/-- Adds the nodes of a line below the root. -/
def plantLine (t : SyntaxTree) (l : Line) : SyntaxTree :=
  let (label, t) := t.addAll l.label.toList
  let (statement, t) := t.addParent l.statement l.operandNodes
  let (comment, t) := t.addAll l.comment.toList
  let (id, t) := t.add ⟨.line l.place, "", l.location⟩
  (t.appendChildren id (label ++ statement :: comment)).addLine id

/-- Adds the nodes left of a rejected line, without a way to them from the root. -/
def plantRemnant (t : SyntaxTree) (r : Remnant) : SyntaxTree :=
  let (_, t) := t.addAll r.label.toList
  match r.statement with
  | some n => (t.addParent n r.operands).2
  | none => t

def plant (t : SyntaxTree) : Record → SyntaxTree
  | .line l => t.plantLine l
  | .remnant r => t.plantRemnant r

def ofRecords (records : List Record) : SyntaxTree :=
  records.foldl plant {}

end SyntaxTree

end MicroAsm
