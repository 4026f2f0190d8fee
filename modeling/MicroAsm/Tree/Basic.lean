import MicroAsm.Tree.Node

/-!
# Syntax trees

The nodes of a tree are numbered in the order in which they are added. A node knows its first and
its last child and the sibling after it, so a child is appended in one step. The root comes into
being with the first line.
-/

namespace MicroAsm

/-- A node with its links. -/
structure TreeNode where
  node : Node
  firstChild : Option Nat := none
  lastChild : Option Nat := none
  nextSibling : Option Nat := none
deriving DecidableEq, Repr, Inhabited

/-- Nodes by number, and the number of the root. -/
structure SyntaxTree where
  nodes : Array TreeNode := #[]
  root : Option Nat := none
deriving DecidableEq, Repr, Inhabited

namespace SyntaxTree

/-- How many nodes there are, those without a parent included. -/
def size (t : SyntaxTree) : Nat := t.nodes.size

def isEmpty (t : SyntaxTree) : Bool := t.nodes.isEmpty

def node? (t : SyntaxTree) (id : Nat) : Option Node :=
  t.nodes[id]?.map TreeNode.node

/-- Adds a node without a parent, and gives its number. -/
def add (t : SyntaxTree) (n : Node) : Nat × SyntaxTree :=
  (t.nodes.size, { t with nodes := t.nodes.push { node := n } })

def modify (t : SyntaxTree) (id : Nat) (f : Node → Node) : SyntaxTree :=
  { t with nodes := t.nodes.modify id fun e => { e with node := f e.node } }

/-- Makes a node the last child of another. -/
def appendChild (t : SyntaxTree) (parent child : Nat) : SyntaxTree :=
  let nodes :=
    match t.nodes[parent]?.bind TreeNode.lastChild with
    | some last => t.nodes.modify last fun e => { e with nextSibling := some child }
    | none => t.nodes.modify parent fun e => { e with firstChild := some child }
  { t with nodes := nodes.modify parent fun e => { e with lastChild := some child } }

/-- Makes nodes the last children of another, one after the other. -/
def appendChildren (t : SyntaxTree) (parent : Nat) (children : List Nat) : SyntaxTree :=
  children.foldl (fun t child => t.appendChild parent child) t

/-- The number of the root, which is added if there is none yet. -/
def ensureRoot (t : SyntaxTree) : Nat × SyntaxTree :=
  match t.root with
  | some root => (root, t)
  | none =>
    let (root, t) := t.add ⟨.tree, "", .none⟩
    (root, { t with root := some root })

/-- Makes a node the last line below the root. -/
def addLine (t : SyntaxTree) (line : Nat) : SyntaxTree :=
  let (root, t) := t.ensureRoot
  t.appendChild root line

/-- A node and the siblings after it, at most `fuel` of them. -/
def siblings (t : SyntaxTree) : (fuel : Nat) → Option Nat → List Nat
  | 0, _ => []
  | _ + 1, none => []
  | fuel + 1, some id => id :: siblings t fuel (t.nodes[id]?.bind TreeNode.nextSibling)

/-- The children of a node in order. No chain of siblings is longer than the tree has nodes. -/
def children (t : SyntaxTree) (id : Nat) : List Nat :=
  t.siblings t.nodes.size (t.nodes[id]?.bind TreeNode.firstChild)

/-- The lines below the root in order. -/
def lines (t : SyntaxTree) : List Nat :=
  match t.root with
  | some root => t.children root
  | none => []

/-- The first child of a node with a property of its kind. -/
def findChild? (t : SyntaxTree) (id : Nat) (p : NodeKind → Bool) : Option Nat :=
  (t.children id).find? fun child => ((t.node? child).map (p ·.kind)).getD false

def label? (t : SyntaxTree) (line : Nat) : Option Node :=
  (t.findChild? line (· = .label)).bind t.node?

def comment? (t : SyntaxTree) (line : Nat) : Option Node :=
  (t.findChild? line (· = .comment)).bind t.node?

def statement? (t : SyntaxTree) (line : Nat) : Option Nat :=
  t.findChild? line fun kind => kind ≠ .label ∧ kind ≠ .comment

/-- The statement of a line as a source would have it. -/
def statementText (t : SyntaxTree) (line : Nat) : String :=
  match t.statement? line with
  | none => ""
  | some id =>
    match t.node? id with
    | none => ""
    | some head => head.statementText ((t.children id).filterMap t.node?)

end SyntaxTree

end MicroAsm
