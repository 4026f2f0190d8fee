import Mathlib.Data.List.Induction
import MicroAsm.Assembly.Record

/-!
# How a syntax tree grows

Every link of a tree leads to a node that is there, and a sibling always has a greater number. So
nodes that are added without a way to them from the root change nothing that can be seen from it:
neither the lines below the root nor the children of any node that was there before.
-/

namespace MicroAsm

namespace SyntaxTree

/-- The number of the sibling after a node. -/
def next? (t : SyntaxTree) (id : Nat) : Option Nat :=
  t.nodes[id]?.bind TreeNode.nextSibling

/-- The number of the first child of a node. -/
def first? (t : SyntaxTree) (id : Nat) : Option Nat :=
  t.nodes[id]?.bind TreeNode.firstChild

/-- The number of the last child of a node. -/
def last? (t : SyntaxTree) (id : Nat) : Option Nat :=
  t.nodes[id]?.bind TreeNode.lastChild

/-- All links lead below `n`, and siblings have greater and greater numbers. -/
structure Linked (n : Nat) (t : SyntaxTree) : Prop where
  next : ∀ id next, t.next? id = some next → id < next ∧ next < n
  first : ∀ id child, t.first? id = some child → child < n
  last : ∀ id child, t.last? id = some child → child < n
  root : ∀ id, t.root = some id → id < n

/-- The first `n` nodes are those of another tree, with their links. -/
def Keeps (n : Nat) (t t' : SyntaxTree) : Prop :=
  ∀ id < n, t'.nodes[id]? = t.nodes[id]?

variable {n : Nat} {t t' t'' : SyntaxTree} {id parent child : Nat}

lemma Linked.mono {m : Nat} (h : Linked n t) (hle : n ≤ m) : Linked m t := by
  refine ⟨?_, ?_, ?_, ?_⟩
  · intro id next hnext
    have hlt := h.next id next hnext
    omega
  · intro id child hchild
    exact Nat.lt_of_lt_of_le (h.first id child hchild) hle
  · intro id child hchild
    exact Nat.lt_of_lt_of_le (h.last id child hchild) hle
  · intro id hid
    exact Nat.lt_of_lt_of_le (h.root id hid) hle

lemma Keeps.refl (n : Nat) (t : SyntaxTree) : Keeps n t t := fun _ _ => rfl

lemma Keeps.trans (h : Keeps n t t') (h' : Keeps n t' t'') : Keeps n t t'' :=
  fun id hid => (h' id hid).trans (h id hid)

/-! ### Nodes without links -/

/-- Adds nodes without links. -/
def extend (t : SyntaxTree) (ns : List Node) : SyntaxTree :=
  { t with nodes := t.nodes ++ (ns.map fun n => ({ node := n } : TreeNode)).toArray }

lemma add_eq (t : SyntaxTree) (n : Node) : t.add n = (t.size, t.extend [n]) := by
  simp [add, extend, size]

@[simp] lemma size_extend (t : SyntaxTree) (ns : List Node) :
    (t.extend ns).size = t.size + ns.length := by
  simp [extend, size]

@[simp] lemma root_extend (t : SyntaxTree) (ns : List Node) : (t.extend ns).root = t.root := rfl

lemma extend_extend (t : SyntaxTree) (ns ns' : List Node) :
    (t.extend ns).extend ns' = t.extend (ns ++ ns') := by
  simp [extend]

lemma addAll_eq (t : SyntaxTree) (ns : List Node) :
    t.addAll ns = (List.range' t.size ns.length, t.extend ns) := by
  induction ns generalizing t with
  | nil => simp [addAll, extend]
  | cons n ns ih =>
    rw [addAll, add_eq]
    simp only [ih, extend_extend, size_extend, List.length_cons, List.range'_succ,
      List.singleton_append]
    rfl

lemma keeps_extend (t : SyntaxTree) (ns : List Node) : Keeps t.size t (t.extend ns) := by
  intro id hid
  exact Array.getElem?_append_left hid

/-- The new nodes have no links. -/
lemma bind_nodes_extend {link : TreeNode → Option Nat} (hlink : ∀ n, link { node := n } = none)
    (t : SyntaxTree) (ns : List Node) (id : Nat) :
    (t.extend ns).nodes[id]?.bind link = t.nodes[id]?.bind link := by
  simp only [extend, Array.getElem?_append]
  by_cases hid : id < t.nodes.size
  · rw [if_pos hid]
  · rw [if_neg hid, Array.getElem?_eq_none (Nat.le_of_not_lt hid)]
    simp only [List.getElem?_toArray, List.getElem?_map, Option.bind_none]
    cases ns[id - t.nodes.size]? with
    | none => rfl
    | some n => exact hlink n

lemma Linked.extend (h : Linked n t) (ns : List Node) : Linked n (t.extend ns) := by
  refine ⟨?_, ?_, ?_, h.root⟩
  · intro id next hnext
    rw [next?, bind_nodes_extend fun _ => rfl] at hnext
    exact h.next id next hnext
  · intro id child hchild
    rw [first?, bind_nodes_extend fun _ => rfl] at hchild
    exact h.first id child hchild
  · intro id child hchild
    rw [last?, bind_nodes_extend fun _ => rfl] at hchild
    exact h.last id child hchild

/-- A new node has no children. -/
lemma last?_extend_of_le (ns : List Node) (hid : t.size ≤ id) :
    (t.extend ns).last? id = none := by
  rw [last?, bind_nodes_extend fun _ => rfl, Array.getElem?_eq_none hid]
  rfl

/-! ### Children -/

/-- What a node is after another node got a child. -/
lemma nodes_appendChild (t : SyntaxTree) (parent child id : Nat) :
    (t.appendChild parent child).nodes[id]? = t.nodes[id]?.map fun e =>
      { node := e.node
        firstChild := if t.last? parent = none ∧ parent = id then some child else e.firstChild
        lastChild := if parent = id then some child else e.lastChild
        nextSibling := if t.last? parent = some id then some child else e.nextSibling } := by
  simp only [appendChild]
  rw [← last?]
  cases hlast : t.last? parent with
  | none =>
    simp only [Array.getElem?_modify]
    by_cases hid : parent = id
    · simp [hid, Function.comp_def]
    · simp [hid]
  | some last =>
    simp only [Array.getElem?_modify]
    by_cases hid : parent = id <;> by_cases hid' : last = id <;>
      simp [hid, hid', Function.comp_def]

@[simp] lemma size_appendChild (t : SyntaxTree) (parent child : Nat) :
    (t.appendChild parent child).size = t.size := by
  simp only [appendChild, size, Array.size_modify]
  split <;> simp

@[simp] lemma root_appendChild (t : SyntaxTree) (parent child : Nat) :
    (t.appendChild parent child).root = t.root := rfl

lemma last?_appendChild {last : Nat} (h : (t.appendChild parent child).last? id = some last) :
    parent = id ∧ last = child ∨ t.last? id = some last := by
  rw [last?, nodes_appendChild] at h
  rw [last?]
  cases he : t.nodes[id]? with
  | none => simp [he] at h
  | some e =>
    simp only [he, Option.map_some, Option.bind_some] at h
    by_cases hid : parent = id
    · rw [if_pos hid, Option.some.injEq] at h
      exact Or.inl ⟨hid, h.symm⟩
    · rw [if_neg hid] at h
      exact Or.inr h

/-- A child behind all other children of a node. -/
lemma Linked.appendChild (h : Linked n t) (hchild : child < n)
    (hlast : ∀ last, t.last? parent = some last → last < child) :
    Linked n (t.appendChild parent child) := by
  refine ⟨?_, ?_, ?_, h.root⟩
  · intro id next hnext
    rw [next?, nodes_appendChild] at hnext
    cases he : t.nodes[id]? with
    | none => simp [he] at hnext
    | some e =>
      simp only [he, Option.map_some, Option.bind_some] at hnext
      by_cases hid : t.last? parent = some id
      · rw [if_pos hid, Option.some.injEq] at hnext
        rw [← hnext]
        exact ⟨hlast id hid, hchild⟩
      · rw [if_neg hid] at hnext
        exact h.next id next (by rw [next?, he]; exact hnext)
  · intro id first hfirst
    rw [first?, nodes_appendChild] at hfirst
    cases he : t.nodes[id]? with
    | none => simp [he] at hfirst
    | some e =>
      simp only [he, Option.map_some, Option.bind_some] at hfirst
      by_cases hid : t.last? parent = none ∧ parent = id
      · rw [if_pos hid, Option.some.injEq] at hfirst
        rw [← hfirst]
        exact hchild
      · rw [if_neg hid] at hfirst
        exact h.first id first (by rw [first?, he]; exact hfirst)
  · intro id last hlink
    rcases last?_appendChild hlink with ⟨-, rfl⟩ | hold
    · exact hchild
    · exact h.last id last hold

/-- A node with a greater number, and no children with smaller ones, gets a child. -/
lemma keeps_appendChild (hparent : n ≤ parent)
    (hlast : ∀ last, t.last? parent = some last → n ≤ last) :
    Keeps n t (t.appendChild parent child) := by
  intro id hid
  rw [nodes_appendChild]
  have hne : parent ≠ id := by omega
  have hne' : t.last? parent ≠ some id := by
    intro h
    have hle := hlast id h
    omega
  simp [hne, hne']

@[simp] lemma appendChildren_nil (t : SyntaxTree) (parent : Nat) :
    t.appendChildren parent [] = t := rfl

@[simp] lemma appendChildren_cons (t : SyntaxTree) (parent child : Nat) (children : List Nat) :
    t.appendChildren parent (child :: children) =
      (t.appendChild parent child).appendChildren parent children := rfl

@[simp] lemma size_appendChildren (t : SyntaxTree) (parent : Nat) (children : List Nat) :
    (t.appendChildren parent children).size = t.size := by
  induction children generalizing t with
  | nil => rfl
  | cons child children ih => rw [appendChildren_cons, ih, size_appendChild]

@[simp] lemma root_appendChildren (t : SyntaxTree) (parent : Nat) (children : List Nat) :
    (t.appendChildren parent children).root = t.root := by
  induction children generalizing t with
  | nil => rfl
  | cons child children ih => rw [appendChildren_cons, ih, root_appendChild]

/-- Children in increasing order behind all others. -/
lemma Linked.appendChildren {children : List Nat} (h : Linked n t)
    (hlt : ∀ child ∈ children, child < n) (hsorted : children.Pairwise (· < ·))
    (hlast : ∀ last, t.last? parent = some last → ∀ child ∈ children, last < child) :
    Linked n (t.appendChildren parent children) := by
  induction children generalizing t with
  | nil => exact h
  | cons child children ih =>
    rw [List.forall_mem_cons] at hlt
    rw [List.pairwise_cons] at hsorted
    rw [appendChildren_cons]
    refine ih (h.appendChild hlt.1 fun last hl => hlast last hl child List.mem_cons_self) hlt.2
      hsorted.2 ?_
    intro last hl
    rcases last?_appendChild hl with ⟨-, rfl⟩ | hold
    · exact hsorted.1
    · intro child' hmem
      exact hlast last hold child' (List.mem_cons_of_mem _ hmem)

lemma keeps_appendChildren {children : List Nat} (hparent : n ≤ parent)
    (hchildren : ∀ child ∈ children, n ≤ child)
    (hlast : ∀ last, t.last? parent = some last → n ≤ last) :
    Keeps n t (t.appendChildren parent children) := by
  induction children generalizing t with
  | nil => exact Keeps.refl n t
  | cons child children ih =>
    rw [List.forall_mem_cons] at hchildren
    rw [appendChildren_cons]
    refine (keeps_appendChild hparent hlast).trans (ih hchildren.2 ?_)
    intro last hl
    rcases last?_appendChild hl with ⟨-, rfl⟩ | hold
    · exact hchildren.1
    · exact hlast last hold

/-! ### Records -/

/-- The number of a new node, and the tree with it and its children. -/
lemma addParent_eq (t : SyntaxTree) (n : Node) (children : List Node) :
    t.addParent n children =
      (t.size, (t.extend (n :: children)).appendChildren t.size
        (List.range' (t.size + 1) children.length)) := by
  rw [addParent, add_eq]
  simp only [addAll_eq, extend_extend, size_extend, List.singleton_append]
  rfl

@[simp] lemma size_addParent (t : SyntaxTree) (n : Node) (children : List Node) :
    (t.addParent n children).2.size = t.size + children.length + 1 := by
  rw [addParent_eq]
  simp
  omega

lemma Linked.addParent (h : Linked t.size t) (n : Node) (children : List Node) :
    Linked (t.addParent n children).2.size (t.addParent n children).2 := by
  rw [size_addParent, addParent_eq]
  refine ((h.extend _).mono (by omega)).appendChildren ?_ List.pairwise_lt_range' ?_
  · intro child hchild
    rw [List.mem_range'_1] at hchild
    omega
  · intro last hlast
    rw [last?_extend_of_le _ (Nat.le_refl _)] at hlast
    cases hlast

lemma keeps_addParent (t : SyntaxTree) (n : Node) (children : List Node) :
    Keeps t.size t (t.addParent n children).2 := by
  rw [addParent_eq]
  refine (keeps_extend t _).trans (keeps_appendChildren (Nat.le_refl _) ?_ ?_)
  · intro child hchild
    rw [List.mem_range'_1] at hchild
    omega
  · intro last hlast
    rw [last?_extend_of_le _ (Nat.le_refl _)] at hlast
    cases hlast

/-- A line is the last child of the root. -/
lemma Linked.addLine (h : Linked n t) (hsize : n < t.size) :
    Linked (t.addLine n).size (t.addLine n) := by
  rw [SyntaxTree.addLine, ensureRoot]
  cases hroot : t.root with
  | some root =>
    simp only [size_appendChild]
    exact (h.mono (Nat.le_of_lt hsize)).appendChild hsize (h.last root)
  | none =>
    simp only [add_eq, size_appendChild]
    have hextend : Linked (t.size + 1) (t.extend [⟨.tree, "", .none⟩]) :=
      (h.extend _).mono (by omega)
    have hlinked : Linked (t.size + 1)
        { t.extend [⟨.tree, "", .none⟩] with root := some t.size } := by
      refine ⟨hextend.next, hextend.first, hextend.last, ?_⟩
      rintro id ⟨⟩
      exact Nat.lt_succ_self _
    have hlast := last?_extend_of_le (t := t) [⟨.tree, "", .none⟩] (Nat.le_refl _)
    refine (hlinked.appendChild (by omega) ?_).mono (by simp [size, SyntaxTree.extend])
    intro last hl
    cases hlast.symm.trans hl

/-- The label, the statement and the comment of a line have increasing numbers, and the line has a
greater one. -/
lemma Linked.plantLine (h : Linked t.size t) (l : Line) :
    Linked (t.plantLine l).size (t.plantLine l) := by
  have hlabel : Linked (t.extend l.label.toList).size (t.extend l.label.toList) :=
    (h.extend _).mono (by simp)
  have hstatement := hlabel.addParent l.statement l.operandNodes
  rw [SyntaxTree.plantLine, addAll_eq]
  simp only [addAll_eq, add_eq]
  generalize htree : ((t.extend l.label.toList).addParent l.statement l.operandNodes) = planted
    at hstatement
  obtain ⟨id, tree⟩ := planted
  obtain rfl : (t.extend l.label.toList).size = id := by
    have hid := congrArg Prod.fst htree
    rwa [addParent_eq] at hid
  have hsize : (t.extend l.label.toList).size < tree.size := by
    have htree' := congrArg (fun planted => planted.2.size) htree
    simp only [size_addParent] at htree'
    omega
  simp only [size_extend] at hstatement hsize ⊢
  have hcomment : Linked (tree.size + l.comment.toList.length)
      ((tree.extend l.comment.toList).extend [⟨.line l.place, "", l.location⟩]) :=
    ((hstatement.extend _).extend _).mono (by omega)
  refine (hcomment.appendChildren ?_ ?_ ?_).addLine (by simp)
  · intro child hchild
    simp only [List.mem_append, List.mem_cons, List.mem_range'_1] at hchild
    omega
  · rw [List.pairwise_append, List.pairwise_cons]
    refine ⟨List.pairwise_lt_range', ⟨?_, List.pairwise_lt_range'⟩, ?_⟩
    · intro child hchild
      rw [List.mem_range'_1] at hchild
      omega
    · intro child hchild child' hchild'
      simp only [List.mem_cons, List.mem_range'_1] at hchild hchild'
      omega
  · intro last hlast
    rw [last?_extend_of_le _ (by simp)] at hlast
    cases hlast

lemma Linked.plantRemnant (h : Linked t.size t) (r : Remnant) :
    Linked (t.plantRemnant r).size (t.plantRemnant r) := by
  rw [SyntaxTree.plantRemnant, addAll_eq]
  have hlabel : Linked (t.extend r.label.toList).size (t.extend r.label.toList) :=
    (h.extend _).mono (by simp)
  cases r.statement with
  | none => exact hlabel
  | some n => exact hlabel.addParent n r.operands

/-- The links of any tree that is made from records. -/
lemma linked_ofRecords (records : List Record) :
    Linked (ofRecords records).size (ofRecords records) := by
  induction records using List.reverseRecOn with
  | nil =>
    constructor
    · simp [ofRecords, next?]
    · simp [ofRecords, first?]
    · simp [ofRecords, last?]
    · simp [ofRecords]
  | append_singleton records r ih =>
    rw [ofRecords, List.foldl_append]
    cases r with
    | line l => exact ih.plantLine l
    | remnant r => exact ih.plantRemnant r

/-- What is left of a rejected line is added without a way to it. -/
lemma keeps_plantRemnant (t : SyntaxTree) (r : Remnant) :
    (t.plantRemnant r).root = t.root ∧ t.size ≤ (t.plantRemnant r).size ∧
      Keeps t.size t (t.plantRemnant r) := by
  rw [plantRemnant, addAll_eq]
  have hlabel := keeps_extend t r.label.toList
  cases r.statement with
  | none => exact ⟨rfl, by simp, hlabel⟩
  | some n =>
    refine ⟨by simp [addParent_eq], by simp; omega, hlabel.trans ?_⟩
    intro id hid
    exact keeps_addParent (t.extend r.label.toList) n r.operands id
      (by rw [size_extend]; omega)

/-! ### What can be seen -/

lemma siblings_none (t : SyntaxTree) (fuel : Nat) : t.siblings fuel none = [] := by
  cases fuel <;> rfl

/-- A chain of siblings ends below the size of the tree, so more nodes do not make it longer. -/
lemma siblings_of_keeps (h : Linked t.size t) (hkeeps : Keeps t.size t t') {fuel fuel' : Nat}
    (hid : id < t.size) (hfuel : t.size ≤ id + fuel) (hfuel' : t.size ≤ id + fuel') :
    t'.siblings fuel' (some id) = t.siblings fuel (some id) := by
  induction fuel generalizing id fuel' with
  | zero => omega
  | succ fuel ih =>
    obtain ⟨fuel', rfl⟩ : ∃ k, fuel' = k + 1 := ⟨fuel' - 1, by omega⟩
    rw [siblings, siblings, hkeeps id hid, ← next?]
    cases hnext : t.next? id with
    | none => rw [siblings_none, siblings_none]
    | some next =>
      obtain ⟨hlt, hsize⟩ := h.next id next hnext
      rw [ih hsize (by omega) (by omega)]

lemma children_of_keeps (h : Linked t.size t) (hkeeps : Keeps t.size t t')
    (hsize : t.size ≤ t'.size) (hid : id < t.size) : t'.children id = t.children id := by
  rw [children, children, hkeeps id hid, ← first?]
  cases hfirst : t.first? id with
  | none => rw [siblings_none, siblings_none]
  | some child =>
    exact siblings_of_keeps h hkeeps (h.first id child hfirst) (Nat.le_add_left _ _)
      (Nat.le_trans hsize (Nat.le_add_left _ _))

/-- From the root of another tree the same lines are seen, and every node has the same contents and
the same children. -/
structure Shows (t t' : SyntaxTree) : Prop where
  root : t'.root = t.root
  lines : t'.lines = t.lines
  node : ∀ id < t.size, t'.node? id = t.node? id
  children : ∀ id < t.size, t'.children id = t.children id

/-- What is left of a rejected line cannot be seen. -/
lemma shows_plantRemnant (h : Linked t.size t) (r : Remnant) : Shows t (t.plantRemnant r) := by
  obtain ⟨hroot, hsize, hkeeps⟩ := keeps_plantRemnant t r
  have hchildren : ∀ id < t.size, (t.plantRemnant r).children id = t.children id :=
    fun id hid => children_of_keeps h hkeeps hsize hid
  refine ⟨hroot, ?_, ?_, hchildren⟩
  · rw [lines, lines, hroot]
    cases hid : t.root with
    | none => rfl
    | some root => exact hchildren root (h.root root hid)
  · intro id hid
    rw [node?, node?, hkeeps id hid]

end SyntaxTree

end MicroAsm
