import MicroAsm.Proofs.Tree.Families

/-!
# Histories of syntax trees

A child is appended behind the tail of its parent, and the siblings in front of it are not visited.
Still, as long as no node is given a parent twice, the children of a node are those that operations
gave it, in the order of these, whatever else was done in between. The lines of a tree are the
children of its root: the lines that were added, and any other node that was given the root for its
parent.
-/

namespace MicroAsm

namespace SyntaxTree

/-! ### Operations -/

/-- What is done with a tree. -/
inductive Operation where
  | add (n : Node)
  | appendChild (parent child : Nat)
  | addLine (line : Nat)
  /-- Changes what a node holds, such as its kind or its text. -/
  | modify (id : Nat) (f : Node → Node)

namespace Operation

/-- The nodes that the operation is about. -/
def names : Operation → List Nat
  | add _ => []
  | appendChild parent child => [parent, child]
  | addLine line => [line]
  | modify id _ => [id]

/-- The node that the operation gives a parent. -/
def child? : Operation → Option Nat
  | appendChild _ child => some child
  | addLine line => some line
  | _ => none

/-- The line that the operation adds. -/
def line? : Operation → Option Nat
  | addLine line => some line
  | _ => none

/-- The child that the operation gives to a node, where lines are children of the root. -/
def given (root : Option Nat) (p : Nat) : Operation → List Nat
  | appendChild parent child => if parent = p then [child] else []
  | addLine line => if root = some p then [line] else []
  | _ => []

/-- What the operation puts below the root: the line that it adds, or the node that it appends to
the root by its number. -/
def top (root : Option Nat) : Operation → List Nat
  | addLine line => [line]
  | appendChild parent child => if root = some parent then [child] else []
  | _ => []

end Operation

/-- The tree after an operation. -/
def apply (t : SyntaxTree) : Operation → SyntaxTree
  | .add n => (t.add n).2
  | .appendChild parent child => t.appendChild parent child
  | .addLine line => t.addLine line
  | .modify id f => t.modify id f

/-- The tree after operations. -/
def run (t : SyntaxTree) (operations : List Operation) : SyntaxTree :=
  operations.foldl apply t

/-- A new tree after operations. -/
def after (operations : List Operation) : SyntaxTree :=
  run {} operations

/-- Every operation is about nodes of the tree. -/
def OnNodes (t : SyntaxTree) : List Operation → Prop
  | [] => True
  | o :: operations => (∀ id ∈ o.names, id < (t.apply o).size) ∧ (t.apply o).OnNodes operations

instance decidableOnNodes (t : SyntaxTree) :
    (operations : List Operation) → Decidable (t.OnNodes operations)
  | [] => .isTrue trivial
  | o :: operations =>
    have := decidableOnNodes (t.apply o) operations
    inferInstanceAs (Decidable ((∀ id ∈ o.names, id < (t.apply o).size) ∧ _))

/-- The children that operations give to a node, one after the other. -/
def given (root : Option Nat) (operations : List Operation) (p : Nat) : List Nat :=
  operations.flatMap (·.given root p)

/-- Whoever goes on from a node to its next sibling, and so on, comes to an end, and these are the
nodes of the tree that are met. -/
inductive Chain (t : SyntaxTree) : Option Nat → List Nat → Prop
  | nil : Chain t none []
  | cons {id : Nat} {rest : List Nat} (hid : id < t.size) (hrest : Chain t (t.next? id) rest) :
      Chain t (some id) (id :: rest)

variable {t : SyntaxTree} {kids : Nat → List Nat} {o : Operation} {operations : List Operation}

lemma run_cons (t : SyntaxTree) (o : Operation) (operations : List Operation) :
    t.run (o :: operations) = (t.apply o).run operations := rfl

/-! ### The root -/

lemma root_ensureRoot (t : SyntaxTree) : t.ensureRoot.2.root = some t.ensureRoot.1 := by
  rw [ensureRoot]
  cases hroot : t.root with
  | none => rfl
  | some root => exact hroot

lemma ensureRoot_lt (h : ∀ root, t.root = some root → root < t.size) :
    t.ensureRoot.1 < t.ensureRoot.2.size := by
  rw [ensureRoot]
  cases hroot : t.root with
  | none => simp [add, size]
  | some root => exact h root hroot

lemma root_apply_addLine (t : SyntaxTree) (line : Nat) :
    (t.apply (.addLine line)).root = some t.ensureRoot.1 :=
  t.root_ensureRoot

lemma size_modify (t : SyntaxTree) (id : Nat) (f : Node → Node) : (t.modify id f).size = t.size :=
  Array.size_modify

/-- The root of a tree stays the same. -/
lemma root_apply {root : Nat} (h : t.root = some root) (o : Operation) :
    (t.apply o).root = some root := by
  cases o with
  | add n => exact h
  | appendChild parent child => exact h
  | addLine line => rw [root_apply_addLine, ensureRoot, h]
  | modify id f => exact h

lemma root_run {root : Nat} (h : t.root = some root) (operations : List Operation) :
    (t.run operations).root = some root := by
  induction operations generalizing t with
  | nil => exact h
  | cons o operations ih => exact ih (root_apply h o)

/-- A tree has a root once a line was added. -/
lemma root_run_of_addLine {line : Nat} (h : .addLine line ∈ operations) :
    ∃ root, (t.run operations).root = some root := by
  induction operations generalizing t with
  | nil => cases h
  | cons o operations ih =>
    rcases List.mem_cons.mp h with rfl | h
    · exact ⟨_, root_run (t.root_apply_addLine line) operations⟩
    · exact ih h

/-- The root is a node of the tree. -/
lemma root_apply_lt (h : ∀ root, t.root = some root → root < t.size) (o : Operation) :
    ∀ root, (t.apply o).root = some root → root < (t.apply o).size := by
  intro root hroot
  cases o with
  | add n =>
    have hlt := h root hroot
    simp only [apply, add_eq, size_extend]
    omega
  | appendChild parent child =>
    rw [apply, size_appendChild]
    exact h root hroot
  | addLine line =>
    rw [root_apply_addLine, Option.some.injEq] at hroot
    rw [apply, addLine, size_appendChild, ← hroot]
    exact ensureRoot_lt h
  | modify id f =>
    rw [apply, size_modify]
    exact h root hroot

/-! ### One operation -/

/-- A change of what a node holds leaves all links as they are. -/
lemma bind_nodes_modify {link : TreeNode → Option Nat}
    (hlink : ∀ e n, link { e with node := n } = link e) (t : SyntaxTree) (id : Nat)
    (f : Node → Node) (id' : Nat) :
    (t.modify id f).nodes[id']?.bind link = t.nodes[id']?.bind link := by
  simp only [modify, Array.getElem?_modify]
  split
  · cases t.nodes[id']? with
    | none => rfl
    | some e => exact hlink e _
  · rfl

namespace Families

lemma modify (h : Families t kids) (id : Nat) (f : Node → Node) :
    Families (t.modify id f) kids where
  first p := by rw [first?, bind_nodes_modify fun _ _ => rfl]; exact h.first p
  last p := by rw [last?, bind_nodes_modify fun _ _ => rfl]; exact h.last p
  next heq := by rw [next?, bind_nodes_modify fun _ _ => rfl]; exact h.next heq
  next_of_orphan c hc := by
    rw [next?, bind_nodes_modify fun _ _ => rfl]
    exact h.next_of_orphan c hc
  nodup := h.nodup
  parent := h.parent
  lt hc := by rw [size_modify]; exact h.lt hc

lemma ensureRoot (h : Families t kids) : Families t.ensureRoot.2 kids := by
  rw [SyntaxTree.ensureRoot]
  cases t.root with
  | none =>
    simp only [add_eq]
    exact (h.extend _).withRoot _
  | some root => exact h

/-- A node without a parent gets one, and all other nodes keep their children. -/
lemma adopt (h : Families t kids) {parent child : Nat} (hparent : parent < t.size)
    (hchild : child < t.size) (horphan : ∀ p, child ∉ kids p) :
    Families (t.appendChild parent child)
      fun p => kids p ++ if parent = p then [child] else [] := by
  have hupdate : Function.update kids parent (kids parent ++ [child]) =
      fun p => kids p ++ if parent = p then [child] else [] := by
    funext p
    by_cases hp : parent = p
    · rw [if_pos hp, ← hp, Function.update_self]
    · rw [if_neg hp, Function.update_of_ne (Ne.symm hp), List.append_nil]
  rw [← hupdate]
  exact h.appendChild hparent hchild horphan

/-- An operation gives its child to one node, and all other nodes keep their children. -/
lemma apply (h : Families t kids) (hroot : ∀ root, t.root = some root → root < t.size)
    (hnodes : ∀ id ∈ o.names, id < (t.apply o).size)
    (horphan : ∀ child, o.child? = some child → ∀ p, child ∉ kids p) :
    Families (t.apply o) fun p => kids p ++ o.given (t.apply o).root p := by
  cases o with
  | add n =>
    simp only [SyntaxTree.apply, add_eq, Operation.given, List.append_nil]
    exact h.extend [n]
  | appendChild parent child =>
    simp only [SyntaxTree.apply, Operation.names, size_appendChild, List.forall_mem_cons]
      at hnodes
    exact h.adopt hnodes.1 hnodes.2.1 (horphan child rfl)
  | addLine line =>
    simp only [SyntaxTree.apply, addLine, Operation.names, size_appendChild, List.forall_mem_cons]
      at hnodes
    simp only [root_apply_addLine, Operation.given, Option.some.injEq]
    exact h.ensureRoot.adopt (ensureRoot_lt hroot) hnodes.1 (horphan line rfl)
  | modify id f =>
    simp only [SyntaxTree.apply, Operation.given, List.append_nil]
    exact h.modify id f

end Families

/-! ### Histories -/

/-- Where an operation puts its child does not depend on what is done later. -/
lemma given_run (t : SyntaxTree) (o : Operation) (operations : List Operation) (p : Nat) :
    o.given ((t.apply o).run operations).root p = o.given (t.apply o).root p := by
  cases o with
  | addLine line => rw [root_run (t.root_apply_addLine line), root_apply_addLine]
  | _ => rfl

lemma Operation.child?_of_mem_given {root : Option Nat} {p child : Nat}
    (h : child ∈ o.given root p) : o.child? = some child := by
  cases o with
  | add n => cases h
  | appendChild parent child =>
    rw [given] at h
    split at h
    · rw [List.mem_singleton.mp h, child?]
    · cases h
  | addLine line =>
    rw [given] at h
    split at h
    · rw [List.mem_singleton.mp h, child?]
    · cases h
  | modify id f => cases h

/-- Behind its earlier children, a node has those that operations gave it. -/
lemma Families.run (h : Families t kids) (hroot : ∀ root, t.root = some root → root < t.size)
    (hnodes : t.OnNodes operations) (honce : (operations.filterMap Operation.child?).Nodup)
    (horphan : ∀ child ∈ operations.filterMap Operation.child?, ∀ p, child ∉ kids p) :
    Families (t.run operations) fun p =>
      kids p ++ given (t.run operations).root operations p := by
  induction operations generalizing t kids with
  | nil =>
    simp only [given, List.flatMap_nil, List.append_nil]
    exact h
  | cons o operations ih =>
    obtain ⟨hfirst, hrest⟩ := hnodes
    have hcons : (o :: operations).filterMap Operation.child? =
        o.child?.toList ++ operations.filterMap Operation.child? := by
      cases hchild : o.child? <;> simp [hchild]
    rw [hcons, List.nodup_append] at honce
    rw [hcons, List.forall_mem_append] at horphan
    have happly := h.apply hroot hfirst fun child hchild =>
      horphan.1 child (Option.mem_toList.mpr hchild)
    -- A node that gets a parent later has none yet, as it does not get two.
    have horphan' : ∀ child ∈ operations.filterMap Operation.child?,
        ∀ p, child ∉ kids p ++ o.given (t.apply o).root p := by
      intro child hmem p
      rw [List.mem_append, not_or]
      refine ⟨horphan.2 child hmem p, fun hnew => ?_⟩
      have hchild := Operation.child?_of_mem_given hnew
      exact honce.2.2 child (Option.mem_toList.mpr hchild) child hmem rfl
    have hrun := ih happly (root_apply_lt hroot o) hrest honce.2.1 horphan'
    simp only [run_cons, given, List.flatMap_cons, given_run, ← List.append_assoc]
    exact hrun

/-- Going from sibling to sibling comes to an end. -/
lemma Families.chain (h : Families t kids) (p : Nat) : Chain t (t.first? p) (kids p) := by
  have hback : ∀ back front, kids p = front ++ back → Chain t back.head? back := by
    intro back
    induction back with
    | nil => exact fun _ _ => .nil
    | cons c back ih =>
      intro front heq
      refine .cons (h.lt (p := p) (by simp [heq])) ?_
      rw [h.next heq]
      exact ih (front ++ [c]) (by rw [heq, List.append_assoc]; rfl)
  rw [h.first]
  exact hback (kids p) [] rfl

/-- Going from line to line comes to an end. -/
lemma Families.chain_lines (h : Families t kids) : Chain t (t.root.bind t.first?) t.lines := by
  rw [lines]
  cases t.root with
  | none => exact .nil
  | some root =>
    have hchain := h.chain root
    rwa [← h.children_eq] at hchain

/-- The families of a new tree after operations. -/
lemma families_after (hnodes : OnNodes {} operations)
    (honce : (operations.filterMap Operation.child?).Nodup) :
    Families (after operations) (given (after operations).root operations) := by
  have h := Families.empty.run (by simp) hnodes honce (by simp)
  simp only [List.nil_append] at h
  exact h

/-- The lines are the children of the root, and without a root nothing was put there. -/
lemma lines_run (h : Families (t.run operations) (given (t.run operations).root operations)) :
    (t.run operations).lines = operations.flatMap (Operation.top (t.run operations).root) := by
  rw [lines]
  cases hroot : (t.run operations).root with
  | none =>
    refine (List.flatMap_eq_nil_iff.mpr fun o ho => ?_).symm
    cases o with
    | addLine line =>
      obtain ⟨root, hsome⟩ := root_run_of_addLine (t := t) ho
      rw [hroot] at hsome
      cases hsome
    | _ => rfl
  | some root =>
    rw [hroot] at h
    refine (h.children_eq root).trans (List.flatMap_congr fun o _ => ?_)
    cases o with
    | appendChild parent child => simp [Operation.given, Operation.top, eq_comm]
    | addLine line => simp [Operation.given, Operation.top]
    | _ => rfl

/-- What a new tree has come to after operations on its nodes that give no node a parent twice.
Going through the children of any node comes to an end and meets those that were appended to the
node, in order. Going through the lines comes to an end, too, and meets the lines that were added
and the nodes that were appended to the root by its number, in order; so if none was, these are the
added lines alone. -/
theorem children_eq_given_and_lines_eq (hnodes : OnNodes {} operations)
    (honce : (operations.filterMap Operation.child?).Nodup) :
    (∀ p, (after operations).children p = given (after operations).root operations p ∧
      Chain (after operations) ((after operations).first? p) ((after operations).children p)) ∧
    (after operations).lines = operations.flatMap (Operation.top (after operations).root) ∧
    Chain (after operations) ((after operations).root.bind (after operations).first?)
      (after operations).lines ∧
    ((∀ parent child, .appendChild parent child ∈ operations →
        (after operations).root ≠ some parent) →
      (after operations).lines = operations.filterMap Operation.line?) := by
  have h := families_after hnodes honce
  have hlines : (after operations).lines = operations.flatMap
      (Operation.top (after operations).root) := lines_run h
  refine ⟨fun p => ⟨h.children_eq p, ?_⟩, hlines, h.chain_lines, fun hparent => ?_⟩
  · rw [h.children_eq]
    exact h.chain p
  · rw [hlines, List.filterMap_eq_flatMap_toList]
    refine List.flatMap_congr fun o ho => ?_
    cases o with
    | appendChild parent child => exact if_neg (hparent parent child ho)
    | _ => rfl

/-- Two lines and their statements grow in turns, and a text changes in between. -/
theorem lines_eq_of_interleaved_children :
    let operations : List Operation :=
      [.add ⟨.line {}, "", .start⟩, .add ⟨.opcode, "MOV", .start⟩, .appendChild 0 1, .addLine 0,
        .add ⟨.line {}, "", .start⟩, .add ⟨.register8 (some 7), "A", .start⟩,
        .add ⟨.comment, "", .start⟩, .appendChild 1 4, .addLine 3, .appendChild 0 5,
        .modify 5 fun n => { n with text := " copy" }, .add ⟨.register8 (some 0), "B", .start⟩,
        .add ⟨.empty, "", .start⟩, .appendChild 3 7, .appendChild 1 6]
    let t := after operations
    OnNodes {} operations ∧ (operations.filterMap Operation.child?).Nodup ∧
      t.children 0 = [1, 5] ∧ t.children 1 = [4, 6] ∧ t.children 3 = [7] ∧
      (∀ parent child, .appendChild parent child ∈ operations → t.root ≠ some parent) ∧
      t.lines = [0, 3] := by
  intro operations t
  have hnodes : OnNodes {} operations := by decide
  have honce : (operations.filterMap Operation.child?).Nodup := by decide
  have hroot : t.root = some 2 := by decide
  obtain ⟨hchildren, -, -, hlines⟩ := children_eq_given_and_lines_eq hnodes honce
  have hparent : ∀ parent child, .appendChild parent child ∈ operations →
      t.root ≠ some parent := by
    intro parent child hmem
    rw [hroot]
    rintro ⟨⟩
    simp [operations] at hmem
  refine ⟨hnodes, honce, ?_, ?_, ?_, hparent, hlines hparent⟩
  · rw [(hchildren 0).1, hroot]
    rfl
  · rw [(hchildren 1).1, hroot]
    rfl
  · rw [(hchildren 3).1, hroot]
    rfl

/-- A node that is appended to the root by its number is met among the lines without being added as
one. -/
theorem lines_ne_added_of_child_of_root :
    let operations : List Operation :=
      [.add ⟨.line {}, "", .start⟩, .addLine 0, .add ⟨.line {}, "", .start⟩, .appendChild 1 2]
    OnNodes {} operations ∧ (operations.filterMap Operation.child?).Nodup ∧
      (after operations).lines = [0, 2] ∧
      (after operations).lines ≠ operations.filterMap Operation.line? := by
  decide

end SyntaxTree

end MicroAsm
