import Mathlib.Data.List.Basic
import MicroAsm.Proofs.Tree.Families

/-!
# Planting lines

A tree that is made from records grows at its end: what a line adds is new, apart from the link by
which the line becomes the last child of the root. So the lines that were planted stay as they
are, and nodes that nobody took in when they were new are never taken in later.
-/

namespace MicroAsm

/-- The kind is that of the node of a line. -/
def NodeKind.isLine : NodeKind → Bool
  | line _ => true
  | _ => false

/-- The nodes below the one of a line, in the order in which they are added. -/
def Line.parts (l : Line) : List Node :=
  l.label.toList ++ l.statement :: l.operandNodes ++ l.comment.toList

/-- The nodes that are left of a rejected line, in the order in which they are added. -/
def Remnant.parts (r : Remnant) : List Node :=
  r.label.toList ++
    match r.statement with
    | none => []
    | some n => n :: r.operands

/-- The node of a line. -/
def Line.node (l : Line) : Node :=
  ⟨.line l.place, "", l.location⟩

/-- What is kept of a line, apart from the node of the line itself. -/
def Record.parts : Record → List Node
  | line l => l.parts
  | remnant r => r.parts

namespace SyntaxTree

/-- All nodes, in the order in which they were added. -/
def contents (t : SyntaxTree) : List Node :=
  t.nodes.toList.map TreeNode.node

variable {t t' t'' : SyntaxTree} {kids : Nat → List Nat} {id parent child : Nat}

/-! ### Contents -/

lemma length_contents (t : SyntaxTree) : t.contents.length = t.size := by
  simp [contents, size]

lemma node?_eq (t : SyntaxTree) (id : Nat) : t.node? id = t.contents[id]? := by
  simp [contents, node?]

@[simp] lemma contents_extend (t : SyntaxTree) (ns : List Node) :
    (t.extend ns).contents = t.contents ++ ns := by
  simp [contents, extend, Function.comp_def]

@[simp] lemma contents_appendChildren (t : SyntaxTree) (parent : Nat) (children : List Nat) :
    (t.appendChildren parent children).contents = t.contents := by
  refine List.ext_getElem? fun id => ?_
  rw [← node?_eq, ← node?_eq, node?_appendChildren]

@[simp] lemma contents_addParent (t : SyntaxTree) (n : Node) (children : List Node) :
    (t.addParent n children).2.contents = t.contents ++ n :: children := by
  rw [addParent_eq, contents_appendChildren, contents_extend]

/-- Nodes that were added one after the other are found there again. -/
lemma map_node?_range' (front back : List Node) {ns : List Node} {start : Nat}
    (h : t.contents = front ++ ns ++ back) (hstart : front.length = start) :
    (List.range' start ns.length).map t.node? = ns.map some := by
  refine List.ext_getElem? fun i => ?_
  rw [List.getElem?_map, List.getElem?_map]
  by_cases hi : i < ns.length
  · rw [List.getElem?_range' hi, List.getElem?_eq_getElem hi, Option.map_some, Option.map_some,
      Nat.one_mul, node?_eq, h, List.append_assoc, List.getElem?_append_right (by omega),
      List.getElem?_append_left (by omega), ← hstart, Nat.add_sub_cancel_left,
      List.getElem?_eq_getElem hi]
  · rw [List.getElem?_eq_none (by simp; omega), List.getElem?_eq_none (by omega), Option.map_none,
      Option.map_none]

/-! ### Growing at the end -/

lemma Families.children (h : Families t kids) : Families t t.children := by
  rwa [funext h.children_eq]

lemma Families.children_extend (h : Families t t.children) (ns : List Node) :
    (t.extend ns).children = t.children :=
  funext (h.extend ns).children_eq

/-- The nodes of a tree are those of another one, apart from the children of the root. -/
structure Extends (t t' : SyntaxTree) : Prop where
  contents : t.contents <+: t'.contents
  children : ∀ p < t.size, t.root ≠ some p → t'.children p = t.children p

lemma Extends.node?_eq (h : Extends t t') (hid : id < t.size) : t'.node? id = t.node? id := by
  obtain ⟨ns, hns⟩ := h.contents
  rw [SyntaxTree.node?_eq, SyntaxTree.node?_eq, ← hns,
    List.getElem?_append_left (by rwa [length_contents])]

/-- A tree after more nodes were added to it. Only new nodes became children, and only of the root
or of new nodes. -/
structure Grows (t t' : SyntaxTree) : Prop extends Extends t t' where
  families : Families t' t'.children
  mem : ∀ p, ∀ c < t.size, c ∈ t'.children p → c ∈ t.children p
  root : ∀ p, t.root = some p → t'.root = some p
  newRoot : ∀ p, t'.root = some p → t.root = some p ∨ t.size ≤ p

namespace Grows

lemma refl (h : Families t t.children) : Grows t t :=
  ⟨⟨List.prefix_rfl, fun _ _ _ => rfl⟩, h, fun _ _ _ hc => hc, fun _ hp => hp,
    fun _ hp => .inl hp⟩

lemma size_le (h : Grows t t') : t.size ≤ t'.size := by
  rw [← length_contents, ← length_contents]
  exact h.contents.length_le

lemma trans (h : Grows t t') (h' : Grows t' t'') : Grows t t'' where
  families := h'.families
  contents := h.contents.trans h'.contents
  children p hp hroot := by
    have hroot' : t'.root ≠ some p := by
      intro heq
      rcases h.newRoot p heq with hold | hle
      · exact hroot hold
      · omega
    rw [h'.children p (Nat.lt_of_lt_of_le hp h.size_le) hroot', h.children p hp hroot]
  mem p c hc hmem := h.mem p c hc (h'.mem p c (Nat.lt_of_lt_of_le hc h.size_le) hmem)
  root p hp := h'.root p (h.root p hp)
  newRoot p hp := by
    rcases h'.newRoot p hp with hold | hle
    · exact h.newRoot p hold
    · exact Or.inr (Nat.le_trans h.size_le hle)

lemma extend (h : Grows t t') (ns : List Node) : Grows t (t'.extend ns) := by
  have hchildren := h.families.children_extend ns
  refine ⟨⟨?_, ?_⟩, (h.families.extend ns).children, ?_, h.root, h.newRoot⟩
  · rw [contents_extend]
    exact h.contents.trans (List.prefix_append _ _)
  · rw [hchildren]
    exact h.children
  · rw [hchildren]
    exact h.mem

/-- New nodes that nobody has taken in become children of the root or of a new node. -/
lemma appendChildren (h : Grows t t') (parent : Nat) (children : List Nat)
    (hparent : parent < t'.size)
    (hnew : t.root = some parent ∨ t.size ≤ parent)
    (hchildren : ∀ c ∈ children, t.size ≤ c ∧ c < t'.size) (hnodup : children.Nodup)
    (horphan : ∀ c ∈ children, ∀ p, c ∉ t'.children p) :
    Grows t (t'.appendChildren parent children) ∧
      (t'.appendChildren parent children).children =
        Function.update t'.children parent (t'.children parent ++ children) := by
  have hfamilies := h.families.appendChildren hparent (fun c hc => (hchildren c hc).2) hnodup
    horphan
  have heq := funext hfamilies.children_eq
  refine ⟨⟨⟨?_, ?_⟩, hfamilies.children, ?_, ?_, ?_⟩, heq⟩
  · rw [contents_appendChildren]
    exact h.contents
  · intro p hp hroot
    have hne : p ≠ parent := by
      rintro rfl
      rcases hnew with hold | hle
      · exact hroot hold
      · omega
    rw [heq, Function.update_of_ne hne, h.children p hp hroot]
  · intro p c hc hmem
    rw [heq] at hmem
    by_cases hp : p = parent
    · rw [hp, Function.update_self, List.mem_append] at hmem
      rcases hmem with hold | hmem
      · exact h.mem p c hc (hp ▸ hold)
      · exact absurd hc (Nat.not_lt_of_le (hchildren c hmem).1)
    · rw [Function.update_of_ne hp] at hmem
      exact h.mem p c hc hmem
  · rw [root_appendChildren]
    exact h.root
  · rw [root_appendChildren]
    exact h.newRoot

/-- A new node with new children. -/
lemma addParent (h : Grows t t') (n : Node) (children : List Node) :
    Grows t (t'.addParent n children).2 ∧
      (t'.addParent n children).2.children =
        Function.update t'.children t'.size (List.range' (t'.size + 1) children.length) := by
  have hextend := h.extend (n :: children)
  have hchildren := h.families.children_extend (n :: children)
  have hsize := h.size_le
  obtain ⟨hgrows, heq⟩ := hextend.appendChildren t'.size
    (List.range' (t'.size + 1) children.length) (by simp) (Or.inr hsize)
    (by simp only [List.mem_range'_1, size_extend, List.length_cons]; omega)
    List.nodup_range' (by
      intro c hc p hmem
      rw [hchildren] at hmem
      rw [List.mem_range'_1] at hc
      have hlt := h.families.lt hmem
      omega)
  rw [addParent_eq]
  refine ⟨hgrows, ?_⟩
  rw [heq, hchildren, h.families.eq_nil_of_le (Nat.le_refl _), List.nil_append]

/-- A new node takes in new nodes. -/
lemma adopt (h : Grows t t') (n : Node) (children : List Nat)
    (hchildren : ∀ c ∈ children, t.size ≤ c ∧ c < t'.size) (hnodup : children.Nodup)
    (horphan : ∀ c ∈ children, ∀ p, c ∉ t'.children p) :
    Grows t ((t'.extend [n]).appendChildren t'.size children) ∧
      ((t'.extend [n]).appendChildren t'.size children).children =
        Function.update t'.children t'.size children := by
  have hextend := h.families.children_extend [n]
  obtain ⟨hgrows, heq⟩ := (h.extend [n]).appendChildren t'.size children (by simp)
    (Or.inr h.size_le)
    (fun c hc => ⟨(hchildren c hc).1, Nat.lt_of_lt_of_le (hchildren c hc).2 (by simp)⟩) hnodup
    (by rwa [hextend])
  refine ⟨hgrows, ?_⟩
  rw [heq, hextend, h.families.eq_nil_of_le (Nat.le_refl _), List.nil_append]

end Grows

/-! ### Lines of a tree -/

/-- Nobody's child is the root. -/
structure Rooted (t : SyntaxTree) : Prop where
  families : Families t t.children
  top : ∀ root, t.root = some root → IsTop t t.children root

namespace Rooted

/-- What is a child has a number of the tree and is not the root. -/
lemma lt_of_mem (h : Rooted t) (hchild : child ∈ t.children parent) :
    child < t.size ∧ t.root ≠ some child :=
  ⟨h.families.lt hchild, fun hroot => (h.top child hroot).orphan parent hchild⟩

lemma grows (h : Rooted t) (hgrows : Grows t t') (hroot : t'.root = t.root) : Rooted t' := by
  refine ⟨hgrows.families, ?_⟩
  intro root heq
  have htop := h.top root (hroot ▸ heq)
  refine ⟨heq, Nat.lt_of_lt_of_le htop.lt hgrows.size_le, ?_⟩
  intro p hp
  exact htop.orphan p (hgrows.mem p root htop.lt hp)

end Rooted

/-- A node with its children is the one of a line: they are its label, if it has one, its statement
with its operands, and its comment, if it has one. -/
def Presents (t : SyntaxTree) (id : Nat) (l : Line) : Prop :=
  t.node? id = some l.node ∧
    ∃ (label : Option Nat) (statement : Nat) (comment : Option Nat),
      t.children id = label.toList ++ statement :: comment.toList ∧
      label.map t.node? = l.label.map some ∧
      t.node? statement = some l.statement ∧
      comment.map t.node? = l.comment.map some ∧
      (t.children statement).map t.node? = l.operandNodes.map some

/-- Lines stay as they are while the tree grows. -/
lemma Presents.extends {l : Line} (h : t.Presents id l) (ht : Rooted t)
    (hid : id < t.size ∧ t.root ≠ some id) (hgrows : Extends t t') : t'.Presents id l := by
  obtain ⟨hnode, label, statement, comment, hchildren, hlabel, hstatement, hcomment,
    hoperands⟩ := h
  have hsame : ∀ c ∈ t.children id, t'.node? c = t.node? c :=
    fun c hc => hgrows.node?_eq (ht.lt_of_mem hc).1
  have hmem : statement ∈ t.children id := by simp [hchildren]
  have hstays : t'.children statement = t.children statement :=
    hgrows.children statement (ht.lt_of_mem hmem).1 (ht.lt_of_mem hmem).2
  refine ⟨(hgrows.node?_eq hid.1).trans hnode, label, statement, comment, ?_, ?_, ?_, ?_, ?_⟩
  · rw [hgrows.children id hid.1 hid.2, hchildren]
  · rw [← hlabel]
    exact Option.map_congr fun c hc => hsame c (by simp [hchildren, hc])
  · rw [hsame statement hmem, hstatement]
  · rw [← hcomment]
    exact Option.map_congr fun c hc => hsame c (by simp [hchildren, hc])
  · rw [hstays, ← hoperands]
    exact List.map_congr_left fun c hc => hgrows.node?_eq (ht.lt_of_mem hc).1

lemma map_node?_option (front back : List Node) {start : Nat} {n? : Option Node}
    (h : t.contents = front ++ n?.toList ++ back) (hstart : front.length = start) :
    (n?.map fun _ => start).map t.node? = n?.map some := by
  have hlist := map_node?_range' front back h hstart
  cases n? with
  | none => rfl
  | some n => simpa using hlist

/-- Adds the nodes below the one of a line, and gives the numbers of its children. -/
def addParts (t : SyntaxTree) (l : Line) : List Nat × SyntaxTree :=
  let (label, t) := t.addAll l.label.toList
  let (statement, t) := t.addParent l.statement l.operandNodes
  let (comment, t) := t.addAll l.comment.toList
  (label ++ statement :: comment, t)

/-- The children that a new line gets. -/
def partNumbers (t : SyntaxTree) (l : Line) : List Nat :=
  (l.label.map fun _ => t.size).toList ++ (t.size + l.label.toList.length) ::
    (l.comment.map fun _ =>
      t.size + l.label.toList.length + l.operandNodes.length + 1).toList

lemma range'_length_toList (n? : Option Node) (start : Nat) :
    List.range' start n?.toList.length = (n?.map fun _ => start).toList := by
  cases n? <;> rfl

lemma addParts_eq (t : SyntaxTree) (l : Line) :
    t.addParts l = (t.partNumbers l,
      ((t.extend l.label.toList).addParent l.statement l.operandNodes).2.extend
        l.comment.toList) := by
  simp only [addParts, addAll_eq, partNumbers, ← range'_length_toList, size_addParent, size_extend]
  rw [addParent_eq, size_extend]

lemma mem_partNumbers {l : Line} (hid : id ∈ t.partNumbers l) :
    t.size ≤ id ∧ id < t.size + l.parts.length ∧
      (id < t.size + l.label.toList.length + 1 ∨
        t.size + l.label.toList.length + 1 + l.operandNodes.length ≤ id) := by
  simp only [partNumbers, ← range'_length_toList, List.mem_append, List.mem_cons,
    List.mem_range'_1] at hid
  simp only [Line.parts, List.length_append, List.length_cons]
  omega

lemma nodup_partNumbers (t : SyntaxTree) (l : Line) : (t.partNumbers l).Nodup := by
  rw [partNumbers, ← range'_length_toList, ← range'_length_toList, List.nodup_append,
    List.nodup_cons]
  refine ⟨List.nodup_range', ⟨?_, List.nodup_range'⟩, ?_⟩
  · rw [List.mem_range'_1]
    omega
  · intro c hc c' hc'
    simp only [List.mem_cons, List.mem_range'_1] at hc hc'
    omega

/-- Only the statement has children among the nodes below the one of a line. -/
lemma grows_addParts (h : Families t t.children) (l : Line) :
    Grows t (t.addParts l).2 ∧ (t.addParts l).2.root = t.root ∧
      (t.addParts l).2.contents = t.contents ++ l.parts ∧
      (t.addParts l).2.children = Function.update t.children (t.size + l.label.toList.length)
        (List.range' (t.size + l.label.toList.length + 1) l.operandNodes.length) := by
  have hlabel := (Grows.refl h).extend l.label.toList
  obtain ⟨hstatement, heq⟩ := hlabel.addParent l.statement l.operandNodes
  rw [h.children_extend, size_extend] at heq
  rw [addParts_eq]
  refine ⟨hstatement.extend _, ?_, ?_, ?_⟩
  · simp [addParent_eq]
  · simp [Line.parts]
  · rw [hstatement.families.children_extend, heq]

/-- The number of the node of a line, and the tree with the nodes of the line, before the line is
put below the root. -/
def sprout (t : SyntaxTree) (l : Line) : Nat × SyntaxTree :=
  ((t.addParts l).2.size,
    ((t.addParts l).2.extend [l.node]).appendChildren (t.addParts l).2.size (t.addParts l).1)

lemma plantLine_eq (t : SyntaxTree) (l : Line) :
    t.plantLine l = (t.sprout l).2.addLine (t.sprout l).1 := by
  simp only [plantLine, sprout, addParts, addAll_eq, add_eq]
  rfl

lemma orphan_partNumbers (h : Families t t.children) {l : Line} (hid : id ∈ t.partNumbers l)
    (p : Nat) : id ∉ (t.addParts l).2.children p := by
  obtain ⟨-, -, -, heq⟩ := grows_addParts h l
  obtain ⟨hle, -, hid⟩ := mem_partNumbers hid
  intro hmem
  rw [heq] at hmem
  by_cases hp : p = t.size + l.label.toList.length
  · rw [hp, Function.update_self, List.mem_range'_1] at hmem
    omega
  · rw [Function.update_of_ne hp] at hmem
    exact absurd (h.lt hmem) (Nat.not_lt_of_le hle)

/-- The nodes of a new line. Only the statement and the line have children among them. -/
lemma grows_sprout (h : Families t t.children) (l : Line) :
    Grows t (t.sprout l).2 ∧ (t.sprout l).2.root = t.root ∧
      (t.sprout l).2.contents = t.contents ++ (l.parts ++ [l.node]) ∧
      (t.sprout l).2.children =
        Function.update
          (Function.update t.children (t.size + l.label.toList.length)
            (List.range' (t.size + l.label.toList.length + 1) l.operandNodes.length))
          (t.sprout l).1 (t.partNumbers l) ∧
      (t.sprout l).1 = t.size + l.parts.length := by
  obtain ⟨hgrows, hroot, hcontents, heq⟩ := grows_addParts h l
  have hfst : (t.addParts l).1 = t.partNumbers l := by rw [addParts_eq]
  have hsize : (t.addParts l).2.size = t.size + l.parts.length := by
    rw [← length_contents, hcontents, List.length_append, length_contents]
  obtain ⟨hadopt, hall⟩ := hgrows.adopt l.node (t.partNumbers l)
    (fun c hc => ⟨(mem_partNumbers hc).1, hsize ▸ (mem_partNumbers hc).2.1⟩)
    (nodup_partNumbers t l) fun c hc => orphan_partNumbers h hc
  rw [sprout, hfst]
  refine ⟨hadopt, ?_, ?_, ?_, hsize⟩
  · rw [root_appendChildren, root_extend, hroot]
  · rw [contents_appendChildren, contents_extend, hcontents, List.append_assoc]
  · rw [hall, heq]

lemma presents_sprout (h : Families t t.children) (l : Line) :
    (t.sprout l).2.Presents (t.sprout l).1 l := by
  obtain ⟨hgrows, hroot, hcontents, heq, hid⟩ := grows_sprout h l
  have hfront : t.contents ++ (l.parts ++ [l.node]) =
      t.contents ++ l.label.toList ++
        (l.statement :: (l.operandNodes ++ (l.comment.toList ++ [l.node]))) := by
    simp [Line.parts]
  have hlength := length_contents t
  have hlt : t.size + l.label.toList.length < t.size + l.parts.length := by
    simp [Line.parts]
  refine ⟨?_, l.label.map fun _ => t.size, t.size + l.label.toList.length,
    l.comment.map fun _ => t.size + l.label.toList.length + l.operandNodes.length + 1, ?_, ?_, ?_,
    ?_, ?_⟩
  · rw [node?_eq, hcontents, hid, ← List.append_assoc, ← length_contents, ← List.length_append,
      List.getElem?_concat_length]
  · rw [heq, Function.update_self, partNumbers]
  · exact map_node?_option _ _ (hcontents.trans hfront) hlength
  · rw [node?_eq, hcontents, hfront, ← hlength, ← List.length_append,
      List.getElem?_append_right (Nat.le_refl _), Nat.sub_self, List.getElem?_cons_zero]
  · refine map_node?_option (t.contents ++ l.label.toList ++ (l.statement :: l.operandNodes))
      [l.node] ?_ ?_
    · rw [hcontents, hfront]
      simp
    · simp only [List.length_append, List.length_cons, hlength]
      omega
  · rw [heq, Function.update_of_ne (by omega), Function.update_self]
    refine map_node?_range' (t.contents ++ l.label.toList ++ [l.statement])
      (l.comment.toList ++ [l.node]) ?_ ?_
    · rw [hcontents, hfront]
      simp
    · simp only [List.length_append, List.length_singleton, hlength]

/-- The root that the first line of a tree gets is new. -/
lemma grows_ensureRoot (h : Rooted t) :
    Grows t t.ensureRoot.2 ∧ Rooted t.ensureRoot.2 ∧ t.ensureRoot.2.root = some t.ensureRoot.1 ∧
      t.ensureRoot.2.children = t.children ∧ t.children t.ensureRoot.1 = t.lines ∧
      t.ensureRoot.2.contents = t.contents ++ if t.root = none then [⟨.tree, "", .none⟩] else [] := by
  rw [ensureRoot, lines]
  cases hroot : t.root with
  | some root => exact ⟨.refl h.families, h, hroot, rfl, rfl, by simp⟩
  | none =>
    have hextend := (Grows.refl h.families).extend [⟨.tree, "", .none⟩]
    have hfamilies := (h.families.extend [⟨.tree, "", .none⟩]).withRoot (some t.size)
    have hchildren := funext hfamilies.children_eq
    simp only [add_eq]
    refine ⟨⟨⟨hextend.contents, ?_⟩, hfamilies.children, ?_, ?_, ?_⟩, ⟨hfamilies.children, ?_⟩,
      trivial, hchildren, h.families.eq_nil_of_le (Nat.le_refl _), contents_extend t _⟩
    · intro p _ _
      rw [hchildren]
    · intro p c _ hc
      rwa [hchildren] at hc
    · intro p hp
      rw [hroot] at hp
      cases hp
    · rintro p ⟨⟩
      exact Or.inr (Nat.le_refl _)
    · rintro p ⟨⟩
      refine ⟨rfl, by simp [SyntaxTree.extend, size], ?_⟩
      rw [hchildren]
      exact h.families.not_mem_of_le (Nat.le_refl _)

/-- A node that nobody has taken in becomes the last line. -/
lemma grows_addLine (h : Grows t t') (hrooted : Rooted t') {line : Nat}
    (hline : t.size ≤ line ∧ line < t'.size) (hroot : t'.root ≠ some line)
    (horphan : ∀ p, line ∉ t'.children p) :
    Grows t (t'.addLine line) ∧ Rooted (t'.addLine line) ∧ Extends t' (t'.addLine line) ∧
      (t'.addLine line).lines = t'.lines ++ [line] ∧
      (t'.addLine line).contents =
        t'.contents ++ if t'.root = none then [⟨.tree, "", .none⟩] else [] := by
  obtain ⟨hgrows, hrooted', hroot', hchildren, hlines, hcontents⟩ := grows_ensureRoot hrooted
  have htop := hrooted'.top _ hroot'
  have hsize := hgrows.size_le
  obtain ⟨hall, heq⟩ := (h.trans hgrows).appendChildren _ [line] htop.lt
    ((h.trans hgrows).newRoot _ hroot') (by simp; omega) (List.nodup_singleton _)
    (by simpa [hchildren] using horphan)
  have hne : t'.ensureRoot.1 ≠ line := by
    rcases hgrows.newRoot _ hroot' with hold | hle
    · exact fun heq => hroot (heq ▸ hold)
    · omega
  have haddLine : t'.addLine line = t'.ensureRoot.2.appendChildren t'.ensureRoot.1 [line] := rfl
  have hroot'' : (t'.addLine line).root = some t'.ensureRoot.1 := hroot'
  rw [← haddLine] at hall heq
  refine ⟨hall, ⟨hall.families, ?_⟩, ⟨?_, ?_⟩, ?_, ?_⟩
  · intro root hsome
    obtain rfl : t'.ensureRoot.1 = root := Option.some.inj (hroot''.symm.trans hsome)
    refine ⟨hroot'', by rw [haddLine, size_appendChildren]; exact htop.lt, ?_⟩
    intro p hp
    rw [heq] at hp
    by_cases hp' : p = t'.ensureRoot.1
    · rw [hp', Function.update_self, List.mem_append, List.mem_singleton] at hp
      exact hp.elim (htop.orphan _) hne
    · rw [Function.update_of_ne hp'] at hp
      exact htop.orphan p hp
  · rw [haddLine, contents_appendChildren]
    exact hgrows.contents
  · intro p hp hp'
    have hne' : p ≠ t'.ensureRoot.1 := by
      rintro rfl
      rcases hgrows.newRoot _ hroot' with hold | hle
      · exact hp' hold
      · omega
    rw [heq, Function.update_of_ne hne', hchildren]
  · rw [lines, hroot'']
    simp only [heq, Function.update_self, hchildren, hlines]
  · rw [haddLine, contents_appendChildren, hcontents]

/-! ### Trees of records -/

/-- A tree with the given lines below its root, and no other nodes of lines. -/
structure Lists (t : SyntaxTree) (ls : List Line) : Prop extends Rooted t where
  lines : t.lines = t.contents.findIdxs (·.kind.isLine)
  presents : List.Forall₂ t.Presents t.lines ls

lemma lists_empty : Lists {} [] where
  families := Families.empty.children
  top := by simp
  lines := rfl
  presents := .nil

/-- A line of a tree is below its root. -/
lemma Rooted.lt_of_mem_lines (h : Rooted t) (hid : id ∈ t.lines) :
    id < t.size ∧ t.root ≠ some id := by
  rw [lines] at hid
  cases hroot : t.root with
  | none => simp [hroot] at hid
  | some root =>
    simp only [hroot] at hid
    exact hroot ▸ h.lt_of_mem hid

lemma Lists.presents_extends {ls : List Line} (h : Lists t ls) (hextends : Extends t t') :
    List.Forall₂ t'.Presents t.lines ls := by
  have hlines : ∀ id ∈ t.lines, id < t.size ∧ t.root ≠ some id :=
    fun id hid => h.toRooted.lt_of_mem_lines hid
  refine ((List.forall₂_and_left _ _).mpr ⟨hlines, h.presents⟩).imp fun id l hid => ?_
  exact hid.2.extends h.toRooted hid.1 hextends

/-- The nodes of lines among more nodes that are none. -/
lemma findIdxs_append_of_forall (t : SyntaxTree) {ns : List Node}
    (hns : ∀ n ∈ ns, n.kind.isLine = false) :
    (t.contents ++ ns).findIdxs (·.kind.isLine) = t.contents.findIdxs (·.kind.isLine) := by
  rw [List.findIdxs_append, List.findIdxs_eq_nil_iff.mpr hns, List.append_nil]

/-- Nothing but the statement and the line itself has new children when the nodes of a line are
added. -/
lemma children_sprout (h : Families t t.children) (l : Line) {p : Nat}
    (hp : p ≠ t.size + l.label.toList.length) (hp' : p ≠ t.size + l.parts.length) :
    (t.sprout l).2.children p = t.children p := by
  obtain ⟨-, -, -, heq, hid⟩ := grows_sprout h l
  rw [heq, hid, Function.update_of_ne hp', Function.update_of_ne hp]

lemma orphan_sprout (h : Families t t.children) (l : Line) (p : Nat) :
    (t.sprout l).1 ∉ (t.sprout l).2.children p := by
  obtain ⟨-, -, -, heq, hid⟩ := grows_sprout h l
  have hlength : l.parts.length =
      l.label.toList.length + l.operandNodes.length + 1 + l.comment.toList.length := by
    simp only [Line.parts, List.length_append, List.length_cons]
    omega
  intro hmem
  by_cases hp' : p = t.size + l.parts.length
  · rw [heq, hid, hp', Function.update_self] at hmem
    have hlt := (mem_partNumbers hmem).2.1
    omega
  · by_cases hp : p = t.size + l.label.toList.length
    · rw [heq, hid, Function.update_of_ne hp', hp, Function.update_self, List.mem_range'_1] at hmem
      omega
    · rw [children_sprout h l hp hp', hid] at hmem
      have hlt := h.lt hmem
      omega

lemma lines_sprout (h : Rooted t) (l : Line) : (t.sprout l).2.lines = t.lines := by
  obtain ⟨-, hroot, -⟩ := grows_sprout h.families l
  rw [lines, lines, hroot]
  cases hsome : t.root with
  | none => rfl
  | some root =>
    have hlt := (h.top root hsome).lt
    exact children_sprout h.families l (by omega) (by omega)

lemma Lists.plantLine {ls : List Line} (h : Lists t ls) {l : Line}
    (hparts : ∀ n ∈ l.parts, n.kind.isLine = false) :
    Grows t (t.plantLine l) ∧ Lists (t.plantLine l) (ls ++ [l]) := by
  obtain ⟨hsprout, hroot, hcontents, -, hid⟩ := grows_sprout h.families l
  have hrooted := h.toRooted.grows hsprout hroot
  have hlt : (t.sprout l).1 < (t.sprout l).2.size := by
    rw [← length_contents, hcontents, hid]
    simp [length_contents]
  have hne : (t.sprout l).2.root ≠ some (t.sprout l).1 := by
    intro heq
    have hlt := (h.top _ (hroot ▸ heq)).lt
    omega
  obtain ⟨hgrows, hrooted', hextends, hlines', hcontents'⟩ :=
    grows_addLine hsprout hrooted ⟨by omega, hlt⟩ hne (orphan_sprout h.families l)
  rw [plantLine_eq]
  rw [lines_sprout h.toRooted] at hlines'
  refine ⟨hgrows, hrooted', ?_, ?_⟩
  · have hroots : ∀ n ∈ (if (t.sprout l).2.root = none then [⟨.tree, "", .none⟩] else [] : List Node),
        n.kind.isLine = false := by
      split <;> simp [NodeKind.isLine]
    have hline : [l.node].findIdxs (·.kind.isLine) (t.size + l.parts.length) =
        [t.size + l.parts.length] := rfl
    rw [hlines', hcontents', hcontents, ← List.append_assoc, List.findIdxs_append,
      List.findIdxs_append, findIdxs_append_of_forall _ hparts,
      List.findIdxs_eq_nil_iff.mpr hroots, List.append_nil, ← h.lines]
    simp only [List.length_append, length_contents, Nat.zero_add, hline, hid]
  · rw [hlines']
    refine List.rel_append ?_ (.cons ?_ .nil)
    · exact h.presents_extends hgrows.toExtends
    · exact (presents_sprout h.families l).extends hrooted ⟨hlt, hne⟩ hextends

/-- What is left of a rejected line. -/
lemma grows_plantRemnant (h : Families t t.children) (r : Remnant) :
    Grows t (t.plantRemnant r) ∧ (t.plantRemnant r).root = t.root ∧
      (t.plantRemnant r).contents = t.contents ++ r.parts ∧
      ∀ p < t.size, (t.plantRemnant r).children p = t.children p := by
  have hlabel := (Grows.refl h).extend r.label.toList
  have hextend := h.children_extend r.label.toList
  rw [plantRemnant, addAll_eq, Remnant.parts]
  cases r.statement with
  | none => exact ⟨hlabel, rfl, by simp, fun p _ => by rw [hextend]⟩
  | some n =>
    obtain ⟨hstatement, heq⟩ := hlabel.addParent n r.operands
    refine ⟨hstatement, by simp [addParent_eq], by simp, ?_⟩
    intro p hp
    rw [heq, hextend, Function.update_of_ne (by rw [size_extend]; omega)]

lemma Lists.plantRemnant {ls : List Line} (h : Lists t ls) {r : Remnant}
    (hparts : ∀ n ∈ r.parts, n.kind.isLine = false) :
    Grows t (t.plantRemnant r) ∧ Lists (t.plantRemnant r) ls := by
  obtain ⟨hgrows, hroot, hcontents, hchildren⟩ := grows_plantRemnant h.families r
  have hlines : (t.plantRemnant r).lines = t.lines := by
    rw [SyntaxTree.lines, SyntaxTree.lines, hroot]
    cases hsome : t.root with
    | none => rfl
    | some root => exact hchildren root (h.top root hsome).lt
  refine ⟨hgrows, h.toRooted.grows hgrows hroot, ?_, ?_⟩
  · rw [hlines, hcontents, findIdxs_append_of_forall _ hparts, h.lines]
  · rw [hlines]
    exact h.presents_extends hgrows.toExtends

/-- The tree of records has the lines that were accepted below its root. -/
lemma lists_ofRecords {records : List Record}
    (hparts : ∀ r ∈ records, ∀ n ∈ r.parts, n.kind.isLine = false) :
    Lists (ofRecords records) (records.filterMap Record.line?) := by
  induction records using List.reverseRecOn with
  | nil => exact lists_empty
  | append_singleton records r ih =>
    rw [List.forall_mem_append, List.forall_mem_singleton] at hparts
    rw [ofRecords, List.foldl_append, List.filterMap_append]
    cases r with
    | line l => exact ((ih hparts.1).plantLine hparts.2).2
    | remnant r =>
      rw [show [Record.remnant r].filterMap Record.line? = [] from rfl, List.append_nil]
      exact ((ih hparts.1).plantRemnant hparts.2).2

lemma grows_ofRecords {records more : List Record}
    (hparts : ∀ r ∈ records ++ more, ∀ n ∈ r.parts, n.kind.isLine = false) :
    Grows (ofRecords records) (ofRecords (records ++ more)) := by
  induction more using List.reverseRecOn with
  | nil =>
    rw [List.append_nil] at hparts ⊢
    exact .refl (lists_ofRecords hparts).families
  | append_singleton more r ih =>
    rw [← List.append_assoc, List.forall_mem_append, List.forall_mem_singleton] at hparts
    rw [← List.append_assoc, ofRecords, ofRecords, List.foldl_append]
    have hlists := lists_ofRecords hparts.1
    refine (ih hparts.1).trans ?_
    cases r with
    | line l => exact (hlists.plantLine hparts.2).1
    | remnant r => exact (hlists.plantRemnant hparts.2).1

/-! ### Loose nodes -/

/-- The nodes with these numbers are children of each other only, and none of them is the root. -/
structure Loose (t : SyntaxTree) (first past : Nat) : Prop where
  le : past ≤ t.size
  root : ∀ root, t.root = some root → ¬ (first ≤ root ∧ root < past)
  parent : ∀ p c, first ≤ c → c < past → c ∈ t.children p → first ≤ p ∧ p < past

namespace Loose

variable {first past : Nat}

/-- What was loose once stays loose. -/
lemma grows (h : Loose t first past) (hgrows : Grows t t') : Loose t' first past where
  le := Nat.le_trans h.le hgrows.size_le
  root root hroot := by
    rcases hgrows.newRoot root hroot with hold | hle
    · exact h.root root hold
    · have hpast := h.le
      omega
  parent p c hfirst hpast hmem :=
    h.parent p c hfirst hpast (hgrows.mem p c (Nat.lt_of_lt_of_le hpast h.le) hmem)

lemma not_below (h : Loose t first past) {root : Nat} (hroot : t.root = some root)
    (hbelow : Below t.children root id) : ¬ (first ≤ id ∧ id < past) := by
  induction hbelow with
  | top => exact h.root root hroot
  | child _ hmem ih => exact fun hid => ih (h.parent _ _ hid.1 hid.2 hmem)

/-- No way leads to a loose node. -/
lemma follow_ne (h : Loose t first past) (ht : Rooted t) (hfirst : first ≤ id) (hpast : id < past)
    (way : List Link) : t.follow way ≠ some id := by
  intro hway
  cases hroot : t.root with
  | none =>
    rw [follow_of_root_eq_none hroot] at hway
    cases hway
  | some root =>
    exact h.not_below hroot (ht.families.below_of_follow (ht.top root hroot) hway) ⟨hfirst, hpast⟩

end Loose

/-- The nodes that are left of a rejected line are loose. -/
lemma loose_plantRemnant (h : Rooted t) (r : Remnant) :
    Loose (t.plantRemnant r) t.size (t.plantRemnant r).size where
  le := Nat.le_refl _
  root root hroot := by
    obtain ⟨-, hsame, -⟩ := grows_plantRemnant h.families r
    have hlt := (h.top root (hsame ▸ hroot)).lt
    omega
  parent p c hfirst _ hmem := by
    obtain ⟨hgrows, -, -, hchildren⟩ := grows_plantRemnant h.families r
    refine ⟨?_, ?_⟩
    · by_contra hp
      rw [hchildren p (by omega)] at hmem
      exact absurd (h.families.lt hmem) (Nat.not_lt_of_le hfirst)
    · by_contra hp
      rw [hgrows.families.eq_nil_of_le (Nat.le_of_not_lt hp)] at hmem
      cases hmem

end SyntaxTree

end MicroAsm
