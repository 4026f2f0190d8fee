import MicroAsm.Proofs.Tree.Histories
import MicroAsm.Proofs.Tree.Sources

/-!
# Editing a growing tree

A tree may get its nodes in different orders and still come out the same. Children that are added
and taken in one after the other make the tree that has them added first and taken in at the end.
What a node holds may be changed before or after more lines are planted, or be another thing from
the start.
-/

namespace MicroAsm

namespace SyntaxTree

variable {t t' : SyntaxTree} {id parent child : Nat} {f : Node → Node}

lemma eq_of_nodes (hroot : t'.root = t.root)
    (h : ∀ id : Nat, t'.nodes[id]? = t.nodes[id]?) : t' = t := by
  cases t
  cases t'
  cases hroot
  congr 1
  exact Array.ext_getElem? h

/-! ### Children one after the other -/

lemma nodes_extend (t : SyntaxTree) (ns : List Node) (id : Nat) :
    (t.extend ns).nodes[id]? =
      if id < t.size then t.nodes[id]? else ns[id - t.size]?.map fun n => { node := n } := by
  simp only [extend, size, Array.getElem?_append, List.getElem?_toArray, List.getElem?_map]
  congr

lemma last?_extend (t : SyntaxTree) (ns : List Node) (id : Nat) :
    (t.extend ns).last? id = t.last? id :=
  bind_nodes_extend (fun _ => rfl) t ns id

/-- Nodes without links may be added before or after a node gets a child. -/
lemma extend_appendChild (ns : List Node) (hparent : parent < t.size)
    (hlast : ∀ last, t.last? parent = some last → last < t.size) :
    (t.appendChild parent child).extend ns = (t.extend ns).appendChild parent child := by
  refine eq_of_nodes rfl fun id => ?_
  rw [nodes_extend, nodes_appendChild, nodes_appendChild, nodes_extend, size_appendChild,
    last?_extend]
  split
  · rfl
  · have hne : parent ≠ id := by omega
    have hne' : t.last? parent ≠ some id := fun h => absurd (hlast id h) (by omega)
    cases ns[id - t.size]? with
    | none => rfl
    | some n => simp [hne, hne']

lemma extend_appendChildren (ns : List Node) {children : List Nat} (hparent : parent < t.size)
    (hchildren : ∀ c ∈ children, c < t.size)
    (hlast : ∀ last, t.last? parent = some last → last < t.size) :
    (t.appendChildren parent children).extend ns =
      (t.extend ns).appendChildren parent children := by
  induction children generalizing t with
  | nil => rfl
  | cons c children ih =>
    rw [List.forall_mem_cons] at hchildren
    rw [appendChildren_cons, appendChildren_cons, ← extend_appendChild ns hparent hlast]
    refine ih (by rwa [size_appendChild]) (by simpa using hchildren.2) ?_
    intro last h
    rw [size_appendChild]
    obtain ⟨-, rfl⟩ | hold := last?_appendChild h
    · exact hchildren.1
    · exact hlast last hold

/-- Adds nodes and takes each in as a child of another at once. -/
def addChildren (t : SyntaxTree) (parent : Nat) (ns : List Node) : SyntaxTree :=
  ns.foldl (fun t n => (t.add n).2.appendChild parent t.size) t

@[simp] lemma addChildren_nil (t : SyntaxTree) (parent : Nat) : t.addChildren parent [] = t := rfl

lemma addChildren_singleton (t : SyntaxTree) (parent : Nat) (n : Node) :
    t.addChildren parent [n] = (t.add n).2.appendChild parent t.size := rfl

lemma addChildren_append (t : SyntaxTree) (parent : Nat) (ns ns' : List Node) :
    t.addChildren parent (ns ++ ns') = (t.addChildren parent ns).addChildren parent ns' :=
  List.foldl_append

@[simp] lemma size_addChildren (t : SyntaxTree) (parent : Nat) (ns : List Node) :
    (t.addChildren parent ns).size = t.size + ns.length := by
  induction ns using List.reverseRecOn with
  | nil => rfl
  | append_singleton ns n ih =>
    rw [addChildren_append, addChildren_singleton, size_appendChild, add_eq, size_extend, ih,
      List.length_append, Nat.add_assoc]

/-- A node with children that are taken in one after the other. -/
lemma addChildren_add (t : SyntaxTree) (n : Node) (ns : List Node) :
    (t.add n).2.addChildren t.size ns = (t.addParent n ns).2 := by
  induction ns using List.reverseRecOn with
  | nil => rfl
  | append_singleton ns m ih =>
    have hrange : ∀ c ∈ List.range' (t.size + 1) ns.length, c < (t.extend (n :: ns)).size := by
      intro c hc
      rw [List.mem_range'_1] at hc
      simp only [size_extend, List.length_cons]
      omega
    have hlast := last?_extend_of_le (t := t) (n :: ns) (Nat.le_refl _)
    rw [addChildren_append, ih, addChildren_singleton, addParent_eq, addParent_eq, add_eq]
    rw [extend_appendChildren [m] (by simp) hrange (by simp [hlast])]
    simp only [extend_extend, List.cons_append, size_appendChildren, size_extend,
      List.length_append, List.length_cons, List.length_nil]
    rw [List.range'_concat, Nat.mul_comm 1, Nat.mul_one]
    simp only [appendChildren, List.foldl_append, List.foldl_cons, List.foldl_nil]
    congr 1
    omega

/-! ### Changing what a node holds -/

lemma nodes_modify (t : SyntaxTree) (id : Nat) (f : Node → Node) (id' : Nat) :
    (t.modify id f).nodes[id']? =
      if id = id' then t.nodes[id']?.map fun e => { e with node := f e.node }
      else t.nodes[id']? := by
  simp [modify, Array.getElem?_modify]

lemma last?_modify (t : SyntaxTree) (id : Nat) (f : Node → Node) (id' : Nat) :
    (t.modify id f).last? id' = t.last? id' :=
  bind_nodes_modify (fun _ _ => rfl) t id f id'

lemma modify_extend (hid : id < t.size) (ns : List Node) :
    (t.extend ns).modify id f = (t.modify id f).extend ns := by
  refine eq_of_nodes rfl fun id' => ?_
  simp only [nodes_modify, nodes_extend, size_modify]
  by_cases hid' : id' < t.size
  · simp only [if_pos hid']
  · have hne : id ≠ id' := by omega
    simp only [if_neg hid', if_neg hne]

/-- What a new node holds may be another thing from the start. -/
lemma modify_extend_new (t : SyntaxTree) (ns : List Node) (i : Nat) :
    (t.extend ns).modify (t.size + i) f = t.extend (ns.modify i f) := by
  refine eq_of_nodes rfl fun id' => ?_
  simp only [nodes_modify, nodes_extend]
  by_cases hid' : id' < t.size
  · have hne : t.size + i ≠ id' := by omega
    simp only [if_pos hid', if_neg hne]
  · simp only [if_neg hid', List.getElem?_modify]
    by_cases hi : t.size + i = id'
    · have hi' : i = id' - t.size := by omega
      simp only [if_pos hi, if_pos hi']
      cases ns[id' - t.size]? <;> rfl
    · have hi' : i ≠ id' - t.size := by omega
      simp [hi, hi']

lemma modify_appendChild (t : SyntaxTree) (parent child id : Nat) (f : Node → Node) :
    (t.appendChild parent child).modify id f = (t.modify id f).appendChild parent child := by
  refine eq_of_nodes rfl fun id' => ?_
  simp only [nodes_modify, nodes_appendChild, last?_modify]
  by_cases hid : id = id'
  · simp only [if_pos hid, Option.map_map]
    rfl
  · simp only [if_neg hid]

lemma modify_appendChildren (t : SyntaxTree) (parent : Nat) (children : List Nat) (id : Nat)
    (f : Node → Node) :
    (t.appendChildren parent children).modify id f =
      (t.modify id f).appendChildren parent children := by
  induction children generalizing t with
  | nil => rfl
  | cons c children ih => rw [appendChildren_cons, ih, modify_appendChild, appendChildren_cons]

/-- What a child of a new node holds may be another thing from the start. -/
lemma modify_addParent (t : SyntaxTree) (n : Node) (ns : List Node) (i : Nat) :
    (t.addParent n ns).2.modify (t.size + 1 + i) f = (t.addParent n (ns.modify i f)).2 := by
  have hsize : t.size + 1 + i = t.size + (i + 1) := by omega
  rw [addParent_eq, addParent_eq, modify_appendChildren, hsize, modify_extend_new,
    List.modify_succ_cons, List.length_modify]

lemma modify_addParent_of_lt (hid : id < t.size) (n : Node) (ns : List Node) :
    (t.addParent n ns).2.modify id f = ((t.modify id f).addParent n ns).2 := by
  rw [addParent_eq, addParent_eq, modify_appendChildren, modify_extend hid, size_modify]

lemma modify_addLine (hid : id < t.size) (line : Nat) :
    (t.addLine line).modify id f = (t.modify id f).addLine line := by
  have hroot : (t.modify id f).root = t.root := rfl
  rw [addLine, addLine, ensureRoot, ensureRoot, hroot]
  cases t.root with
  | some root => exact modify_appendChild t root line id f
  | none =>
    simp only [add_eq, modify_appendChild, size_modify]
    rw [← modify_extend hid]
    rfl

/-! ### Changing what a planted line holds -/

lemma size_addParts (t : SyntaxTree) (l : Line) :
    (t.addParts l).2.size = t.size + l.parts.length := by
  rw [addParts_eq]
  simp only [size_extend, size_addParent, Line.parts, List.length_append, List.length_cons]
  omega

/-- A change of one of the parts of a line is seen in the whole tree and nowhere else. -/
lemma modify_plantLine_of_addParts {l l' : Line} (hid : id < t.size + l.parts.length)
    (hnode : l'.node = l.node) (hnumbers : (t'.addParts l').1 = (t.addParts l).1)
    (htree : (t'.addParts l').2 = (t.addParts l).2.modify id f) :
    (t.plantLine l).modify id f = t'.plantLine l' := by
  have hsize := t.size_addParts l
  rw [plantLine_eq, plantLine_eq, sprout, sprout, hnode, hnumbers, htree, size_modify,
    modify_addLine (by simp only [size_appendChildren, size_extend]; omega),
    modify_appendChildren, modify_extend (by omega)]

lemma modify_plantLine_of_lt (hid : id < t.size) (l : Line) :
    (t.plantLine l).modify id f = (t.modify id f).plantLine l := by
  have hlabel : id < (t.extend l.label.toList).size := by
    rw [size_extend]
    omega
  refine modify_plantLine_of_addParts (by omega) rfl ?_ ?_
  · simp only [addParts_eq, partNumbers, size_modify]
  · simp only [addParts_eq]
    rw [modify_extend (by rw [size_addParent]; omega), modify_addParent_of_lt hlabel,
      modify_extend hid]

lemma modify_plantRemnant (hid : id < t.size) (r : Remnant) :
    (t.plantRemnant r).modify id f = (t.modify id f).plantRemnant r := by
  rw [plantRemnant, plantRemnant, addAll_eq, addAll_eq]
  cases r.statement with
  | none => exact modify_extend hid _
  | some n =>
    simp only
    rw [modify_addParent_of_lt (by rw [size_extend]; omega), modify_extend hid]

/-- What a node holds may be changed before or after more records are planted. -/
lemma modify_foldl_plant (hid : id < t.size) (rs : List Record) :
    (rs.foldl plant t).modify id f = rs.foldl plant (t.modify id f) := by
  induction rs generalizing t with
  | nil => rfl
  | cons r rs ih =>
    rw [List.foldl_cons, List.foldl_cons]
    cases r with
    | line l =>
      have hlt : id < (t.plantLine l).size := by
        have hsize := (t.size_plantLine l).1
        omega
      rw [plant, plant, ih hlt, modify_plantLine_of_lt hid]
    | remnant r =>
      have hlt : id < (t.plantRemnant r).size := by
        have hsize := (t.size_plantRemnant r).1
        omega
      rw [plant, plant, ih hlt, modify_plantRemnant hid]

/-- What an operand of a planted line holds may be another thing from the start. -/
lemma modify_plantLine (t : SyntaxTree) {l : Line} {front back : List OperandNode}
    {o o' : OperandNode} (h : l.operands = front ++ o :: back) (hnode : o'.node = f o.node) :
    (t.plantLine l).modify (t.size + l.label.toList.length + 1 + front.length) f =
      t.plantLine { l with operands := front ++ o' :: back } := by
  have hnodes : l.operandNodes =
      front.map OperandNode.node ++ o.node :: back.map OperandNode.node := by
    rw [Line.operandNodes, h, List.map_append, List.map_cons]
  have hmodify : ({ l with operands := front ++ o' :: back } : Line).operandNodes =
      l.operandNodes.modify front.length f := by
    rw [List.modify_eq_take_cons_drop (by simp [hnodes]), Line.operandNodes, List.map_append,
      List.map_cons, hnode]
    simp [hnodes, List.drop_append]
  have hlength : (l.operandNodes.modify front.length f).length = l.operandNodes.length :=
    List.length_modify f _ _
  have hlt : front.length < l.operandNodes.length := by simp [hnodes]
  refine modify_plantLine_of_addParts (by simp [Line.parts]; omega) rfl ?_ ?_
  · simp only [addParts_eq, partNumbers, hmodify, hlength]
  · have hparent := modify_addParent (f := f) (t.extend l.label.toList) l.statement l.operandNodes
      front.length
    rw [size_extend] at hparent
    simp only [addParts_eq, hmodify, ← hparent]
    rw [modify_extend (by simp only [size_addParent, size_extend]; omega)]

end SyntaxTree

end MicroAsm
