import MicroAsm.Assembler
import MicroAsm.Proofs.Assembly.Mirroring
import MicroAsm.Proofs.Parser.Lines

/-!
# Values that had to wait

After the last line a parser takes the values that wait from its list, writes them over the code
and changes the nodes that show them. This is what the last pass of an assembly does record by
record: the list has the values in the order of the records, and a change of a node in the grown
tree is the same as planting the changed record. So in the end a text that is parsed token by token
has come to the same program and messages as one that is assembled line by line.
-/

namespace MicroAsm

namespace SyntaxTree

/-- The numbers of the nodes to come are told from the size of a tree and its root. -/
lemma fixups_congr {t t' : SyntaxTree} (hsize : t'.size = t.size) (hroot : t'.root = t.root)
    (rs : List Record) : t'.fixups rs = t.fixups rs := by
  induction rs generalizing t t' with
  | nil => rfl
  | cons r rs ih =>
    have hplant : (t'.plant r).size = (t.plant r).size ∧ (t'.plant r).root = (t.plant r).root := by
      cases r with
      | line l => simp only [plant, size_plantLine, hsize, hroot, and_self]
      | remnant r => simp only [plant, size_plantRemnant, hsize, hroot, and_self]
    rw [fixups, fixups, hsize, ih hplant.1 hplant.2]

/-- A line with other operands, but as many of them, takes as many nodes. -/
lemma size_plantLine_operands (t : SyntaxTree) (l : Line) {operands : List OperandNode}
    (hlength : operands.length = l.operands.length) :
    (t.plantLine { l with operands }).size = (t.plantLine l).size ∧
      (t.plantLine { l with operands }).root = (t.plantLine l).root := by
  simp only [size_plantLine, Line.parts, Line.operandNodes, List.length_append, List.length_cons,
    List.length_map, hlength, and_self]

end SyntaxTree

namespace Parser

variable {q : Parser} {name : String} {b : Patching} {t : SyntaxTree} {l : Line}
  {rest : List Record} {front back : List OperandNode}

/-- The parser with a tree, and with the code and the log that the last pass has come to. -/
def patched (q : Parser) (name : String) (b : Patching) (t : SyntaxTree) : Parser :=
  { q with tree := t, log := b.log, object := (ObjectCode.ofModule name).put .code b.code }

lemma patch_patched (q : Parser) (name : String) (b : Patching) (t : SyntaxTree) {x : Fixup}
    (hsegment : x.segment = .code) (bytes : List UInt8) :
    (q.patched name b t).patch x bytes = q.patched name (b.write x.index bytes x.location) t := by
  have hcode : (q.patched name b t).object.get? x.segment = some b.code := by
    rw [hsegment]
    rfl
  simp only [patch, hcode, Patching.write]
  cases b.code.patch? x.index bytes with
  | none => rfl
  | some code =>
    rw [hsegment]
    rfl

/-- The tree with a line that has the given operands, and the records behind it. -/
def planting (t : SyntaxTree) (l : Line) (rest : List Record) (operands : List OperandNode) :
    SyntaxTree :=
  rest.foldl SyntaxTree.plant (t.plantLine { l with operands })

lemma planting_congr (t : SyntaxTree) (l : Line) (rest : List Record)
    (front back : List OperandNode) {o o' : OperandNode} (hnode : o'.node = o.node) :
    planting t l rest (front ++ o :: back) = planting t l rest (front ++ o' :: back) := by
  simp only [planting, SyntaxTree.plantLine, Line.operandNodes, List.map_append, List.map_cons,
    hnode]

/-- To change the node of an operand is to plant the changed operand. -/
lemma modify_planting (t : SyntaxTree) (l : Line) (rest : List Record)
    (front back : List OperandNode) {o o' : OperandNode} {f : Node → Node}
    (hnode : o'.node = f o.node) :
    (planting t l rest (front ++ o :: back)).modify
        (t.size + l.label.toList.length + 1 + front.length) f =
      planting t l rest (front ++ o' :: back) := by
  have hline := t.modify_plantLine (l := { l with operands := front ++ o :: back }) rfl hnode
  have hsize := (t.size_plantLine { l with operands := front ++ o :: back }).1
  have hlength : ({ l with operands := front ++ o :: back } : Line).parts.length =
      l.label.toList.length + 1 + front.length + 1 + back.length + l.comment.toList.length := by
    simp [Line.parts, Line.operandNodes]
    omega
  rw [planting, SyntaxTree.modify_foldl_plant (by omega), hline, planting]

/-- An operand gets its value in the code and in the tree. -/
lemma resolveFixup_patched (q : Parser) (name : String) (b : Patching) (t : SyntaxTree) (l : Line)
    (rest : List Record) (front back : List OperandNode) (o : OperandNode) :
    ((pendingFrom (t.size + l.label.toList.length + 1 + front.length) [o]).map
        (·.fixup .code l.place.start l.place.address)).foldl resolveFixup
      (q.patched name b (planting t l rest (front ++ o :: back))) =
    q.patched name (b.resolveOperand q.symbols l.place o).2
      (planting t l rest (front ++ (b.resolveOperand q.symbols l.place o).1 :: back)) := by
  rw [Patching.resolveOperand]
  cases hdeferred : o.deferred with
  | none => simp [pendingFrom, hdeferred]
  | some d =>
    have hsymbols : (q.patched name b (planting t l rest (front ++ o :: back))).symbols =
        q.symbols := rfl
    simp only [pendingFrom, hdeferred, Option.map_some, Option.toList_some, List.append_nil,
      List.map_cons, List.map_nil, List.foldl_cons, List.foldl_nil, resolveFixup,
      PendingValue.fixup, hsymbols]
    cases d.expr.eval q.symbols l.place.address with
    | error symbol =>
      -- The operand waits no more, but its node stays as it is.
      have hnode : ({ o with deferred := none } : OperandNode).node = o.node := rfl
      simp only [planting_congr t l rest front back hnode.symm]
      rfl
    | ok n =>
      simp only
      generalize checkRange d.width.bits n o.node.location = checked
      have hreport : (q.patched name b (planting t l rest (front ++ o :: back))).reportAll
          checked.2 = q.patched name { b with log := b.log.reportAll checked.2 }
            (planting t l rest (front ++ o :: back)) := rfl
      have hnode : ({ node := { o.node with kind := o.node.kind.resolved checked.1 } }
          : OperandNode).node = { o.node with kind := o.node.kind.resolved checked.1 } := rfl
      rw [hreport, patch_patched _ _ _ _ rfl,
        ← modify_planting t l rest front back (o := o)
          (f := fun n => { n with kind := n.kind.resolved checked.1 }) hnode]
      rfl

/-- The operands of a line get their values one after the other. -/
lemma foldl_resolveFixup_operands (q : Parser) (name : String) (b : Patching) (t : SyntaxTree)
    (l : Line) (rest : List Record) (front back : List OperandNode) :
    ((pendingFrom (t.size + l.label.toList.length + 1 + front.length) back).map
        (·.fixup .code l.place.start l.place.address)).foldl resolveFixup
      (q.patched name b (planting t l rest (front ++ back))) =
    q.patched name (b.resolveOperands q.symbols l.place back).2
      (planting t l rest (front ++ (b.resolveOperands q.symbols l.place back).1)) := by
  induction back generalizing front b with
  | nil => rfl
  | cons o back ih =>
    have hfirst := resolveFixup_patched q name b t l rest front back o
    have hcons : pendingFrom (t.size + l.label.toList.length + 1 + front.length) (o :: back) =
        pendingFrom (t.size + l.label.toList.length + 1 + front.length) [o] ++
          pendingFrom (t.size + l.label.toList.length + 1 + (front.length + 1)) back := by
      rw [← List.singleton_append, pendingFrom_append]
      rfl
    rw [hcons, List.map_append, List.foldl_append, hfirst, Patching.resolveOperands]
    generalize b.resolveOperand q.symbols l.place o = first
    have hrest := ih first.2 (front ++ [first.1])
    simpa only [List.append_assoc, List.singleton_append, List.length_append, List.length_cons,
      List.length_nil, Nat.zero_add] using hrest

/-- The lines of records get their values one after the other. -/
lemma foldl_resolveFixup_records (q : Parser) (name : String) (b : Patching) (t : SyntaxTree)
    (rs : List Record) :
    (t.fixups rs).foldl resolveFixup (q.patched name b (rs.foldl SyntaxTree.plant t)) =
      q.patched name (b.resolveRecords q.symbols rs).2
        ((b.resolveRecords q.symbols rs).1.foldl SyntaxTree.plant t) := by
  induction rs generalizing b t with
  | nil => rfl
  | cons r rs ih =>
    cases r with
    | remnant r => exact ih b (t.plant (.remnant r))
    | line l =>
      have hline := foldl_resolveFixup_operands q name b t l rs [] l.operands
      have hlength : (b.resolveOperands q.symbols l.place l.operands).1.length =
          l.operands.length := by
        rw [Patching.fst_resolveOperands, List.length_map]
      rw [SyntaxTree.fixups, Record.fixups, List.foldl_append, Patching.resolveRecords]
      generalize b.resolveOperands q.symbols l.place l.operands = resolved at hline hlength
      -- The nodes to come have their numbers whatever the operands of this line have become.
      obtain ⟨hsize, hroot⟩ := t.size_plantLine_operands l hlength
      have hnumbers := SyntaxTree.fixups_congr hsize hroot rs
      have hrest := ih resolved.2 (t.plantLine { l with operands := resolved.1 })
      rw [hnumbers] at hrest
      exact (congrArg ((t.plantLine l).fixups rs |>.foldl resolveFixup) hline).trans hrest

/-! ### Whole texts -/

/-- A parser has come to a program and its messages: nothing waits any more, and its code, symbols,
processor and tree are those of the program. -/
structure Gives (p : Parser) (result : Program × Log) : Prop where
  object : p.object = result.1.object
  symbols : p.symbols = result.1.symbols
  cpu : p.cpu = result.1.cpu
  tree : p.tree = SyntaxTree.ofRecords result.1.records
  log : p.log = result.2
  fixups : p.fixups = []

lemma Gives.syntaxTree {p : Parser} {result : Program × Log} (h : p.Gives result) :
    p.syntaxTree = result.1.tree := by
  rw [Parser.syntaxTree, h.tree]
  rfl

/-- A parser ends the text as an assembly does. -/
lemma Mirrors.gives {p : Parser} {a : Assembly} (h : Mirrors name p a) :
    p.resolveFixups.Gives (a.finish name) := by
  obtain ⟨q, hq⟩ : ∃ q : Parser, q = { p with fixups := [] } := ⟨_, rfl⟩
  have hsymbols : q.symbols = a.symbols := by rw [hq, ← h.symbols_eq]
  have hcpu : q.cpu = a.cpu := by rw [hq, ← h.cpu_eq]
  have hfixups : q.fixups = [] := by rw [hq]
  have hpatched : q.patched name ⟨a.code, a.log⟩ (a.records.toList.foldl SyntaxTree.plant {}) =
      q := by
    have htree : p.tree = a.records.toList.foldl SyntaxTree.plant {} := h.tree
    rw [patched, ← htree, ← h.object_eq, ← h.log_eq, hq]
  have hresolve := foldl_resolveFixup_records q name ⟨a.code, a.log⟩ {} a.records.toList
  rw [hpatched, hsymbols, ← h.fixups] at hresolve
  rw [resolveFixups, ← hq, hresolve]
  exact ⟨rfl, hsymbols, hcpu, rfl, rfl, hfixups⟩

/-- Parsing a text token by token gives the program and the messages that assembling it line by
line does. -/
theorem gives_parse (log : Log) (cpu : Cpu) (name text : String) :
    (start log cpu name text).parse.Gives (assembleInto log cpu name text) :=
  (mirrors_parseLines (mirrors_atFirstLine log cpu name text) (Cursor.faces_ofText text)
    (SourceLine.Last.ofText text)).gives

end Parser

/-- With a configuration a source is assembled as a parser takes it that starts with the settings.
-/
theorem Config.gives_parse_assemble (c : Config) (moduleName : Option String) (source : String) :
    ∃ p, p = (Parser.start {} c.cpu
        ((moduleName.or c.moduleName).getD Program.defaultModule) source).parse ∧
      p.Gives ((c.assemble moduleName source).program, p.log) ∧
      (c.assemble moduleName source).log =
        if c.warningsAsErrors then p.log.promoteWarnings else p.log := by
  have h := Parser.gives_parse {} c.cpu
    ((moduleName.or c.moduleName).getD Program.defaultModule) source
  have hlog := h.log
  refine ⟨_, rfl, ?_, ?_⟩
  · rw [hlog]
    exact h
  · rw [hlog]
    rfl

end MicroAsm
