import MicroAsm.Listing.Basic
import MicroAsm.Proofs.Likeness.Assembly
import MicroAsm.Proofs.Tree.Growth

/-!
# Places by line and column

A likeness that tells places by line and column, and spells names the same. Programs that are alike
in this way are the same but for byte offsets: so are their trees, and their listings, which show
no offsets, are the same text.
-/

namespace MicroAsm

open List (Forall₂)

/-! ### Names that are spelled the same -/

section Spelled

variable {L : Likeness} (hspelled : L.spelled)
include hspelled

lemma Expr.Alike.eq {e e' : Expr} (h : e.Alike L e') : e = e' := by
  have hterm : ∀ t t' : SignedTerm, t.Alike L t' → t = t' := by
    rintro ⟨negative, term⟩ ⟨negative', term'⟩ ⟨hnegative, hterm⟩
    change negative = negative' at hnegative
    change term.Alike L term' at hterm
    cases hterm with
    | symbol hname => rw [hnegative, hname.text hspelled]
    | number | locationCounter | char => rw [hnegative]
  have hterms := h.imp hterm
  rw [List.forall₂_eq_eq_eq] at hterms
  exact congrArg Expr.mk hterms

lemma NodeKind.Alike.eq {kind kind' : NodeKind} (h : kind.Alike L kind') : kind = kind' := by
  cases h with
  | same => rfl
  | expression he => rw [he.eq hspelled]

lemma Deferred.Alike.eq {d d' : Deferred} (h : d.Alike L d') : d = d' := by
  obtain ⟨offset, width, expr⟩ := d
  obtain ⟨hoffset, hwidth, hexpr⟩ := h
  rw [Deferred.mk.injEq]
  exact ⟨hoffset, hwidth, hexpr.eq hspelled⟩

lemma Symbol.Alike.eq {s s' : Symbol} (h : s.Alike L s') : s = s' := by
  obtain ⟨name, value, kind⟩ := s
  rw [Symbol.mk.injEq]
  exact ⟨h.name.text hspelled, h.value, h.kind⟩

lemma SymbolTable.Alike.eq {t t' : SymbolTable} (h : t.Alike L t') : t = t' := by
  have hentry : ∀ entry entry' : String × Symbol,
      entry.1 = entry'.1 ∧ entry.2.Alike L entry'.2 → entry = entry' :=
    fun _ _ h => Prod.ext h.1 (h.2.eq hspelled)
  have hentries := h.imp hentry
  rw [List.forall₂_eq_eq_eq] at hentries
  exact congrArg SymbolTable.mk hentries

end Spelled

/-! ### Programs without byte offsets -/

/-- The place by its line and column. -/
def Location.flat (l : Location) : Location :=
  { l with offset := 0 }

lemma Location.flat_eq_iff {l l' : Location} :
    l.flat = l'.flat ↔ l.line = l'.line ∧ l.column = l'.column := by
  obtain ⟨line, column, offset⟩ := l
  obtain ⟨line', column', offset'⟩ := l'
  simp [flat]

def Message.flat (m : Message) : Message :=
  { m with location := m.location.flat }

def Node.flat (n : Node) : Node :=
  { n with location := n.location.flat }

def OperandNode.flat (o : OperandNode) : OperandNode :=
  { o with node := o.node.flat }

def Line.flat (l : Line) : Line :=
  { place := l.place
    location := l.location.flat
    label := l.label.map Node.flat
    statement := l.statement.flat
    operands := l.operands.map OperandNode.flat
    comment := l.comment.map Node.flat }

def Remnant.flat (r : Remnant) : Remnant :=
  ⟨r.label.map Node.flat, r.statement.map Node.flat, r.operands.map Node.flat⟩

def Record.flat : Record → Record
  | line l => .line l.flat
  | remnant r => .remnant r.flat

def Program.flat (p : Program) : Program :=
  { p with records := p.records.map Record.flat }

/-- Places on the same line and column, and names that are spelled the same. -/
def Likeness.flat : Likeness where
  place l l' := l.flat = l'.flat ∧ l.isNone = l'.isNone
  spelled := True
  place_none := ⟨rfl, rfl⟩

lemma Likeness.flat_shows : Likeness.flat.Shows := by
  rintro - l l' h
  obtain ⟨hline, hcolumn⟩ := Location.flat_eq_iff.mp h.1
  rw [Location.text, Location.text, hline, hcolumn]

lemma Message.Alike.flat {m m' : Message} (h : m.Alike .flat m') : m.flat = m'.flat := by
  obtain ⟨severity, location, text⟩ := m
  rw [Message.flat, Message.flat, Message.mk.injEq]
  exact ⟨h.severity, h.place.1, h.text trivial⟩

lemma Node.Alike.flat {n n' : Node} (h : n.Alike .flat n') : n.flat = n'.flat := by
  obtain ⟨kind, text, location⟩ := n
  rw [Node.flat, Node.flat, Node.mk.injEq]
  exact ⟨h.kind.eq trivial, h.text trivial, h.place.1⟩

lemma OperandNode.Alike.flat {o o' : OperandNode} (h : o.Alike .flat o') : o.flat = o'.flat := by
  obtain ⟨node, deferred⟩ := o
  obtain ⟨node', deferred'⟩ := o'
  have hdeferred : Option.Rel (Deferred.Alike .flat) deferred deferred' := h.deferred
  rw [OperandNode.flat, OperandNode.flat, OperandNode.mk.injEq]
  refine ⟨h.node.flat, ?_⟩
  cases hdeferred with
  | none => rfl
  | some hd => rw [hd.eq trivial]

lemma Record.Alike.flat {r r' : Record} (h : r.Alike .flat r') : r.flat = r'.flat := by
  have hnode : ∀ n n' : Node, n.Alike .flat n' → n.flat = n'.flat := fun _ _ h => h.flat
  cases h with
  | line hl =>
    rw [Record.flat, Record.flat, Line.flat, Line.flat, hl.place, hl.location.1, hl.statement.flat,
      map_eq_map_of_rel hl.label hnode, map_eq_map_of_rel hl.comment hnode,
      map_eq_map_of_forall₂ hl.operands fun _ _ ho => ho.flat]
  | remnant hr =>
    rw [Record.flat, Record.flat, Remnant.flat, Remnant.flat, map_eq_map_of_rel hr.label hnode,
      map_eq_map_of_rel hr.statement hnode, map_eq_map_of_forall₂ hr.operands hnode]

lemma Program.Alike.flat {p p' : Program} (h : p.Alike .flat p') : p.flat = p'.flat := by
  obtain ⟨records, object, symbols, cpu⟩ := p
  rw [Program.flat, Program.flat, Program.mk.injEq]
  exact ⟨map_eq_map_of_forall₂ h.records fun _ _ hr => hr.flat, h.object,
    h.symbols.eq trivial, h.cpu⟩

/-! ### Trees -/

namespace SyntaxTree

/-- The tree without byte offsets. -/
def flat (t : SyntaxTree) : SyntaxTree :=
  { t with nodes := t.nodes.map fun e => { e with node := e.node.flat } }

variable (t : SyntaxTree)

lemma size_flat : t.flat.size = t.size := by
  simp [flat, size]

lemma flat_extend (ns : List Node) : (t.extend ns).flat = t.flat.extend (ns.map Node.flat) := by
  simp [flat, extend, Function.comp_def]

lemma flat_appendChild (parent child : Nat) :
    (t.appendChild parent child).flat = t.flat.appendChild parent child := by
  have hlast : ∀ id, t.flat.last? id = t.last? id := by
    intro id
    rw [last?, last?, flat, Array.getElem?_map]
    cases t.nodes[id]? <;> rfl
  have hnodes : (t.appendChild parent child).flat.nodes =
      (t.flat.appendChild parent child).nodes := by
    refine Array.ext_getElem? fun id => ?_
    rw [nodes_appendChild, hlast, flat, flat, Array.getElem?_map, Array.getElem?_map,
      nodes_appendChild]
    cases t.nodes[id]? <;> rfl
  calc (t.appendChild parent child).flat
      = ⟨(t.appendChild parent child).flat.nodes, t.root⟩ := rfl
    _ = t.flat.appendChild parent child := by rw [hnodes]; rfl

lemma flat_appendChildren (parent : Nat) (children : List Nat) :
    (t.appendChildren parent children).flat = t.flat.appendChildren parent children := by
  induction children generalizing t with
  | nil => rfl
  | cons child children ih => rw [appendChildren_cons, appendChildren_cons, ih, flat_appendChild]

lemma flat_addParent (n : Node) (children : List Node) :
    (t.addParent n children).2.flat = (t.flat.addParent n.flat (children.map Node.flat)).2 := by
  rw [addParent_eq, addParent_eq, flat_appendChildren, flat_extend, size_flat, List.length_map]
  rfl

lemma flat_addLine (line : Nat) : (t.addLine line).flat = t.flat.addLine line := by
  have hroot : t.flat.root = t.root := rfl
  rw [addLine, addLine, ensureRoot, ensureRoot, hroot]
  cases t.root with
  | some root => exact flat_appendChild t root line
  | none =>
    have hextend : (t.extend [⟨.tree, "", .none⟩]).flat = t.flat.extend [⟨.tree, "", .none⟩] :=
      flat_extend t _
    simp only [add_eq, size_flat, flat_appendChild]
    exact congrArg (fun t' => appendChild ⟨t'.nodes, some t.size⟩ t.size line) hextend

lemma flat_plantLine (l : Line) : (t.plantLine l).flat = t.flat.plantLine l.flat := by
  have hid : ∀ (t : SyntaxTree) n children, (t.addParent n children).1 = t.size := by
    intro t n children
    rw [addParent_eq]
  have hoperands : l.flat.operandNodes = l.operandNodes.map Node.flat := by
    simp [Line.operandNodes, Line.flat, OperandNode.flat, Function.comp_def]
  have hlabel : l.flat.label.toList = l.label.toList.map Node.flat := by
    cases hl : l.label <;> simp [Line.flat, hl]
  have hcomment : l.flat.comment.toList = l.comment.toList.map Node.flat := by
    cases hl : l.comment <;> simp [Line.flat, hl]
  rw [plantLine, plantLine, hoperands, hlabel, hcomment]
  simp only [addAll_eq, add_eq, hid, flat_addLine, flat_appendChildren, flat_extend, flat_addParent,
    size_extend, size_addParent, size_flat, List.length_map]
  rfl

lemma flat_plantRemnant (r : Remnant) : (t.plantRemnant r).flat = t.flat.plantRemnant r.flat := by
  have hlabel : r.flat.label.toList = r.label.toList.map Node.flat := by
    cases hl : r.label <;> simp [Remnant.flat, hl]
  rw [plantRemnant, plantRemnant, addAll_eq, addAll_eq, hlabel, ← flat_extend]
  cases hstatement : r.statement with
  | none =>
    have hnone : r.flat.statement = none := by simp [Remnant.flat, hstatement]
    rw [hnone]
  | some n =>
    have hsome : r.flat.statement = some n.flat := by simp [Remnant.flat, hstatement]
    rw [hsome]
    exact flat_addParent _ n r.operands

/-- Planting records does not look at places. -/
lemma flat_ofRecords (rs : List Record) : (ofRecords rs).flat = ofRecords (rs.map Record.flat) := by
  have hplant : ∀ (t : SyntaxTree) r, (t.plant r).flat = t.flat.plant r.flat := by
    intro t r
    cases r with
    | line l => exact flat_plantLine t l
    | remnant r => exact flat_plantRemnant t r
  have hfoldl : ∀ t : SyntaxTree,
      (rs.foldl plant t).flat = (rs.map Record.flat).foldl plant t.flat := by
    induction rs with
    | nil => exact fun t => rfl
    | cons r rs ih =>
      intro t
      rw [List.foldl_cons, ih, hplant, List.map_cons, List.foldl_cons]
  have hempty : flat {} = {} := by simp [flat]
  rw [ofRecords, hfoldl, hempty, ofRecords]

end SyntaxTree

lemma Program.tree_flat (p : Program) : p.flat.tree = p.tree.map SyntaxTree.flat := by
  have hflat : SyntaxTree.ofRecords p.flat.records = (SyntaxTree.ofRecords p.records).flat :=
    (SyntaxTree.flat_ofRecords p.records).symm
  have hroot : (SyntaxTree.ofRecords p.records).flat.root = (SyntaxTree.ofRecords p.records).root :=
    rfl
  simp only [tree, hflat, hroot]
  cases (SyntaxTree.ofRecords p.records).root <;> rfl

/-! ### Listings -/

namespace Listing

lemma writeLine_flat (columns : Columns) (p : Program) (l : Line) (printer : Printer) :
    writeLine columns p.flat l.flat printer = writeLine columns p l printer := by
  have hoperands : l.flat.operandNodes = l.operandNodes.map Node.flat := by
    simp [Line.operandNodes, Line.flat, OperandNode.flat, Function.comp_def]
  have htext : l.flat.statementText = l.statementText := by
    have hstatement : l.flat.statement = l.statement.flat := rfl
    have htexts : (l.operandNodes.map Node.flat).map Node.text = l.operandNodes.map Node.text := by
      simp [Node.flat, Function.comp_def]
    rw [Line.statementText, Line.statementText, hoperands, hstatement, Node.statementText,
      Node.statementText, htexts]
    rfl
  have hassigned : assignedValue p.symbols l.flat = assignedValue p.symbols l := by
    have hhead : (l.operandNodes.map Node.flat).head?.map Node.kind =
        l.operandNodes.head?.map Node.kind := by
      cases l.operandNodes <;> rfl
    rw [assignedValue, assignedValue, hoperands, hhead]
    rfl
  have hshown : shownWord p.symbols l.flat = shownWord p.symbols l := by
    have hkind : l.flat.statement.kind = l.statement.kind := rfl
    have hnone : l.flat.label.isNone = l.label.isNone := Option.isNone_map
    rw [shownWord, shownWord, hkind, hassigned, hnone]
    rfl
  have hlabel : l.flat.label.map (·.text ++ ":") = l.label.map (·.text ++ ":") :=
    Option.map_map _ _ _
  have hcomment : l.flat.comment.map (";" ++ ·.text) = l.comment.map (";" ++ ·.text) :=
    Option.map_map _ _ _
  have hbytes : lineBytes p.flat.object l.flat.place = lineBytes p.object l.place := rfl
  have hplace : l.flat.place = l.place := rfl
  have hsymbols : p.flat.symbols = p.symbols := rfl
  rw [writeLine, writeLine, hbytes, hsymbols, hshown, htext, hlabel, hcomment, hplace]

variable {p p' : Program} {log log' : Log}

lemma writeMessages_alike {ms ms' : List Message} (h : Forall₂ (Message.Alike .flat) ms ms')
    (printer : Printer) : writeMessages ms printer = writeMessages ms' printer := by
  have hshown : ∀ m m' : Message, m.Alike .flat m' →
      "--> " ++ m.severity.name ++ ": " ++ m.shown =
        "--> " ++ m'.severity.name ++ ": " ++ m'.shown := by
    intro m m' hm
    have hglobal : m.isGlobal = m'.isGlobal := hm.place.2
    rw [Message.shown, Message.shown, hm.severity, hglobal, hm.text trivial,
      Likeness.flat_shows trivial hm.place]
  rw [writeMessages, writeMessages]
  induction h generalizing printer with
  | nil => rfl
  | cons hm _ ih => rw [List.foldl_cons, List.foldl_cons, hshown _ _ hm, ih]

lemma writeSourceLine_alike (hp : p.Alike .flat p') (hlog : log.Alike .flat log')
    (columns : Columns) (number : Nat) (line : List Char) (printer : Printer) :
    writeSourceLine columns p log number line printer =
      writeSourceLine columns p' log' number line printer := by
  have hmessages : Forall₂ (Message.Alike .flat) (log.onLine number) (log'.onLine number) := by
    refine List.rel_filter ?_ hlog.messages
    intro m m' hm
    simp only [(Location.flat_eq_iff.mp hm.place.1).1]
  have hline : Option.Rel (Line.Alike .flat) (lineAt? p.lines number)
      (lineAt? p'.lines number) := by
    refine rel_find? (List.forall₂_reverse_iff.mpr hp.lines) ?_
    intro l l' hl
    rw [(Location.flat_eq_iff.mp hl.location.1).1]
  rw [writeSourceLine, writeSourceLine]
  generalize lineAt? p.lines number = found at hline
  generalize lineAt? p'.lines number = found' at hline
  cases hline with
  | none => exact writeMessages_alike hmessages _
  | @some l l' hl =>
    have hflat : l.flat = l'.flat := by
      have hrecord := (Record.Alike.line hl).flat
      exact Record.line.inj hrecord
    simp only
    rw [← writeLine_flat columns p l, ← writeLine_flat columns p' l', hp.flat, hflat]
    exact writeMessages_alike hmessages _

/-- Listings do not show byte offsets. -/
lemma render_alike (columns : Columns) {source source' : String}
    (hsource : sourceLines source = sourceLines source') (hp : p.Alike .flat p')
    (hlog : log.Alike .flat log') :
    render columns source p log = render columns source' p' log' := by
  have hlines : ∀ number lines printer, writeSourceLines columns p log number lines printer =
      writeSourceLines columns p' log' number lines printer := by
    intro number lines printer
    induction lines generalizing number printer with
    | nil => rfl
    | cons line lines ih =>
      rw [writeSourceLines, writeSourceLines, writeSourceLine_alike hp hlog, ih]
  have hglobal : Forall₂ (Message.Alike .flat) log.global log'.global := by
    refine List.rel_filter ?_ hlog.messages
    intro m m' hm
    have hglobal : m.isGlobal = m'.isGlobal := hm.place.2
    simp only [hglobal]
  rw [render, render, hlines, hsource, writeMessages_alike hglobal, hp.symbols.eq trivial]

end Listing

end MicroAsm
