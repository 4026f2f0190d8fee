import MicroAsm.Proofs.Statement.Text
import MicroAsm.Proofs.Tree.Sources

/-!
# Statements in trees

The nodes of a statement have the texts of its parts, whatever the last pass finds out about values.
So the text that a tree gives for the statement of a line is the one of the statement as it was read:
it is scanned into the words of the statement, and read as the same statement.
-/

namespace MicroAsm

/-! ### Texts of operands -/

/-- The texts of the nodes, empty ones included. -/
def nodeTexts (os : List OperandNode) : List String :=
  os.map (·.node.text)

lemma Value.text_settle (symbols : SymbolTable) (here : UInt16) (kind : OperandKind) (v : Value) :
    (v.settle symbols here kind).node.text = v.text := by
  rw [settle]
  split <;> rfl

lemma Argument.text_settle (symbols : SymbolTable) (here : UInt16) (x : Argument) :
    (x.settle symbols here).node.text = x.text := by
  cases x with
  | register kind t => rfl
  | value kind v =>
    cases kind with
    | restartCode =>
      simp only [settle, settleRestart]
      split <;> rfl
    | _ => exact v.text_settle symbols here _

/-- Only the first character of a string has a text. -/
lemma nodeTexts_stringEmission (t : Token) {text : String} {cs : List Char} (hcs : cs ≠ [])
    (htext : text ≠ "") :
    (nodeTexts (stringEmission t text cs).operands).filter (! ·.isEmpty) = [text] := by
  have hrest : ∀ cs,
      (nodeTexts (stringEmission t "" cs).operands).filter (! ·.isEmpty) = [] := by
    intro cs
    induction cs with
    | nil => rfl
    | cons c cs ih => exact ih
  obtain ⟨c, cs, rfl⟩ := List.exists_cons_of_ne_nil hcs
  have hfirst : text.isEmpty = false := by simpa using htext
  have hcs' := hrest cs
  rw [nodeTexts] at hcs'
  simp [stringEmission, nodeTexts, hfirst, hcs']

lemma Item.nodeTexts_emissions (symbols : SymbolTable) (here : UInt16) (width : Width)
    (offset : Nat) {items : List Item} (hne : ∀ item ∈ items, item.text ≠ "")
    (hstrings : ∀ t, Item.string t ∈ items → stringBody t ≠ []) :
    (nodeTexts (Item.emissions symbols here width offset items).operands).filter (! ·.isEmpty) =
      items.map Item.text := by
  induction items generalizing offset with
  | nil => rfl
  | cons item items ih =>
    rw [List.forall_mem_cons] at hne
    have hfirst : (nodeTexts (item.emission symbols here width offset).operands).filter
        (! ·.isEmpty) = [item.text] := by
      cases item with
      | string t => exact nodeTexts_stringEmission t (hstrings t List.mem_cons_self) hne.1
      | value v =>
        have htext := v.text_settle symbols here width.operandKind
        have hvalue : v.text.isEmpty = false := by simpa [Item.text] using hne.1
        simp [nodeTexts, emission, htext, hvalue, Item.text]
    have hrest := ih (offset + (item.emission symbols here width offset).bytes.length) hne.2
      fun t ht => hstrings t (List.mem_cons_of_mem _ ht)
    rw [nodeTexts] at hfirst hrest
    rw [nodeTexts, emissions, List.map_append, List.filter_append, hfirst, hrest]
    rfl

lemma nodeTexts_invalidate (position : Option Nat) (os : List OperandNode) :
    nodeTexts (invalidate position os) = nodeTexts os := by
  cases position with
  | none => rfl
  | some i =>
    refine List.ext_getElem? fun k => ?_
    rw [nodeTexts, nodeTexts, List.getElem?_map, List.getElem?_map, invalidate,
      List.getElem?_modify]
    cases os[k]? with
    | none => rfl
    | some o => by_cases hk : i = k <;> simp [hk]

lemma Instruction.nodeTexts_emission (i : Instruction) (location : Location)
    (operands : List Settled) :
    nodeTexts (i.emission location operands).operands = operands.map (·.node.text) := by
  have hnodes : ∀ deferred : Settled → Option Deferred,
      nodeTexts (operands.map fun s => { node := s.node, deferred := deferred s }) =
        operands.map (·.node.text) := by
    intro deferred
    rw [nodeTexts, List.map_map]
    rfl
  rw [emission]
  split
  · split
    · exact hnodes _
    · exact (nodeTexts_invalidate _ _).trans (hnodes fun _ => none)
  · exact hnodes fun _ => none

/-! ### Texts of lines -/

/-- One of the items is a string without characters. -/
def Statement.HasEmptyString : Statement → Prop
  | data _ _ items => ∃ t, Item.string t ∈ items ∧ stringBody t = []
  | _ => False

namespace Assembly

variable (a : Assembly) (label comment : Option Token)

/-- What is kept of a line has the text of its statement. -/
lemma statementText_lineOf (location : Location) {s : Statement}
    (htexts : ∀ text ∈ s.operandTexts, text ≠ "") (hstrings : ¬s.HasEmptyString) :
    (a.lineOf location label s comment).statementText = s.text := by
  have hfilter : s.operandTexts.filter (! ·.isEmpty) = s.operandTexts := by
    refine List.filter_eq_self.mpr fun text ht => ?_
    simpa using htexts text ht
  have hnodes : ∀ os : List OperandNode, (os.map OperandNode.node).map Node.text = nodeTexts os :=
    fun os => List.map_map
  cases s with
  | empty location' => rfl
  | cpu location' name => rfl
  | endUnit location' => rfl
  | org location' v => exact congrArg (spellOut "ORG") hfilter
  | assign how location' v =>
    cases how with
    | equ => exact congrArg (spellOut "EQU") hfilter
    | set => exact congrArg (spellOut "SET") hfilter
  | data width location' items =>
    rw [Statement.operandTexts, List.forall_mem_map] at htexts
    have hitems := Item.nodeTexts_emissions (a.defineLabel label a.code.locationCounter).symbols
      a.code.locationCounter width 0 htexts (fun t ht hbody => hstrings ⟨t, ht, hbody⟩)
    rw [← hnodes] at hitems
    cases width with
    | byte => exact congrArg (spellOut "DB") hitems
    | word => exact congrArg (spellOut "DW") hitems
  | instruction i location' arguments =>
    have hoperands := i.nodeTexts_emission location' (arguments.map (Argument.settle
      (a.defineLabel label a.code.locationCounter).symbols a.code.locationCounter))
    have hsettled : ∀ symbols here, (arguments.map (Argument.settle symbols here)).map
        (·.node.text) = arguments.map Argument.text := by
      intro symbols here
      rw [List.map_map]
      exact List.map_congr_left fun x _ => x.text_settle symbols here
    rw [hsettled, ← hnodes] at hoperands
    refine congrArg (spellOut i.mnemonic) (Eq.trans ?_ hfilter)
    exact congrArg (List.filter (! ·.isEmpty)) hoperands

end Assembly

/-- The last pass leaves texts as they are. -/
lemma Line.statementText_resolved (l : Line) (symbols : SymbolTable) :
    (l.resolved symbols).statementText = l.statementText := by
  have htexts : (l.resolved symbols).operandNodes.map Node.text = l.operandNodes.map Node.text := by
    simp only [operandNodes, resolved, List.map_map]
    refine List.map_congr_left fun o _ => ?_
    simp only [Function.comp_apply, OperandNode.resolved]
    split
    · rfl
    · split <;> rfl
  rw [statementText, statementText, Node.statementText, Node.statementText, htexts]
  rfl

/-- A tree gives the text of a line that it presents. -/
lemma SyntaxTree.Presents.statementText {t : SyntaxTree} {id : Nat} {l : Line}
    (h : t.Presents id l) (hroles : l.HasRoles) : t.statementText id = l.statementText := by
  obtain ⟨-, label, statement, comment, hchildren, hlabel, hstatement, -, hoperands⟩ := h
  have hkind : l.statement.kind ≠ .label ∧ l.statement.kind ≠ .comment := by
    constructor
    all_goals
      intro heq
      have hisStatement := hroles.statement
      rw [heq] at hisStatement
      cases hisStatement
  have hfound : t.statement? id = some statement := by
    have hlast : (statement :: comment.toList).find? (fun child => ((t.node? child).map fun n =>
        decide (n.kind ≠ .label ∧ n.kind ≠ .comment)).getD false) = some statement := by
      rw [List.find?_cons_of_pos]
      simpa [hstatement] using hkind
    rw [statement?, findChild?, hchildren]
    cases label with
    | none => exact hlast
    | some child =>
      rw [Option.map_some, eq_comm, Option.map_eq_some_iff] at hlabel
      obtain ⟨n, hn, hnode⟩ := hlabel
      have hnode' := hroles.label n hn
      rw [Option.toList_some, List.singleton_append, List.find?_cons_of_neg]
      · exact hlast
      · simp [← hnode, hnode']
  have hnodes : (t.children statement).filterMap t.node? = l.operandNodes := by
    have hmap := congrArg (List.filterMap fun n => n) hoperands
    rwa [List.filterMap_map, List.filterMap_map, Function.comp_def, Function.comp_def,
      List.filterMap_some] at hmap
  rw [SyntaxTree.statementText, hfound]
  simp only [hstatement, hnodes]
  rfl

/-- The tokens of a source are scanned again as they are. -/
lemma SourceLine.rescans_of_mem {source : String} {line : SourceLine} (h : line ∈ ofText source) :
    ∀ t ∈ line.body, t.Rescans := by
  intro t ht
  refine (Scanner.ofText source).rescans_of_mem_allTokens t ?_
  rw [← (divide_ofText source).tokens]
  exact List.mem_flatMap.mpr ⟨line, h, List.mem_append_left _ ht⟩

/-- Every line of the tree of a source is a physical line that was accepted, and its text is the one
of the statement there. If there is a statement and none of its items is an empty string, the text
is scanned into the words of the statement, with the mnemonic in capital letters, and read as the
same statement once more. -/
theorem words_statementText (cpu : Cpu) (moduleName source : String) :
    let t := SyntaxTree.ofRecords (assemble cpu moduleName source).1.records
    ∀ id ∈ t.lines, ∃ before line after label statement comment,
      unitLines cpu (SourceLine.ofText source) = before ++ line :: after ∧
      (t.node? id).map (·.location.line) = some (before.length + 1) ∧
      line.read (({ cpu } : Assembly).steps before).cpu = .accepted label statement comment ∧
      (statement.isEmpty = false → ¬statement.HasEmptyString →
        (Scanner.ofText (t.statementText id)).tokens.1.map Token.word = line.statementWords ∧
        ∃ again statement', SourceLine.ofText (t.statementText id) = [again] ∧
          again.read (({ cpu } : Assembly).steps before).cpu = .accepted none statement' none ∧
          statement'.bare = statement.bare) := by
  intro t id hid
  have hlists := lists_assemble cpu moduleName source
  obtain ⟨k, hk, rfl⟩ := List.getElem_of_mem hid
  have hk' : k < (assemble cpu moduleName source).1.lines.length :=
    hlists.presents.length_eq ▸ hk
  have hpresents := hlists.presents.get hk hk'
  have hmem := List.getElem_mem hk'
  rw [List.get_eq_getElem, List.get_eq_getElem] at hpresents
  generalize (assemble cpu moduleName source).1.lines[k] = l at hpresents hmem
  obtain ⟨before, line, after, hsplit, hnumber, -, first, label, statement, comment, kept,
    hkeeps, hl⟩ := exists_keeps_of_mem_lines hmem
  have hline := SourceLine.rescans_of_mem (Assembly.mem_of_mem_unitLines
    (hsplit ▸ List.mem_append_right before List.mem_cons_self))
  refine ⟨before, line, after, label, statement, comment, hsplit, ?_, hkeeps.hread, ?_⟩
  · rw [hpresents.1, Option.map_some]
    exact congrArg some hnumber
  · intro hempty hstrings
    have hwords := SourceLine.words_text hline hkeeps.hread hempty
    have htext : t.statementText t.lines[k] = statement.text := by
      rw [hpresents.statementText (hasRoles_of_mem_lines hmem), hl, Line.statementText_resolved,
        hkeeps.hline]
      exact Assembly.statementText_lineOf _ _ _ _
        (SourceLine.ne_empty_of_read hline hkeeps.hread hempty) hstrings
    rw [htext]
    obtain ⟨again, hagain, hsame⟩ := SourceLine.exists_ofText hwords
      (SourceLine.onLine_statementWords hline hkeeps.hread hempty)
    obtain ⟨statement', hread, hbare⟩ :=
      SourceLine.read_again hline hkeeps.hread hempty hsame
    exact ⟨hwords, again, statement', hagain, hread, hbare⟩

/-- A statement with blanks between all of its words. -/
theorem words_statementText_of_blanks :
    let source := "X: mvi A , - X + 'c' ; done\n"
    let t := SyntaxTree.ofRecords (assemble .intel8080 "MAIN" source).1.records
    t.lines = [5] ∧ t.statementText 5 = "MVI A,-X+'c'" ∧
      (Scanner.ofText (t.statementText 5)).tokens.1.map Token.word =
        [(.identifier, "MVI"), (.identifier, "A"), (.comma, ","), (.minus, "-"),
          (.identifier, "X"), (.plus, "+"), (.string, "'c'")] ∧
      ∃ again statement, SourceLine.ofText (t.statementText 5) = [again] ∧
        again.read .intel8080 = .accepted none statement none ∧
        statement.bare = .instruction ⟨"MVI", 0x06, .registerByte⟩ .none
          [.register .register ⟨.identifier, "A", .none⟩,
            .value .byte ⟨⟨[⟨true, .symbol "X"⟩, ⟨false, .char 'c'⟩]⟩, "-X+'c'", .none⟩] := by
  intro source t
  have hlines : t.lines = [5] := by decide +kernel
  obtain ⟨before, line, after, label, statement, comment, hsplit, hnumber, hread, hagain⟩ :=
    words_statementText .intel8080 "MAIN" source 5 (hlines ▸ List.mem_singleton_self 5)
  have hnode : (t.node? 5).map (·.location.line) = some 1 := by decide +kernel
  have hbefore : before = [] := by
    rw [hnode, Option.some.injEq] at hnumber
    exact List.eq_nil_of_length_eq_zero (by omega)
  subst hbefore
  have hline : (unitLines .intel8080 (SourceLine.ofText source)).head?.map
      (SourceLine.read .intel8080) = some (.accepted (some ⟨.identifier, "X", ⟨1, 1, 0⟩⟩)
        (.instruction ⟨"MVI", 0x06, .registerByte⟩ ⟨1, 4, 3⟩
          [.register .register ⟨.identifier, "A", ⟨1, 8, 7⟩⟩,
            .value .byte ⟨⟨[⟨true, .symbol "X"⟩, ⟨false, .char 'c'⟩]⟩, "-X+'c'", ⟨1, 12, 11⟩⟩])
        (some ⟨.comment, " done", ⟨1, 22, 21⟩⟩)) := by
    decide +kernel
  rw [hsplit] at hline
  obtain ⟨rfl, rfl, rfl⟩ :=
    LineReading.accepted.inj (hread.symm.trans (Option.some.inj hline))
  obtain ⟨-, again, statement', hone, hread', hbare⟩ := hagain rfl (fun h => h)
  exact ⟨hlines, by decide +kernel, by decide +kernel, again, statement', hone, hread', hbare⟩

end MicroAsm
