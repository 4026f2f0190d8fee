import MicroAsm.Proofs.Assembly.Rejection
import MicroAsm.Proofs.Parser.Statement

/-!
# Lines token by token

A parser takes a line from its first token to the one that ends it, or up to a mistake and then to
the end. Either way it has done what an assembly does that gets the whole line at once, and stands
on the first token of the next line.
-/

namespace MicroAsm

namespace Parser

variable {stop : Token} {more ts rest : List Token} {p : Parser} {name : String} {a : Assembly}

/-! ### Labels and comments -/

/-- The parser at another cursor, with the node of a label or comment, if there is one. -/
def adding (p : Parser) (c : Cursor) (n : Option Node) : Parser :=
  { p with cursor := c, tree := (p.tree.addAll n.toList).2 }

lemma adding_holding (p : Parser) (name : String) (a : Assembly) (c : Cursor) (n : Option Node) :
    (p.holding name a).adding c n = (p.adding c n).holding name a := rfl

/-- The label of a line becomes the next node. -/
lemma run_parseLabel (h : p.cursor.OnLine stop more ts) :
    ∃ c, c.OnLine stop more (Reader.readLabel ts).2 ∧
      parseLabel.run p = .ok ((Reader.readLabel ts).1.map (·, p.tree.size))
        (p.adding c ((Reader.readLabel ts).1.map labelNode)) := by
  rw [parseLabel, run_bind_of_ok run_token, h.token_eq]
  cases ts with
  | nil =>
    have hkind : (Reader.current stop []).kind ≠ .identifier := h.kind_current_ne rfl
    rw [if_neg hkind]
    exact ⟨p.cursor, h, rfl⟩
  | cons t ts =>
    have hcurrent : Reader.current stop (t :: ts) = t := rfl
    rw [hcurrent]
    by_cases hkind : t.kind = .identifier
    · have hpeek : peek.run p = .ok (Reader.current stop ts) { p with cursor := p.cursor.peek.2 } :=
        congrArg (EStateM.Result.ok · _) h.peek_fst
      rw [if_pos hkind, run_bind_of_ok hpeek]
      cases ts with
      | nil =>
        split
        · exact absurd ‹_› (h.kind_current_ne rfl)
        · exact absurd ‹_› (h.kind_current_ne rfl)
        · exact absurd ‹_› (h.kind_current_ne rfl)
        · exact ⟨p.cursor.peek.2, h.peek_snd, rfl⟩
      | cons u ts =>
        have hnext : Reader.current stop (u :: ts) = u := rfl
        rw [Reader.readLabel, if_pos hkind, hnext]
        cases u.kind with
        | colon => exact ⟨p.cursor.peek.2.advance.advance, h.peek_snd.advance.advance, rfl⟩
        | equ | set => exact ⟨p.cursor.peek.2.advance, h.peek_snd.advance, rfl⟩
        | _ => exact ⟨p.cursor.peek.2, h.peek_snd, rfl⟩
    · have hnone : Reader.readLabel (t :: ts) = (none, t :: ts) := by
        cases ts with
        | nil => rfl
        | cons u ts => exact if_neg hkind
      rw [if_neg hkind, hnone]
      exact ⟨p.cursor, h, rfl⟩

/-- The comment of a line becomes the next node. -/
lemma run_parseComment {comment : Option Token} (h : p.cursor.OnLine stop more comment.toList)
    (hkind : ∀ t ∈ comment, t.kind = .comment) :
    ∃ c, c.OnLine stop more [] ∧
      parseComment.run p = .ok (p.tree.addAll (comment.map commentNode).toList).1
        (p.adding c (comment.map commentNode)) := by
  rw [parseComment, run_bind_of_ok run_token, h.token_eq]
  cases comment with
  | none =>
    have hne : (Reader.current stop []).kind ≠ .comment := h.kind_current_ne rfl
    rw [if_neg (by exact hne)]
    exact ⟨p.cursor, h, rfl⟩
  | some t =>
    have hcomment : (Reader.current stop [t]).kind = .comment := hkind t rfl
    rw [if_pos (by exact hcomment)]
    exact ⟨p.cursor.advance, h.advance, rfl⟩

/-! ### Whole lines -/

variable {line : SourceLine} {label comment : Option Token} {statement : Statement}
  {fragment : Fragment} {failure : Failure}

/-- The parser at the end of a line, with the nodes below that of the line and the values that
wait. -/
def withParts (p : Parser) (c : Cursor) (l : Line) (start : Nat) : Parser :=
  { p with
    cursor := c
    tree := (p.tree.addParts l).2
    fixups := p.fixups ++
      (pendingFrom (p.tree.size + l.label.toList.length + 1) l.operands).map
        (·.fixup .code start p.lineAddress) }

/-- A line gets its parts one after the other. -/
lemma adding_withStatement_adding (p : Parser) (c c' c'' : Cursor) (l : Line) (start : Nat) :
    ((p.adding c l.label).withStatement c' l.statement l.operands start).adding c'' l.comment =
      p.withParts c'' l start := by
  have hsize : (p.tree.addAll l.label.toList).2.size = p.tree.size + l.label.toList.length := by
    rw [SyntaxTree.addAll_eq]
    exact p.tree.size_extend _
  rw [withParts, ← hsize]
  rfl

/-- A line that an assembly accepts is taken up to its end. -/
lemma run_parseStatementLine_of_accepted (name : String)
    (h : p.cursor.OnLine line.stop more line.body)
    (hhere : p.lineAddress = a.code.locationCounter)
    (hread : line.read a.cpu = .accepted label statement comment) (location : Location) :
    ∃ c, c.OnLine line.stop more [] ∧
      parseStatementLine.run (p.holding name a) =
        .ok (p.tree.addParts (a.lineOf location label statement comment)).1
          ((p.withParts c (a.lineOf location label statement comment) a.code.size).holding name
            (a.execute a.code.locationCounter label statement).1) := by
  obtain ⟨hlabel, hstatement⟩ := SourceLine.readStatement_of_accepted hread
  have hkind : ∀ t ∈ comment, t.kind = .comment := by
    have hends := (Reader.ends_readStatement _ _ _).of_ok hstatement
    rintro t rfl
    exact of_decide_eq_true hends
  obtain ⟨c, hc, hrun⟩ := run_parseLabel (p := p.holding name a) h
  rw [hlabel, adding_holding] at hrun
  have hfollows := follows_parseStatement (p := p.adding c (label.map labelNode)) name a label hc
  rw [hstatement] at hfollows
  obtain ⟨c', hc', hrun'⟩ := hfollows.exists_of_ok
  have hhere' : (p.adding c (label.map labelNode)).lineAddress = a.code.locationCounter := hhere
  rw [hhere'] at hrun'
  obtain ⟨c'', hc'', hrun''⟩ := run_parseComment
    (p := ((p.adding c (label.map labelNode)).withStatement c'
      (a.execute a.code.locationCounter label statement).2.1
      (a.execute a.code.locationCounter label statement).2.2 a.code.size).holding name
        (a.execute a.code.locationCounter label statement).1) hc' hkind
  have hends : c''.token.kind.endsLine = true := by rw [hc''.endsLine_token]; rfl
  have hparts := adding_withStatement_adding p c c' c'' (a.lineOf location label statement comment)
    a.code.size
  refine ⟨c'', hc'', ?_⟩
  rw [parseStatementLine, run_bind_of_ok hrun]
  simp only [Option.map_map, Function.comp_def, Option.map_id']
  rw [run_bind_of_ok hrun', run_bind_of_ok hrun'', run_bind_of_ok run_token, adding_holding]
  rw [if_pos (by exact hends), ← hparts]
  cases label <;> rfl

/-- A line that an assembly rejects is taken up to the mistake. -/
lemma run_parseStatementLine_of_rejected (name : String)
    (h : p.cursor.OnLine line.stop more line.body)
    (hhere : p.lineAddress = a.code.locationCounter)
    (hcomment : ∀ t ∈ line.body.dropLast, t.kind ≠ .comment)
    (hread : line.read a.cpu = .rejected label fragment failure) :
    ∃ c rest, c.OnLine line.stop more rest ∧
      parseStatementLine.run (p.holding name a) =
        .error failure
          (({ p with
              cursor := c
              tree := p.tree.plantRemnant (a.remnantOf label fragment) } : Parser).holding name
            (a.examine a.code.locationCounter label fragment).1) := by
  obtain ⟨hlabel, hstatement⟩ := SourceLine.readStatement_of_rejected hcomment hread
  obtain ⟨c, hc, hrun⟩ := run_parseLabel (p := p.holding name a) h
  rw [hlabel, adding_holding] at hrun
  have hfollows := follows_parseStatement (p := p.adding c (label.map labelNode)) name a label hc
  rw [hstatement] at hfollows
  obtain ⟨c', rest, hc', hrun'⟩ := hfollows.exists_of_error
  have hhere' : (p.adding c (label.map labelNode)).lineAddress = a.code.locationCounter := hhere
  rw [hhere'] at hrun'
  refine ⟨c', rest, hc', ?_⟩
  rw [parseStatementLine, run_bind_of_ok hrun]
  simp only [Option.map_map, Function.comp_def, Option.map_id']
  rw [run_bind_of_error hrun', withRemains.eq_def, SyntaxTree.plantRemnant, Assembly.remnantOf]
  cases (a.examine a.code.locationCounter label fragment).2.1 <;> rfl

end Parser

/-! ### What is kept of lines -/

namespace SyntaxTree

/-- The parts of a line are the nodes that have their numbers. -/
lemma map_node?_addParts (t : SyntaxTree) (l : Line) :
    (t.addParts l).1.map (t.addParts l).2.node? =
      (l.label.toList ++ l.statement :: l.comment.toList).map some := by
  have hcontents : (t.addParts l).2.contents =
      t.contents ++ l.label.toList ++ (l.statement :: l.operandNodes) ++ l.comment.toList := by
    simp [addParts_eq]
  have hnumbers : (t.addParts l).1 = List.range' t.contents.length l.label.toList.length ++
      List.range' (t.contents ++ l.label.toList).length [l.statement].length ++
      List.range' (t.contents ++ l.label.toList ++ l.statement :: l.operandNodes).length
        l.comment.toList.length := by
    simp [addParts_eq, partNumbers, range'_length_toList, length_contents, Nat.add_assoc]
  rw [hnumbers, List.map_append, List.map_append,
    map_node?_range' t.contents (l.statement :: l.operandNodes ++ l.comment.toList)
      (by simp [hcontents]) rfl,
    map_node?_range' (t.contents ++ l.label.toList) (l.operandNodes ++ l.comment.toList)
      (by simp [hcontents]) rfl,
    map_node?_range' (t.contents ++ l.label.toList ++ l.statement :: l.operandNodes) []
      (by simp [hcontents]) rfl]
  simp

/-- Whether a line moves the location counter is seen from the nodes below its own. -/
lemma any_org_addParts (t : SyntaxTree) (a : Assembly) (location : Location)
    (label : Option Token) (statement : Statement) (comment : Option Token) :
    let l := a.lineOf location label statement comment
    ((t.addParts l).1.any fun id => ((t.addParts l).2.node? id).any (·.kind = .org)) = true ↔
      l.statement.kind = .org := by
  intro l
  have hnodes := congrArg (List.any · (Option.any fun n : Node => n.kind = .org))
    (t.map_node?_addParts l)
  simp only [List.any_map] at hnodes
  rw [← Function.comp_def, hnodes]
  cases label <;> cases comment <;> simp [l, Assembly.lineOf, labelNode, commentNode]

end SyntaxTree

/-- The values of a recorded line that wait, when the nodes of the record have the given number and
those after it. -/
def Record.fixups (id : Nat) : Record → List Fixup
  | .line l =>
    (Parser.pendingFrom (id + l.label.toList.length + 1) l.operands).map
      (·.fixup .code l.place.start l.place.address)
  | .remnant _ => []

/-- The values of recorded lines that wait, when the records are planted in a tree. -/
def SyntaxTree.fixups (t : SyntaxTree) : List Record → List Fixup
  | [] => []
  | r :: rs => r.fixups t.size ++ (t.plant r).fixups rs

lemma SyntaxTree.fixups_concat (t : SyntaxTree) (rs : List Record) (r : Record) :
    t.fixups (rs ++ [r]) = t.fixups rs ++ r.fixups (rs.foldl plant t).size := by
  induction rs generalizing t with
  | nil => simp [fixups]
  | cons r' rs ih => rw [List.cons_append, fixups, fixups, ih, List.foldl_cons, List.append_assoc]

namespace Assembly

variable {a : Assembly} {location : Location} {label comment : Option Token}
  {statement : Statement}

lemma tree_record (a : Assembly) (r : Record) : (a.record r).tree = a.tree.plant r := by
  rw [tree, record, Array.toList_push, SyntaxTree.ofRecords, List.foldl_concat]
  rfl

/-- No value of the line waits, or it has its place where it starts. -/
def KeepsPlace (a : Assembly) (l : Line) : Prop :=
  (∀ o ∈ l.operands, o.deferred = none) ∨
    l.place.start = a.code.size ∧ l.place.address = a.code.locationCounter

lemma keepsPlace_of_put {e : Emission} {node : Node} {location' : Location}
    (hnode : node.kind ≠ .org)
    (hexecute : a.execute a.code.locationCounter label statement =
      ((a.defineLabel label a.code.locationCounter).put e location', node, e.operands))
    (h : e.emits = true ∨ ∀ o ∈ e.operands, o.deferred = none) :
    a.KeepsPlace (a.lineOf location label statement comment) := by
  rw [KeepsPlace, lineOf, hexecute]
  obtain hemits | hsettled := h
  · rw [(code_and_placement_put hnode hemits).2]
    exact .inr ⟨rfl, rfl⟩
  · exact .inl hsettled

/-- A line that moves the location counter has another place, but its value never waits. -/
lemma keepsPlace_lineOf (a : Assembly) (location : Location) (label : Option Token)
    (statement : Statement) (comment : Option Token) :
    a.KeepsPlace (a.lineOf location label statement comment) := by
  cases statement with
  | empty location' | cpu location' name | endUnit location' | org location' origin
  | assign how location' v => exact .inl (by simp [lineOf, execute])
  | data width location' items =>
    exact keepsPlace_of_put (by cases width <;> simp [Width.directive]) rfl
      (.inl (emits_emissions _ _ _ _ _))
  | instruction i location' arguments =>
    refine keepsPlace_of_put (by simp [Instruction.node]) rfl ?_
    obtain ⟨bytes, -, heq⟩ | hsettled := i.emission_cases location' (arguments.map
      (Argument.settle (a.defineLabel label a.code.locationCounter).symbols a.code.locationCounter))
    · exact .inl (by rw [heq])
    · exact .inr hsettled

end Assembly

namespace Parser

variable {more : List Token} {p : Parser} {name : String} {a : Assembly} {line : SourceLine}
  {label comment : Option Token} {statement : Statement} {fragment : Fragment} {failure : Failure}

/-- A parser between two lines stands for an assembly: it holds its state, has planted its records
and keeps the values that wait in them. -/
structure Mirrors (name : String) (p : Parser) (a : Assembly) : Prop where
  holds : p = p.holding name a
  tree : p.tree = a.tree
  fixups : p.fixups = SyntaxTree.fixups {} a.records.toList

namespace Mirrors

variable (h : Mirrors name p a)
include h

lemma object_eq : p.object = (ObjectCode.ofModule name).put .code a.code :=
  congrArg Parser.object h.holds

lemma cpu_eq : p.cpu = a.cpu :=
  congrArg Parser.cpu h.holds

lemma log_eq : p.log = a.log :=
  congrArg Parser.log h.holds

lemma symbols_eq : p.symbols = a.symbols :=
  congrArg Parser.symbols h.holds

lemma ended_eq : p.ended = a.ended :=
  congrArg Parser.ended h.holds

lemma locationCounter_eq : p.locationCounter = a.code.locationCounter :=
  congrArg Parser.locationCounter h.holds

lemma startLine : p.startLine.holding name a = p.startLine ∧
    p.startLine.lineAddress = a.code.locationCounter := by
  rw [Parser.startLine, h.holds]
  exact ⟨rfl, rfl⟩

lemma tree_eq {b : Assembly} (hrecords : b.records = a.records) : b.tree = p.tree := by
  rw [h.tree, Assembly.tree, hrecords, Assembly.tree]

/-- The place of an accepted line is told from the states around its statement. -/
lemma placement_eq (c : Cursor) (location : Location) (label : Option Token)
    (statement : Statement) (comment : Option Token) :
    p.placement
        ((p.startLine.withParts c (a.lineOf location label statement comment) a.code.size).holding
          name (a.execute a.code.locationCounter label statement).1)
        (p.tree.addParts (a.lineOf location label statement comment)).1 =
      (a.lineOf location label statement comment).place := by
  have horg := p.tree.any_org_addParts a location label statement comment
  have hsegment : p.segment = .code := congrArg Parser.segment h.holds
  have hsize : p.segmentSize = a.code.size := congrArg Parser.segmentSize h.holds
  rw [placement, hsegment, hsize]
  by_cases hkind : (a.lineOf location label statement comment).statement.kind = .org
  · have hplace : (a.lineOf location label statement comment).place = _ := if_pos hkind
    exact (if_pos (horg.mpr hkind)).trans hplace.symm
  · have hplace : (a.lineOf location label statement comment).place = _ := if_neg hkind
    exact (if_neg (horg.not.mpr hkind)).trans hplace.symm

end Mirrors

/-- The node of a line is planted over its parts. -/
lemma tree_closeLine {p q : Parser} {l : Line} (htree : q.tree = (p.tree.addParts l).2)
    (hplace : p.placement q (p.tree.addParts l).1 = l.place)
    (hlocation : p.cursor.token.location = l.location) :
    (p.closeLine q (p.tree.addParts l).1).tree = p.tree.plantLine l := by
  simp only [closeLine, hplace, htree, hlocation]
  rfl

/-- The values of a line that wait are kept with its place. -/
lemma fixups_withParts {l : Line} (hkeeps : a.KeepsPlace l) (id : Nat) :
    (pendingFrom (id + l.label.toList.length + 1) l.operands).map
        (·.fixup .code a.code.size a.code.locationCounter) = (Record.line l).fixups id := by
  rw [Record.fixups]
  obtain hsettled | ⟨hstart, haddress⟩ := hkeeps
  · rw [pendingFrom_of_settled hsettled]
    rfl
  · rw [hstart, haddress]

/-- A parser that stands for an assembly takes a line that the assembly accepts. -/
lemma mirrors_parseLine_of_accepted (h : Mirrors name p a)
    (hline : p.cursor.OnLine line.stop more line.body) {first : Token}
    (hfirst : line.body.head? = some first)
    (hread : line.read a.cpu = .accepted label statement comment) :
    Mirrors name p.parseLine (a.accept first.location label statement comment) ∧
      ∃ c : Cursor, c.OnLine line.stop more [] ∧ p.parseLine.cursor = c.skipBreak := by
  obtain ⟨rest, hbody⟩ := List.head?_eq_some_iff.mp hfirst
  have htoken : p.cursor.token = first := by
    rw [hline.token_eq, hbody]
    rfl
  have hends : p.cursor.token.kind.endsLine = false := by
    rw [hline.endsLine_token, hbody]
    rfl
  obtain ⟨hstart, hhere⟩ := h.startLine
  obtain ⟨c, hc, hrun⟩ := run_parseStatementLine_of_accepted (p := p.startLine) name hline hhere
    hread first.location
  rw [hstart] at hrun
  obtain ⟨l, hl⟩ : ∃ l, a.lineOf first.location label statement comment = l := ⟨_, rfl⟩
  have hplace := h.placement_eq c first.location label statement comment
  have hlocation : p.cursor.token.location = l.location := by rw [htoken, ← hl]; rfl
  have hkeeps := a.keepsPlace_lineOf first.location label statement comment
  rw [hl] at hrun hplace hkeeps
  rw [parseLine, if_neg (TokenKind.endsLine_eq_false_iff.mp hends).1, hrun, a.accept_eq, hl]
  refine ⟨⟨rfl, ?_, ?_⟩, c, hc, rfl⟩
  · rw [Assembly.tree_record, h.tree_eq (a.execute_records _ _ _)]
    exact tree_closeLine rfl hplace hlocation
  · rw [Assembly.record, a.execute_records, Array.toList_push, SyntaxTree.fixups_concat,
      ← h.fixups, ← SyntaxTree.ofRecords, ← Assembly.tree, ← h.tree, ← fixups_withParts hkeeps,
      ← hhere]
    rfl

/-- A parser that stands for an assembly fails where the assembly rejects a line. -/
lemma mirrors_parseLine_of_rejected (h : Mirrors name p a)
    (hline : p.cursor.OnLine line.stop more line.body) (hne : line.body ≠ [])
    (hcomment : ∀ t ∈ line.body.dropLast, t.kind ≠ .comment)
    (hread : line.read a.cpu = .rejected label fragment failure) :
    Mirrors name p.parseLine (a.reject label fragment failure) ∧
      ∃ c : Cursor, c.OnLine line.stop more [] ∧ p.parseLine.cursor = c.skipBreak := by
  have hends : p.cursor.token.kind.endsLine = false := by
    rw [hline.endsLine_token]
    simpa using hne
  obtain ⟨hstart, hhere⟩ := h.startLine
  obtain ⟨c, rest, hc, hrun⟩ := run_parseStatementLine_of_rejected (p := p.startLine) name hline
    hhere hcomment hread
  rw [hstart] at hrun
  rw [parseLine, if_neg (TokenKind.endsLine_eq_false_iff.mp hends).1, hrun, a.reject_eq]
  have hrecords := (a.examine_frame a.code.locationCounter label fragment).2.2.1
  refine ⟨⟨rfl, ?_, ?_⟩, c.skipTokens, hc.skipTokens, rfl⟩
  · have htree := Assembly.tree_record (a.examine a.code.locationCounter label fragment).1
      (.remnant (a.remnantOf label fragment))
    rw [h.tree_eq hrecords] at htree
    exact htree.symm
  · rw [(Assembly.report_frame _ _).2.2.2.1, Assembly.record, hrecords, Array.toList_push,
      SyntaxTree.fixups_concat, Record.fixups, List.append_nil, ← h.fixups]
    rfl

/-- A parser that stands for an assembly takes a line of the text as the assembly does, and goes on
behind the token that ends it. -/
lemma mirrors_parseLine (h : Mirrors name p a)
    (hline : p.cursor.OnLine line.stop more line.body) (hkind : p.cursor.token.kind ≠ .endOfFile)
    (hcomment : ∀ t ∈ line.body.dropLast, t.kind ≠ .comment) :
    Mirrors name p.parseLine (a.step line) ∧
      ∃ c : Cursor, c.OnLine line.stop more [] ∧ p.parseLine.cursor = c.skipBreak := by
  obtain ⟨hbody, heq⟩ | ⟨first, label, statement, comment, hfirst, hread, heq⟩ |
    ⟨first, label, fragment, failure, hfirst, hread, heq⟩ := a.step_eq_cases line
  · rw [hbody] at hline
    have hbreak := hline.kind_token_of_nil hkind
    rw [heq, parseLine, if_pos hbreak]
    refine ⟨⟨?_, h.tree, h.fixups⟩, p.cursor, hline, ?_⟩
    · exact congrArg moved h.holds
    · rw [Cursor.skipBreak, if_pos hbreak]
      rfl
  · rw [heq]
    exact mirrors_parseLine_of_accepted h hline hfirst hread
  · rw [heq]
    exact mirrors_parseLine_of_rejected h hline (List.ne_nil_of_mem (List.mem_of_head? hfirst))
      hcomment hread

/-! ### Lines that fail -/

/-- How the line at a parser fails, if it does. -/
def failure? (p : Parser) : Option Failure :=
  if p.cursor.token.kind = .endOfLine then none
  else
    match parseStatementLine.run p.startLine with
    | .ok _ _ => none
    | .error failure _ => some failure

/-- A line that fails is reported, and the rest of it is skipped. -/
theorem parseLine_of_failure (h : p.failure? = some failure) :
    ∃ q, parseStatementLine.run p.startLine = .error failure q ∧
      p.parseLine = (q.report failure.message).skipLine := by
  rw [failure?] at h
  rw [parseLine]
  by_cases hbreak : p.cursor.token.kind = .endOfLine
  · rw [if_pos hbreak] at h
    cases h
  · rw [if_neg hbreak] at h ⊢
    cases hrun : parseStatementLine.run p.startLine with
    | ok children q =>
      rw [hrun] at h
      cases h
    | error f q =>
      rw [hrun] at h
      cases h
      exact ⟨q, rfl, rfl⟩

/-- A parser fails on a line where an assembly rejects it, and in the same way. -/
lemma Mirrors.failure?_eq (h : Mirrors name p a)
    (hline : p.cursor.OnLine line.stop more line.body)
    (hcomment : ∀ t ∈ line.body.dropLast, t.kind ≠ .comment) :
    p.failure? = (line.read a.cpu).failure? := by
  obtain ⟨hstart, hhere⟩ := h.startLine
  rw [failure?]
  by_cases hbreak : p.cursor.token.kind = .endOfLine
  · have hbody : line.body = [] := by
      have hends := hline.endsLine_token
      rw [hbreak] at hends
      exact List.isEmpty_iff.mp hends.symm
    rw [if_pos hbreak, Assembly.read_of_body_eq_nil _ hbody]
    rfl
  rw [if_neg hbreak, ← hstart]
  cases hread : line.read a.cpu with
  | accepted label statement comment =>
    obtain ⟨c, -, hrun⟩ := run_parseStatementLine_of_accepted (p := p.startLine) name hline hhere
      hread .none
    rw [hrun]
    rfl
  | rejected label fragment failure =>
    obtain ⟨c, rest, -, hrun⟩ := run_parseStatementLine_of_rejected (p := p.startLine) name hline
      hhere hcomment hread
    rw [hrun]
    rfl

end Parser

end MicroAsm
