import MicroAsm.Proofs.Assembly.Placing

/-!
# The two passes together

While lines are taken one after the other, every accepted line keeps its place in the code, and its
bytes are waiting to be completed in any larger symbol table. At the end the last pass completes
them with the final table, line by line, so each line has the bytes of the reference encoder. This
needs that no variable is assigned twice: otherwise a line may have used a value that is gone at
the end.
-/

namespace MicroAsm

/-- The names that lines assign as variables, as often as they do. -/
def assignedNames (ls : List Line) : List String :=
  ls.filterMap Line.assigned

namespace Segment

variable {s s' : Segment} {place : Placement}

/-- The bytes at a place. -/
def bytesAt (s : Segment) (place : Placement) : List UInt8 :=
  (s.bytes.toList.drop place.start).take place.size

lemma bytesAt_eq {pre mid post : List UInt8} (h : s.bytes.toList = pre ++ mid ++ post)
    (hstart : place.start = pre.length) (hsize : place.size = mid.length) :
    s.bytesAt place = mid := by
  rw [bytesAt, h, hstart, hsize, List.append_assoc, List.drop_left, List.take_left]

/-- The bytes at a place in the code stand between others. -/
lemma exists_append_bytesAt (h : place.start + place.size ≤ s.size) :
    ∃ pre post, s.bytes.toList = pre ++ s.bytesAt place ++ post ∧ pre.length = place.start ∧
      (s.bytesAt place).length = place.size := by
  refine ⟨s.bytes.toList.take place.start, s.bytes.toList.drop (place.start + place.size), ?_⟩
  rw [size_eq_length] at h
  refine ⟨?_, by rw [List.length_take]; omega, by
    rw [bytesAt, List.length_take, List.length_drop]; omega⟩
  rw [bytesAt, ← List.drop_drop, List.append_assoc, List.take_append_drop, List.take_append_drop]

/-- More bytes behind do not change those at a place. -/
lemma bytesAt_of_append {bs : List UInt8} (happend : s'.bytes.toList = s.bytes.toList ++ bs)
    (h : place.start + place.size ≤ s.size) : s'.bytesAt place = s.bytesAt place := by
  obtain ⟨pre, post, hbytes, hpre, hlen⟩ := exists_append_bytesAt h
  have hbytes' : s'.bytes.toList = pre ++ s.bytesAt place ++ (post ++ bs) := by
    rw [happend, hbytes]
    simp
  exact bytesAt_eq hbytes' hpre.symm hlen.symm

/-- Other bytes further in front do not change those at a place. -/
lemma bytesAt_of_replace {pre mid mid' post : List UInt8} (h : s.bytes.toList = pre ++ mid ++ post)
    (h' : s'.bytes.toList = pre ++ mid' ++ post) (hlen : mid'.length = mid.length)
    (hle : pre.length + mid.length ≤ place.start) : s'.bytesAt place = s.bytesAt place := by
  have hdrop : ∀ m : List UInt8, m.length = mid.length →
      (pre ++ m ++ post).drop place.start =
        post.drop (place.start - (pre.length + mid.length)) := by
    intro m hm
    rw [List.drop_append, List.drop_eq_nil_of_le (by rw [List.length_append]; omega),
      List.length_append, hm, List.nil_append]
  rw [bytesAt, bytesAt, h, h', hdrop mid rfl, hdrop mid' hlen]

/-- The bytes at a place depend on what comes up to its end only. -/
lemma bytesAt_of_take (h : s'.bytes.toList.take (place.start + place.size) =
    s.bytes.toList.take (place.start + place.size)) : s'.bytesAt place = s.bytesAt place := by
  rw [bytesAt, bytesAt, List.take_drop, h, List.take_drop]

end Segment

namespace Assembly

/-- The lines that were accepted so far. -/
def lines (a : Assembly) : List Line :=
  a.records.toList.filterMap Record.line?

lemma lines_record (a : Assembly) (l : Line) : (a.record (.line l)).lines = a.lines ++ [l] := by
  simp [lines, record, Record.line?]

lemma lines_accept (a : Assembly) (location : Location) (label : Option Token)
    (statement : Statement) (comment : Option Token) :
    (a.accept location label statement comment).lines =
      a.lines ++ [a.lineOf location label statement comment] := by
  rw [accept_eq, lines_record, lines, execute_records]
  rfl

lemma lines_warnAfterEnd (a : Assembly) (rest : List SourceLine) :
    (a.warnAfterEnd rest).lines = a.lines := by
  simp [lines]

lemma assignedNames_accept (a : Assembly) (location : Location) (label : Option Token)
    (statement : Statement) (comment : Option Token) :
    assignedNames (a.accept location label statement comment).lines =
      assignedNames a.lines ++ (assignedBy label statement).toList := by
  rw [lines_accept, assignedNames, List.filterMap_append, List.filterMap_cons, assigned_lineOf]
  cases assignedBy label statement <;> rfl

/-- What is known after some lines without an error: the processor in force, the variables, that
the lines have their places one behind the other, and where each of them comes from. -/
structure Traces (start : Cpu) (done : List SourceLine) (a : Assembly) : Prop where
  cpu : a.cpu = Reference.cpuAfter start done
  sets : ∀ name s, a.symbols.get? name = some s → s.kind = .set →
    Text.upper name ∈ assignedNames a.lines
  ordered : a.lines.Pairwise fun l l' => l.place.start + l.place.size ≤ l'.place.start
  inside : ∀ l ∈ a.lines, l.place.start + l.place.size ≤ a.code.size
  origin : ∀ l ∈ a.lines, ∃ before line after, done = before ++ line :: after ∧
    line.body.head?.map Token.location = some l.location ∧
    ∀ symbols, a.symbols.Extends symbols →
      Patching.Completes symbols l.place l.operands 0 (a.code.bytesAt l.place)
        (Reference.line symbols l.place.address (Reference.cpuAfter start before) line)

lemma traces_start (cpu : Cpu) : Traces cpu [] ({ cpu } : Assembly) := by
  refine ⟨rfl, ?_, .nil, ?_, ?_⟩
  · intro name s hs
    cases hs
  · simp [lines]
  · simp [lines]

lemma cpuAfter_concat (cpu : Cpu) (done : List SourceLine) (line : SourceLine) :
    Reference.cpuAfter cpu (done ++ [line]) =
      Reference.cpuAfterLine (Reference.cpuAfter cpu done) line := by
  simp [Reference.cpuAfter]

lemma cpuAfterLine_of_read {cpu : Cpu} {line : SourceLine} {label comment : Option Token}
    {statement : Statement} (h : line.read cpu = .accepted label statement comment) :
    Reference.cpuAfterLine cpu line = Assembly.cpuAfter cpu statement := by
  rw [Reference.cpuAfterLine, h]
  cases statement <;> rfl

lemma read_of_body_eq_nil (cpu : Cpu) {line : SourceLine} (h : line.body = []) :
    line.read cpu = .accepted none (.empty line.stop.location) none := by
  simp only [SourceLine.read, h]
  rfl

/-- An accepted line comes behind the lines that are known. -/
lemma Traces.accept {start : Cpu} {done : List SourceLine} {a : Assembly} {line : SourceLine}
    {first : Token} {label comment : Option Token} {statement : Statement}
    (h : Traces start done a) (hfirst : line.body.head? = some first)
    (hread : line.read a.cpu = .accepted label statement comment)
    (hclean : (a.accept first.location label statement comment).log.errors = a.log.errors)
    (hnodup : (assignedNames (a.accept first.location label statement comment).lines).Nodup) :
    Traces start (done ++ [line]) (a.accept first.location label statement comment) := by
  have hclean' : (a.execute a.code.locationCounter label statement).1.log.errors = a.log.errors :=
    hclean
  -- The variable of the line is new, since no name is assigned twice.
  have hnew : ∀ name s, assignedBy label statement = some (Text.upper name) →
      a.symbols.get? name = some s → s.kind ≠ .set := by
    intro name s hname hs hkind
    rw [assignedNames_accept, hname, List.nodup_append] at hnodup
    exact hnodup.2.2 _ (h.sets name s hs hkind) _ (by simp) rfl
  have hgains := gains_execute hclean' hnew
  obtain ⟨gap, bytes, hcode, hstart, hsize, hcompletes⟩ :=
    @places_execute a first.location label comment statement
      (SourceLine.belongsTo_of_read hread) hclean'
  have hgrown : (a.accept first.location label statement comment).code.bytes.toList =
      a.code.bytes.toList ++ (gap ++ bytes) := by
    rw [← List.append_assoc]
    exact hcode
  have hend : (a.accept first.location label statement comment).code.size =
      a.code.size + gap.length + bytes.length := by
    rw [Segment.size_eq_length, hgrown, List.length_append, List.length_append,
      ← Segment.size_eq_length, Nat.add_assoc]
  refine ⟨?_, ?_, ?_, ?_, ?_⟩
  · rw [cpuAfter_concat, ← h.cpu, cpuAfterLine_of_read hread]
    exact a.execute_cpu _ _ _
  · intro name s hs hkind
    rw [assignedNames_accept, List.mem_append, Option.mem_toList]
    exact (hgains.sets name s hs hkind).imp (fun hs => h.sets name s hs hkind) id
  · rw [lines_accept, List.pairwise_append]
    refine ⟨h.ordered, List.pairwise_singleton _ _, ?_⟩
    intro l hl l' hl'
    obtain rfl := List.mem_singleton.mp hl'
    have hinside := h.inside l hl
    omega
  · intro l hl
    rw [lines_accept, List.mem_append, List.mem_singleton] at hl
    rcases hl with hl | rfl
    · have hinside := h.inside l hl
      omega
    · omega
  · intro l hl
    rw [lines_accept, List.mem_append, List.mem_singleton] at hl
    rcases hl with hl | rfl
    · obtain ⟨before, line', after, rfl, hlocation, hcompletes'⟩ := h.origin l hl
      refine ⟨before, line', after ++ [line], by simp, hlocation, ?_⟩
      intro symbols hext
      rw [Segment.bytesAt_of_append hgrown (h.inside l hl)]
      exact hcompletes' symbols (hgains.keeps.trans hext)
    · refine ⟨done, line, [], rfl, by rw [hfirst]; rfl, ?_⟩
      intro symbols hext
      have hbytes : (a.accept first.location label statement comment).code.bytesAt
          (a.lineOf first.location label statement comment).place = bytes := by
        refine Segment.bytesAt_eq (hcode.trans (List.append_nil _).symm) ?_ hsize
        rw [hstart, List.length_append, Segment.size_eq_length]
      rw [hbytes, ← h.cpu, Reference.line, hread]
      exact hcompletes symbols hext

/-- One line without an error keeps what is known. -/
lemma Traces.step {start : Cpu} {done : List SourceLine} {a : Assembly} {line : SourceLine}
    (h : (assignedNames a.lines).Nodup → Traces start done a)
    (hclean : (a.step line).log.errors = a.log.errors)
    (hnodup : (assignedNames (a.step line).lines).Nodup) :
    Traces start (done ++ [line]) (a.step line) := by
  rcases a.step_cases hclean with
    ⟨hbody, heq⟩ | ⟨first, label, statement, comment, hfirst, hread, heq⟩
  · rw [heq] at hnodup ⊢
    have hknown := h hnodup
    have hcpu : Reference.cpuAfter start (done ++ [line]) = Reference.cpuAfter start done := by
      rw [cpuAfter_concat, cpuAfterLine_of_read (read_of_body_eq_nil _ hbody)]
      rfl
    refine ⟨hknown.cpu.trans hcpu.symm, hknown.sets, hknown.ordered, hknown.inside, ?_⟩
    intro l hl
    obtain ⟨before, line', after, rfl, horigin⟩ := hknown.origin l hl
    exact ⟨before, line', after ++ [line], by simp, horigin⟩
  · rw [heq] at hclean hnodup ⊢
    have hprefix : (assignedNames a.lines).Nodup := by
      rw [assignedNames_accept] at hnodup
      exact (List.nodup_append.mp hnodup).1
    exact (h hprefix).accept hfirst hread hclean hnodup

/-- What is known after lines without an error that assign no variable twice. -/
lemma traces_steps {start : Cpu} {lines : List SourceLine}
    (hclean : (({ cpu := start } : Assembly).steps lines).log.errors = 0)
    (hnodup : (assignedNames (({ cpu := start } : Assembly).steps lines).lines).Nodup) :
    Traces start lines (({ cpu := start } : Assembly).steps lines) := by
  refine steps_induction (P := fun done a => (assignedNames a.lines).Nodup → Traces start done a)
    ({ cpu := start } : Assembly) (fun _ => traces_start start) ?_ hclean hnodup
  intro done b line hb hb' hnodup'
  exact Traces.step hb hb' hnodup'

end Assembly

/-! ### The last pass -/

namespace Patching

variable {symbols : SymbolTable}

/-- The last pass completes the bytes of every line, and does not touch what comes in front of all
of them. -/
lemma resolveRecords_completes {rs : List Record} (p : Patching)
    (hordered : (rs.filterMap Record.line?).Pairwise fun l l' =>
      l.place.start + l.place.size ≤ l'.place.start)
    (hinside : ∀ l ∈ rs.filterMap Record.line?, l.place.start + l.place.size ≤ p.code.size)
    (hcompletes : ∀ l ∈ rs.filterMap Record.line?, ∃ expected,
      Completes symbols l.place l.operands 0 (p.code.bytesAt l.place) expected)
    (hclean : (p.resolveRecords symbols rs).2.log.errors = p.log.errors) :
    (∀ l ∈ rs.filterMap Record.line?, ∀ expected,
      Completes symbols l.place l.operands 0 (p.code.bytesAt l.place) expected →
        expected = some ((p.resolveRecords symbols rs).2.code.bytesAt l.place)) ∧
      ∀ k, (∀ l ∈ rs.filterMap Record.line?, k ≤ l.place.start) →
        (p.resolveRecords symbols rs).2.code.bytes.toList.take k = p.code.bytes.toList.take k := by
  induction rs generalizing p with
  | nil => exact ⟨by simp, fun _ _ => rfl⟩
  | cons r rs ih =>
    cases r with
    | remnant r => exact ih p hordered hinside hcompletes hclean
    | line l =>
      simp only [List.filterMap_cons, Record.line?, List.pairwise_cons, List.forall_mem_cons]
        at hordered hinside hcompletes ⊢
      obtain ⟨pre, post, hbytes, hpre, hlen⟩ := Segment.exists_append_bytesAt hinside.1
      have hle := p.errors_le_resolveOperands symbols l.place l.operands
      have hle' := (p.resolveOperands symbols l.place l.operands).2.errors_le_resolveRecords
        symbols rs
      have hextent := p.resolveOperands_extent symbols l.place l.operands
      have hfinal : (p.resolveRecords symbols (.line l :: rs)).2 =
          ((p.resolveOperands symbols l.place l.operands).2.resolveRecords symbols rs).2 := rfl
      rw [hfinal] at hclean ⊢
      -- What the operands of this line do, whatever is expected of them.
      have hline : ∀ expected,
          Completes symbols l.place l.operands 0 (p.code.bytesAt l.place) expected →
          ∃ new, expected = some new ∧ new.length = (p.code.bytesAt l.place).length ∧
            (p.resolveOperands symbols l.place l.operands).2.code.bytes.toList =
              pre ++ new ++ post :=
        fun expected h => h p pre post hbytes hpre (by omega)
      obtain ⟨expected, hexpected⟩ := hcompletes.1
      obtain ⟨new, -, hnewlen, hnew⟩ := hline expected hexpected
      -- The lines behind have the same bytes as before.
      have hsame : ∀ l' ∈ rs.filterMap Record.line?,
          (p.resolveOperands symbols l.place l.operands).2.code.bytesAt l'.place =
            p.code.bytesAt l'.place := by
        intro l' hl'
        have hbehind := hordered.1 l' hl'
        exact Segment.bytesAt_of_replace hbytes hnew hnewlen (by omega)
      have hinside' : ∀ l' ∈ rs.filterMap Record.line?, l'.place.start + l'.place.size ≤
          (p.resolveOperands symbols l.place l.operands).2.code.size := by
        rw [hextent.size]
        exact hinside.2
      have hcompletes' : ∀ l' ∈ rs.filterMap Record.line?, ∃ expected,
          Completes symbols l'.place l'.operands 0
            ((p.resolveOperands symbols l.place l.operands).2.code.bytesAt l'.place) expected := by
        intro l' hl'
        rw [hsame l' hl']
        exact hcompletes.2 l' hl'
      obtain ⟨hrest, hfront⟩ := ih (p.resolveOperands symbols l.place l.operands).2 hordered.2
        hinside' hcompletes' (by omega)
      refine ⟨⟨?_, ?_⟩, ?_⟩
      · intro expected' hexpected'
        obtain ⟨new', rfl, hnewlen', hnew'⟩ := hline expected' hexpected'
        have hkept := Segment.bytesAt_of_take (hfront _ hordered.1)
        rw [hkept, Segment.bytesAt_eq hnew' hpre.symm (by omega)]
      · intro l' hl' expected' hexpected'
        exact hrest l' hl' expected' (by rw [hsame l' hl']; exact hexpected')
      · rintro k ⟨hk, hk'⟩
        rw [hfront k hk', hnew, hbytes, List.append_assoc, List.append_assoc,
          List.take_append_of_le_length (by omega), List.take_append_of_le_length (by omega)]

/-- A line without its operands, which are all that the last pass changes of it. -/
def outline (l : Line) : Line := { l with operands := [] }

lemma map_outline_resolveRecords (p : Patching) (rs : List Record) :
    ((p.resolveRecords symbols rs).1.filterMap Record.line?).map outline =
      (rs.filterMap Record.line?).map outline := by
  induction rs generalizing p with
  | nil => rfl
  | cons r rs ih =>
    cases r with
    | remnant r => exact ih p
    | line l =>
      have hrest := ih (p.resolveOperands symbols l.place l.operands).2
      simp only [resolveRecords, List.filterMap_cons, Record.line?, List.map_cons, hrest]
      rfl

end Patching

namespace Assembly

variable {start : Cpu} {done : List SourceLine} {a : Assembly}

lemma Traces.warnAfterEnd (h : Traces start done a) (rest : List SourceLine) :
    Traces start done (a.warnAfterEnd rest) := by
  obtain ⟨hcpu, hsymbols, hcode, -⟩ := a.warnAfterEnd_frame rest
  refine ⟨hcpu.trans h.cpu, ?_, ?_, ?_, ?_⟩
  · rw [hsymbols, lines_warnAfterEnd]
    exact h.sets
  · rw [lines_warnAfterEnd]
    exact h.ordered
  · rw [lines_warnAfterEnd, hcode]
    exact h.inside
  · rw [lines_warnAfterEnd, hsymbols, hcode]
    exact h.origin

lemma map_outline_resolved (a : Assembly) :
    (a.resolved.1.filterMap Record.line?).map Patching.outline = a.lines.map Patching.outline :=
  Patching.map_outline_resolveRecords _ _

/-- The variables that are assigned do not depend on operands. -/
lemma assignedNames_resolved (a : Assembly) :
    assignedNames (a.resolved.1.filterMap Record.line?) = assignedNames a.lines := by
  have hassigned : Line.assigned = Line.assigned ∘ Patching.outline := rfl
  rw [assignedNames, assignedNames, hassigned, ← List.filterMap_map, map_outline_resolved,
    List.filterMap_map]

/-- After a last pass without an error every line has the bytes of the reference encoder. -/
lemma Traces.bytesAt_resolved (h : Traces start done a)
    (hclean : a.resolved.2.log.errors = a.log.errors) {l : Line}
    (hl : l ∈ a.resolved.1.filterMap Record.line?) :
    ∃ before line after, done = before ++ line :: after ∧
      line.body.head?.map Token.location = some l.location ∧
      l.place.start + l.place.size ≤ a.resolved.2.code.size ∧
      Reference.line a.symbols l.place.address (Reference.cpuAfter start before) line =
        some (a.resolved.2.code.bytesAt l.place) := by
  have hmem : Patching.outline l ∈ a.lines.map Patching.outline := by
    rw [← map_outline_resolved]
    exact List.mem_map_of_mem hl
  obtain ⟨l', hl', houtline⟩ := List.mem_map.mp hmem
  have hplace : l'.place = l.place := by
    show (Patching.outline l').place = (Patching.outline l).place
    rw [houtline]
  have hlocation : l'.location = l.location := by
    show (Patching.outline l').location = (Patching.outline l).location
    rw [houtline]
  rw [← hplace, ← hlocation, a.resolved_extent.size]
  obtain ⟨before, line, after, hdone, hfirst, hcompletes⟩ := h.origin l' hl'
  have hall : ∀ l ∈ a.lines, ∃ expected,
      Patching.Completes a.symbols l.place l.operands 0 (a.code.bytesAt l.place) expected := by
    intro l hl
    obtain ⟨before, line, after, -, -, hcompletes⟩ := h.origin l hl
    exact ⟨_, hcompletes _ (SymbolTable.Extends.refl _)⟩
  have hpass := Patching.resolveRecords_completes ⟨a.code, a.log⟩ h.ordered h.inside hall hclean
  exact ⟨before, line, after, hdone, hfirst, h.inside l' hl',
    hpass.1 l' hl' _ (hcompletes _ (SymbolTable.Extends.refl _))⟩

end Assembly

/-- In a unit without errors in which no variable is assigned twice, every line has the bytes that
the reference encoder gives for its tokens, with the processor in force on the line and the symbols
at the end, wherever they were defined. -/
theorem bytesAt_eq_reference (cpu : Cpu) (moduleName source : String)
    (hclean : (assemble cpu moduleName source).2.errors = 0)
    (hnodup : (assignedNames (assemble cpu moduleName source).1.lines).Nodup) (l : Line)
    (hl : l ∈ (assemble cpu moduleName source).1.lines) :
    ∃ before line after code, SourceLine.ofText source = before ++ line :: after ∧
      line.body.head?.map Token.location = some l.location ∧
      (assemble cpu moduleName source).1.object.get? .code = some code ∧
      l.place.start + l.place.size ≤ code.size ∧
      Reference.line (assemble cpu moduleName source).1.symbols l.place.address
        (Reference.cpuAfter cpu before) line = some (code.bytesAt l.place) := by
  obtain ⟨done, rest, hsource, hfinish, hsteps⟩ := assemble_eq_finish cpu moduleName source
  have hclean' := hsteps hclean
  have herrors := (({ cpu } : Assembly).steps done).errors_warnAfterEnd rest
  rw [hfinish, Assembly.finish_eq] at hclean hnodup hl ⊢
  have hnodup' : (assignedNames (({ cpu } : Assembly).steps done).lines).Nodup := by
    rw [← Assembly.lines_warnAfterEnd _ rest, ← Assembly.assignedNames_resolved]
    exact hnodup
  have htraces := Assembly.traces_steps hclean' hnodup'
  obtain ⟨before, line, after, rfl, hfirst, hinside, hreference⟩ :=
    (htraces.warnAfterEnd rest).bytesAt_resolved (hclean.trans (herrors.trans hclean').symm) hl
  exact ⟨before, line, after ++ rest, _, by rw [hsource]; simp, hfirst, rfl, hinside, hreference⟩

/-- A unit whose symbols are defined behind the lines that use them. -/
theorem bytesAt_eq_reference_of_forward_symbol :
    ∃ l ∈ (assemble .intel8080 "MAIN" "JMP X\nDB 'ab',X,$\nX: RST 3").1.lines,
      l.statement.kind = .opcode ∧ l.place.start = 0 ∧
      ∃ before line after code,
        SourceLine.ofText "JMP X\nDB 'ab',X,$\nX: RST 3" = before ++ line :: after ∧
        line.body.head?.map Token.location = some l.location ∧
        (assemble .intel8080 "MAIN" "JMP X\nDB 'ab',X,$\nX: RST 3").1.object.get? .code =
          some code ∧
        l.place.start + l.place.size ≤ code.size ∧
        Reference.line (assemble .intel8080 "MAIN" "JMP X\nDB 'ab',X,$\nX: RST 3").1.symbols
          l.place.address (Reference.cpuAfter .intel8080 before) line =
            some (code.bytesAt l.place) := by
  have hline : ∃ l ∈ (assemble .intel8080 "MAIN" "JMP X\nDB 'ab',X,$\nX: RST 3").1.lines,
      l.statement.kind = .opcode ∧ l.place.start = 0 := by
    decide +kernel
  obtain ⟨l, hl, hkind, hstart⟩ := hline
  exact ⟨l, hl, hkind, hstart,
    bytesAt_eq_reference _ _ _ (by decide +kernel) (by decide +kernel) l hl⟩

end MicroAsm
