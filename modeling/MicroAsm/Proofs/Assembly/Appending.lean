import MicroAsm.Proofs.Assembly.Ending
import MicroAsm.Proofs.Assembly.Mirroring
import MicroAsm.Proofs.Assembly.Tiling
import MicroAsm.Proofs.Likeness.Assembly

/-!
# Text appended to a unit

Text behind a unit that was assembled without a message does not reach back. Its lines find the
symbols, the code and the lines of the unit as they were left, and only add to them, as long as no
variable is assigned again. The last pass finds more symbols and a longer code then, but a value of
the unit had all of its symbols before, so it comes out the same.
-/

namespace MicroAsm

open List (Forall₂)

/-! ### Lines that add to what there is -/

lemma Reader.exists_set_of_readStatement {cpu : Cpu} {stop : Token} {ts rest : List Token}
    {location : Location} {v : Value}
    (h : readStatement cpu stop ts = .ok (.assign .set location v, rest)) :
    ∃ t ∈ ts, t.kind = .set := by
  cases ts with
  | nil => cases h
  | cons t ts =>
    simp only [readStatement] at h
    split at h
    · cases h
    · split at h <;> cases h
    · rename_i hkind
      exact ⟨t, List.mem_cons_self, hkind⟩
    · split at h <;> cases h
    · obtain ⟨name, heq⟩ := cpu_of_readCpu h
      cases heq
    · split at h <;> cases h
    · obtain ⟨items, heq⟩ := data_of_readData h
      cases heq
    · obtain ⟨items, heq⟩ := data_of_readData h
      cases heq
    · split at h
      · obtain ⟨arguments, heq, -⟩ := instruction_of_readInstruction h
        cases heq
      · cases h
      · cases h
    · cases h

/-- An assignment of a variable takes its keyword. -/
lemma SourceLine.exists_set_of_read {cpu : Cpu} {line : SourceLine} {label comment : Option Token}
    {location : Location} {v : Value}
    (h : line.read cpu = .accepted label (.assign .set location v) comment) :
    ∃ t ∈ line.body, t.kind = .set := by
  have hset : ∃ t ∈ (Reader.readLabel line.body).2, t.kind = .set := by
    simp only [read] at h
    split at h
    · cases h
    · rename_i hread
      cases h
      exact Reader.exists_set_of_readStatement hread
    · rename_i hread
      cases h
      exact Reader.exists_set_of_readStatement hread
    · cases h
  obtain ⟨t, ht, hkind⟩ := hset
  exact ⟨t, (Reader.readLabel_suffix line.body).subset ht, hkind⟩

lemma SymbolTable.extends_add {t t' : SymbolTable} {name : String} {value : UInt16}
    {kind : SymbolKind} (h : t.add name value kind = .ok t') : t.Extends t' := by
  obtain ⟨hnew, rfl⟩ := add_eq_ok h
  exact extends_insert hnew

namespace Assembly

variable {a b c : Assembly}

/-- The symbols, the code and the lines of the first state are all there in the second, and no
line that came later waits for a byte of the first. -/
structure Grows (a b : Assembly) : Prop where
  symbols : a.symbols.Extends b.symbols
  code : a.code.bytes.toList <+: b.code.bytes.toList
  lines : ∃ ls, b.lines = a.lines ++ ls ∧ ∀ l ∈ ls, ∀ s ∈ l.slots, a.code.size ≤ s.index

lemma Grows.refl (a : Assembly) : Grows a a :=
  ⟨.refl _, List.prefix_refl _, [], (List.append_nil _).symm, by simp⟩

lemma Grows.trans (h : Grows a b) (h' : Grows b c) : Grows a c := by
  obtain ⟨ls, hls, hslots⟩ := h.lines
  obtain ⟨ls', hls', hslots'⟩ := h'.lines
  have hle : a.code.size ≤ b.code.size := h.code.length_le
  refine ⟨h.symbols.trans h'.symbols, h.code.trans h'.code, ls ++ ls', ?_, ?_⟩
  · rw [hls', hls, List.append_assoc]
  · rw [List.forall_mem_append]
    exact ⟨hslots, fun l hl s hs => Nat.le_trans hle (hslots' l hl s hs)⟩

variable {label comment : Option Token} {statement : Statement}

lemma extends_withSymbols {result : Except SymbolError SymbolTable}
    (h : ∀ symbols, result = .ok symbols → a.symbols.Extends symbols) (location : Location) :
    a.symbols.Extends (a.withSymbols result location).symbols := by
  cases result with
  | ok symbols => exact h symbols rfl
  | error e => exact .refl _

lemma extends_defineLabel (a : Assembly) (label : Option Token) (value : UInt16) :
    a.symbols.Extends (a.defineLabel label value).symbols := by
  cases label with
  | none => exact .refl _
  | some t => exact extends_withSymbols (fun _ => SymbolTable.extends_add) _

lemma extends_assign (a : Assembly) {how : Assignment} (hset : how ≠ .set) (location : Location)
    (label : Option Token) (value : Option UInt16) :
    a.symbols.Extends (a.assign how location label value).symbols := by
  cases label with
  | none => exact .refl _
  | some t =>
    cases value with
    | none => exact .refl _
    | some v =>
      cases how with
      | equ => exact extends_withSymbols (fun _ => SymbolTable.extends_add) _
      | set => exact absurd rfl hset

lemma extends_execute (here : UInt16) (label : Option Token)
    (hset : ∀ location v, statement ≠ .assign .set location v) :
    a.symbols.Extends (a.execute here label statement).1.symbols := by
  have hlabel := a.extends_defineLabel label here
  cases statement with
  | empty location | endUnit location => exact hlabel
  | cpu location name =>
    simp only [execute]
    split <;> exact hlabel
  | org location origin =>
    -- The label is defined last, with the same symbols as before the move.
    have hlast : ∀ b : Assembly, b.symbols = a.symbols →
        a.symbols.Extends (b.defineLabel label b.code.locationCounter).symbols := by
      intro b hsymbols
      have hdefined := b.extends_defineLabel label b.code.locationCounter
      rwa [hsymbols] at hdefined
    simp only [execute]
    split
    · exact hlast _ (moveTo_frame _ _ _).2.1
    · exact hlast _ rfl
  | assign how location v =>
    exact (a.report _).extends_assign (fun heq => hset location v (by rw [heq])) _ _ _
  | data width location items =>
    simp only [execute, (put_frame _ _ _).2.1]
    exact hlabel
  | instruction i location arguments =>
    simp only [execute, (put_frame _ _ _).2.1]
    exact hlabel

lemma extends_examine (here : UInt16) (label : Option Token) (fragment : Fragment) :
    a.symbols.Extends (a.examine here label fragment).1.symbols := by
  have hlabel := a.extends_defineLabel label here
  cases fragment with
  | nothing | data width location items | instruction i location arguments => exact hlabel
  | org location | assign how location => exact .refl _

lemma grows_step {line : SourceLine} (hset : ∀ t ∈ line.body, t.kind ≠ .set) :
    Grows a (a.step line) := by
  rcases a.step_eq_cases line with
    ⟨-, heq⟩ | ⟨first, label, statement, comment, -, hread, heq⟩ |
      ⟨first, label, fragment, failure, -, -, heq⟩
  · rw [heq]
    exact .refl a
  · have hstatement : ∀ location v, statement ≠ .assign .set location v := by
      rintro location v rfl
      obtain ⟨t, ht, hkind⟩ := SourceLine.exists_set_of_read hread
      exact hset t ht hkind
    obtain ⟨bytes, hbytes⟩ := @exists_toList_execute a label statement
    obtain ⟨-, hslots⟩ := @reserves_execute a label comment first.location statement
      (SourceLine.belongsTo_of_read hread)
    rw [heq]
    refine ⟨extends_execute _ _ hstatement, ?_, _, lines_accept _ _ _ _ _, ?_⟩
    · rw [List.append_assoc] at hbytes
      exact ⟨_, hbytes.symm⟩
    · rw [List.forall_mem_singleton]
      exact hslots.first_le
  · rw [heq]
    refine ⟨?_, ⟨[], ?_⟩, [], ?_, by simp⟩
    · rw [reject_eq]
      exact extends_examine _ _ _
    · rw [(reject_frame _ _ _ _).2.1, List.append_nil]
    · simp [lines, Record.line?]

lemma grows_warnAfterEnd (a : Assembly) (rest : List SourceLine) :
    Grows a (a.warnAfterEnd rest) := by
  obtain ⟨-, hsymbols, hcode, -⟩ := a.warnAfterEnd_frame rest
  refine ⟨?_, ⟨[], ?_⟩, [], ?_, by simp⟩
  · rw [hsymbols]
    exact .refl _
  · rw [hcode, List.append_nil]
  · rw [lines_warnAfterEnd, List.append_nil]

/-- Lines without an assignment of a variable only add to what there is. -/
lemma grows_run {rest : List SourceLine} (hset : ∀ line ∈ rest, ∀ t ∈ line.body, t.kind ≠ .set) :
    Grows a (a.run rest) := by
  induction rest generalizing a with
  | nil => exact .refl a
  | cons line rest ih =>
    rw [List.forall_mem_cons] at hset
    rw [run]
    split
    · exact a.grows_warnAfterEnd _
    · exact (grows_step hset.1).trans (ih hset.2)

end Assembly

/-! ### The last pass over the lines of the unit -/

namespace Patching

variable {symbols symbols' : SymbolTable} {post : List UInt8} {p p' q q' : Patching}

/-- From `q` to `q'` nothing is reported, and the code has become that of `p'` with `post` behind
it. -/
structure Repeats (post : List UInt8) (p' q q' : Patching) : Prop where
  log : q'.log = q.log
  code : q'.code.bytes.toList = p'.code.bytes.toList ++ post

lemma eq_of_messages_reportAll {log : Log} {ms : List Message}
    (h : (log.reportAll ms).messages = #[]) : log.messages = #[] ∧ ms = [] := by
  have hlist := log.messages_reportAll ms
  rw [h] at hlist
  obtain ⟨hlog, hms⟩ := List.append_eq_nil_iff.mp hlist.symm
  exact ⟨Array.toList_eq_nil_iff.mp hlog, hms⟩

lemma quiet_of_write {index : Nat} {bytes : List UInt8} {location : Location}
    (h : (p.write index bytes location).log.messages = #[]) : p.log.messages = #[] := by
  obtain ⟨code, ms, hwrite⟩ := write_log_reportAll p.code index bytes location
  rw [hwrite p.log] at h
  exact (eq_of_messages_reportAll h).1

lemma quiet_of_resolveOperands {place : Placement} {os : List OperandNode}
    (h : (p.resolveOperands symbols place os).2.log.messages = #[]) : p.log.messages = #[] := by
  obtain ⟨os', code, ms, hresolve⟩ := resolveOperands_log_reportAll p.code symbols place os
  rw [hresolve p.log] at h
  exact (eq_of_messages_reportAll h).1

lemma quiet_of_resolveRecords {rs : List Record}
    (h : (p.resolveRecords symbols rs).2.log.messages = #[]) : p.log.messages = #[] := by
  obtain ⟨rs', code, ms, hresolve⟩ := resolveRecords_log_reportAll p.code symbols rs
  rw [hresolve p.log] at h
  exact (eq_of_messages_reportAll h).1

lemma repeats_write (hcode : q.code.bytes.toList = p.code.bytes.toList ++ post) {index : Nat}
    {bytes : List UInt8} {location : Location}
    (hquiet : (p.write index bytes location).log.messages = #[]) :
    Repeats post (p.write index bytes location) q (q.write index bytes location) := by
  by_cases hle : index + bytes.length ≤ p.code.size
  · obtain ⟨pre, tail, hp, hpre, hold⟩ :=
      @Segment.exists_append_bytesAt p.code { start := index, size := bytes.length } hle
    obtain rfl : pre.length = index := hpre
    have hq := hcode
    rw [hp, List.append_assoc] at hq
    refine ⟨?_, ?_⟩
    · rw [write, Segment.patch?_eq_some hq hold]
    · rw [toList_write location hp hold, toList_write location hq hold, List.append_assoc _ tail]
  · -- A patch that does not fit is reported.
    have hnone : p.code.patch? index bytes = none := if_neg hle
    have hwrite : (p.write index bytes location).log = p.log.reportAll
        [⟨.exception, .none, "fixup out of bounds at " ++ location.text⟩] := by
      rw [write, hnone]
      rfl
    rw [hwrite] at hquiet
    cases (eq_of_messages_reportAll hquiet).2

lemma repeats_resolveOperand (hext : symbols.Extends symbols')
    (hcode : q.code.bytes.toList = p.code.bytes.toList ++ post) {place : Placement}
    {o : OperandNode} (hquiet : (p.resolveOperand symbols place o).2.log.messages = #[]) :
    Repeats post (p.resolveOperand symbols place o).2 q (q.resolveOperand symbols' place o).2 ∧
      o.resolved symbols' place.address = o.resolved symbols place.address := by
  rw [OperandNode.resolved, OperandNode.resolved]
  rw [resolveOperand] at hquiet ⊢
  rw [resolveOperand]
  cases hdeferred : o.deferred with
  | none => exact ⟨⟨rfl, hcode⟩, rfl⟩
  | some d =>
    simp only [hdeferred] at hquiet ⊢
    cases heval : d.expr.eval symbols place.address with
    | error name =>
      have hreport : (p.log.reportAll [undefinedSymbol name o.node.location]).messages = #[] := by
        rwa [heval] at hquiet
      cases (eq_of_messages_reportAll hreport).2
    | ok n =>
      rw [heval] at hquiet
      rw [Expr.eval_mono hext heval]
      simp only at hquiet ⊢
      generalize (checkRange d.width.bits n o.node.location).2 = messages at hquiet ⊢
      have hrepeats := @repeats_write post { p with log := p.log.reportAll messages }
        { q with log := q.log.reportAll messages } hcode _ _ _ hquiet
      obtain ⟨-, rfl⟩ := eq_of_messages_reportAll (quiet_of_write hquiet)
      exact ⟨hrepeats, trivial⟩

lemma repeats_resolveOperands (hext : symbols.Extends symbols')
    (hcode : q.code.bytes.toList = p.code.bytes.toList ++ post) {place : Placement}
    {os : List OperandNode} (hquiet : (p.resolveOperands symbols place os).2.log.messages = #[]) :
    Repeats post (p.resolveOperands symbols place os).2 q
        (q.resolveOperands symbols' place os).2 ∧
      ∀ o ∈ os, o.resolved symbols' place.address = o.resolved symbols place.address := by
  induction os generalizing p q with
  | nil => exact ⟨⟨rfl, hcode⟩, by simp⟩
  | cons o os ih =>
    obtain ⟨hfirst, hresolved⟩ :=
      repeats_resolveOperand hext hcode (o := o) (quiet_of_resolveOperands hquiet)
    obtain ⟨hrest, hresolved'⟩ := ih hfirst.code hquiet
    refine ⟨⟨hrest.log.trans hfirst.log, hrest.code⟩, ?_⟩
    rw [List.forall_mem_cons]
    exact ⟨hresolved, hresolved'⟩

/-- Lines that were resolved without a message are resolved the same with more symbols and more
code. -/
lemma repeats_resolveRecords (hext : symbols.Extends symbols')
    (hcode : q.code.bytes.toList = p.code.bytes.toList ++ post) {rs : List Record}
    (hquiet : (p.resolveRecords symbols rs).2.log.messages = #[]) :
    Repeats post (p.resolveRecords symbols rs).2 q (q.resolveRecords symbols' rs).2 ∧
      ∀ l ∈ rs.filterMap Record.line?, l.resolved symbols' = l.resolved symbols := by
  induction rs generalizing p q with
  | nil => exact ⟨⟨rfl, hcode⟩, by simp⟩
  | cons r rs ih =>
    cases r with
    | remnant r => exact ih hcode hquiet
    | line l =>
      obtain ⟨hfirst, hresolved⟩ :=
        repeats_resolveOperands hext hcode (quiet_of_resolveRecords hquiet)
      obtain ⟨hrest, hresolved'⟩ := ih hfirst.code hquiet
      refine ⟨⟨hrest.log.trans hfirst.log, hrest.code⟩, ?_⟩
      rw [List.filterMap_cons]
      simp only [Record.line?, List.forall_mem_cons]
      refine ⟨?_, hresolved'⟩
      rw [Line.resolved, Line.resolved, List.map_congr_left hresolved]

/-- The last pass does not touch what stands in front of all values that wait. -/
lemma take_resolveRecords (p : Patching) {rs : List Record} {n : Nat}
    (h : ∀ l ∈ rs.filterMap Record.line?, ∀ s ∈ l.slots, n ≤ s.index) :
    (p.resolveRecords symbols rs).2.code.bytes.toList.take n = p.code.bytes.toList.take n := by
  refine List.ext_getElem? fun k => ?_
  rw [List.getElem?_take, List.getElem?_take]
  split
  · rename_i hk
    rw [Array.getElem?_toList, Array.getElem?_toList]
    exact getElem?_resolveRecords p fun l hl s hs => Or.inl (Nat.lt_of_lt_of_le hk (h l hl s hs))
  · rfl

end Patching

/-! ### Places of messages -/

/-- Things are alike if they are the same and stand at a place with the property. -/
def Likeness.within (P : Location → Prop) (hnone : P .none) : Likeness where
  place l l' := l = l' ∧ P l
  spelled := True
  place_none := ⟨rfl, hnone⟩

section

variable {P : Location → Prop} {hnone : P .none}

lemma SourceLine.alike_within {line : SourceLine} (h : ∀ t ∈ line.tokens, P t.location) :
    line.Alike (.within P hnone) line := by
  have htoken : ∀ t ∈ line.tokens, t.Alike (.within P hnone) t :=
    fun t ht => ⟨rfl, fun _ => rfl, .refl _, rfl, h t ht⟩
  rw [tokens, List.forall_mem_append, List.forall_mem_singleton] at htoken
  exact ⟨List.forall₂_same.mpr htoken.1, htoken.2⟩

lemma Assembly.alike_within {a : Assembly} (h : a.log.messages = #[]) :
    a.Alike (.within P hnone) a := by
  refine ⟨rfl, ?_, rfl, ⟨?_, rfl, rfl, rfl⟩, rfl⟩
  · exact List.forall₂_same.mpr fun entry _ => ⟨rfl, .refl _, rfl, rfl⟩
  · rw [h]
    exact .nil

end

/-! ### Lines behind the lines of the unit -/

namespace Assembly

variable {a : Assembly} {lines rest : List SourceLine}

lemma run_of_open (h : (a.run lines).ended = false) :
    a.ended = false ∧ a.run lines = a.steps lines := by
  induction lines generalizing a with
  | nil => exact ⟨h, rfl⟩
  | cons line lines ih =>
    by_cases hended : a.ended = true
    · rw [run_of_ended a hended, (warnAfterEnd_frame _ _).2.2.2.2, hended] at h
      cases h
    · rw [Bool.not_eq_true] at hended
      rw [a.run_cons line lines hended] at h ⊢
      exact ⟨hended, (ih h).2⟩

/-- The first lines of a unit that is not ended leave a state in which any other lines may
follow. -/
lemma run_append {lines' : List SourceLine} (h : (a.run (lines ++ lines')).ended = false)
    (rest : List SourceLine) : a.run (lines ++ rest) = (a.steps lines).run rest := by
  induction lines generalizing a with
  | nil => rfl
  | cons line lines ih =>
    have hended := (run_of_open h).1
    rw [List.cons_append, a.run_cons line _ hended] at h
    rw [List.cons_append, a.run_cons line _ hended, ih h, steps_cons]

/-- The last pass over a unit that needs no message, after lines that assign no variable: the code
and the lines of the unit come out as they did without these lines, and every message is at a place
of one of their tokens, or at none. -/
lemma resolved_run (hquiet : a.resolved.2.log.messages = #[])
    (hset : ∀ line ∈ rest, ∀ t ∈ line.body, t.kind ≠ .set) {P : Location → Prop}
    (hnone : P .none) (hplace : ∀ line ∈ rest, ∀ t ∈ line.tokens, P t.location) :
    a.resolved.2.code.bytes.toList <+: (a.run rest).resolved.2.code.bytes.toList ∧
      a.resolved.1.filterMap Record.line? <+: (a.run rest).resolved.1.filterMap Record.line? ∧
      ∀ m ∈ (a.run rest).resolved.2.log.messages.toList, P m.location := by
  obtain ⟨hsymbols, ⟨post, hcode⟩, ls, hls, hslots⟩ := @grows_run a rest hset
  have hstart : a.Alike (.within P hnone) a :=
    alike_within (Patching.quiet_of_resolveRecords hquiet)
  have hadvance := hstart.run
    (List.forall₂_same.mpr fun line hline => SourceLine.alike_within (hplace line hline))
  obtain ⟨rs, rs', hrs, hrs', halike⟩ := hadvance.records
  obtain rfl : rs = rs' := List.append_cancel_left (hrs.symm.trans hrs')
  obtain rfl : rs.filterMap Record.line? = ls := by
    rw [lines, lines, hrs, List.filterMap_append] at hls
    exact List.append_cancel_left hls
  -- The pass over the records of the unit, with the code and the symbols of all lines.
  obtain ⟨hrepeats, hresolved⟩ := Patching.repeats_resolveRecords (p := ⟨a.code, a.log⟩)
    (q := ⟨(a.run rest).code, (a.run rest).log⟩) hsymbols hcode.symm hquiet
  have hpass : (a.run rest).resolved.2 =
      ((Patching.resolveRecords ⟨(a.run rest).code, (a.run rest).log⟩ (a.run rest).symbols
        a.records.toList).2.resolveRecords (a.run rest).symbols rs).2 := by
    rw [resolved, hrs, Patching.resolveRecords_append]
  generalize (Patching.resolveRecords ⟨(a.run rest).code, (a.run rest).log⟩ (a.run rest).symbols
    a.records.toList).2 = q at hrepeats hpass
  refine ⟨?_, ?_, ?_⟩
  · have hsize : a.code.size = a.resolved.2.code.bytes.toList.length :=
      a.resolved_extent.size.symm
    have hlonger : q.code.bytes.toList = a.resolved.2.code.bytes.toList ++ post := hrepeats.code
    have htake := @Patching.take_resolveRecords (a.run rest).symbols q _ _ hslots
    rw [hlonger, hsize, List.take_left, ← hpass] at htake
    exact List.prefix_iff_eq_take.mpr htake.symm
  · rw [resolved, resolved, Patching.lines_resolveRecords, Patching.lines_resolveRecords, hrs,
      List.filterMap_append, List.map_append, List.map_congr_left hresolved]
    exact List.prefix_append _ _
  · have hbehind : q.Alike (.within P hnone) q := by
      refine ⟨rfl, ?_⟩
      rw [hrepeats.log]
      exact hadvance.state.log
    have hshows : (Likeness.within P hnone).Shows := fun _ _ _ h => by rw [h.1]
    have hend := (hbehind.resolveRecords hadvance.state.symbols halike (Or.inr hshows)).2
    rw [hpass]
    intro m hm
    exact (List.forall₂_same.mp hend.log.messages m hm).place.2

end Assembly

/-! ### The lines of both texts -/

namespace SourceLine

/-- The lines of a source that ends with a line break, without and with text behind it. -/
lemma exists_lines_of_append {first : String} (hbreak : first.toList.getLast? = some '\n')
    (second : String) :
    ∃ front blank l, blank.body = [] ∧ ofText first = front ++ [blank] ∧
      ofText (first ++ second) = front ++ ofScanner ⟨second.toList, l, false⟩ := by
  obtain ⟨hends, hapart⟩ := endsLine_of_newline hbreak second.toList
  obtain ⟨-, hapart'⟩ := endsLine_of_newline hbreak []
  obtain ⟨l, hl⟩ := ofText_append hends hapart
  obtain ⟨l', hl'⟩ := @ofText_append first "" hends hapart'
  have hblank := @ofScanner_line [] false (by simp) l'
  rw [String.append_empty, String.toList_empty, hblank] at hl'
  exact ⟨_, _, l, Scanner.tokens_of_rest_eq_nil rfl, hl', hl⟩

/-- Wherever a text starts, the tokens of its lines are of the same kinds. -/
lemma kind_ne_of_ofScanner {text : String} {kind : TokenKind}
    (h : ∀ t ∈ (Scanner.ofText text).tokens.1, t.kind ≠ kind) (l : Location) :
    ∀ line ∈ ofScanner ⟨text.toList, l, false⟩, ∀ t ∈ line.body, t.kind ≠ kind := by
  intro line hline t ht
  have hbare : line.bare ∈ (ofText text).map bare := by
    have hsame : (ofScanner ⟨text.toList, l, false⟩).map bare = (ofText text).map bare :=
      @map_bare_ofScanner_congr _ (Scanner.ofText text) rfl
    rw [← hsame]
    exact List.mem_map_of_mem hline
  obtain ⟨line', hline', heq⟩ := List.mem_map.mp hbare
  have hbody : line'.body.map Token.bare = line.body.map Token.bare := congrArg body heq
  have htoken : t.bare ∈ line'.body.map Token.bare := by
    rw [hbody]
    exact List.mem_map_of_mem ht
  obtain ⟨t', ht', hkind⟩ := List.mem_map.mp htoken
  have hdivide := divide_ofText text
  have hmem : t' ∈ (Scanner.ofText text).allTokens := by
    rw [← hdivide.tokens]
    exact List.mem_flatMap.mpr ⟨line', hline', List.mem_append_left _ ht'⟩
  have hsame : t'.bare.kind = t.bare.kind := congrArg Token.kind hkind
  change t'.kind = t.kind at hsame
  rw [Scanner.allTokens, List.mem_append, List.mem_singleton] at hmem
  rcases hmem with hmem | rfl
  · rw [← hsame]
    exact h t' hmem
  · -- The end of the file is not in the body of a line.
    have hends := hdivide.body line' hline' _ ht'
    rw [(Scanner.endOfFile_tokens _).2] at hends
    cases hends

end SourceLine

/-- Text appended to a source does not change what was assembled before. If the source ends with a
line break, is assembled without a message and executes no END, and the text behind it has no SET,
then the code of the whole starts with the bytes of the source, every symbol of the source is the
same in the whole, its lines are the first of the whole, and no message is located on one of them. -/
theorem assemble_append (cpu : Cpu) (moduleName first second : String)
    (hbreak : first.toList.getLast? = some '\n')
    (hopen : (({ cpu } : Assembly).run (SourceLine.ofText first)).ended = false)
    (hquiet : (assemble cpu moduleName first).2.messages = #[])
    (hset : ∀ t ∈ (Scanner.ofText second).tokens.1, t.kind ≠ .set) :
    (∃ code code',
      (assemble cpu moduleName first).1.object.get? .code = some code ∧
      (assemble cpu moduleName (first ++ second)).1.object.get? .code = some code' ∧
      code.bytes.toList <+: code'.bytes.toList) ∧
    (∀ name symbol, (assemble cpu moduleName first).1.symbols.get? name = some symbol →
      (assemble cpu moduleName (first ++ second)).1.symbols.get? name = some symbol) ∧
    (assemble cpu moduleName first).1.lines <+:
      (assemble cpu moduleName (first ++ second)).1.lines ∧
    ∀ number, 0 < number → number < (SourceLine.ofText first).length →
      (assemble cpu moduleName (first ++ second)).2.onLine number = [] := by
  obtain ⟨front, blank, l, hblank, hfirst, hwhole⟩ :=
    SourceLine.exists_lines_of_append hbreak second
  rw [hfirst] at hopen
  -- The blank line at the end of the source leaves the state as it is.
  have hrun : ({ cpu } : Assembly).run (SourceLine.ofText first) =
      ({ cpu } : Assembly).steps front := by
    rw [hfirst, (Assembly.run_of_open hopen).2, Assembly.steps_concat,
      Assembly.step_of_body_eq_nil _ hblank]
  have hrunWhole : ({ cpu } : Assembly).run (SourceLine.ofText (first ++ second)) =
      (({ cpu } : Assembly).steps front).run (SourceLine.ofScanner ⟨second.toList, l, false⟩) := by
    rw [hwhole]
    exact Assembly.run_append hopen _
  have hassemble : assemble cpu moduleName first =
      (({ cpu } : Assembly).steps front).finish moduleName := by
    rw [← hrun]
    rfl
  have hassembleWhole : assemble cpu moduleName (first ++ second) =
      ((({ cpu } : Assembly).steps front).run
        (SourceLine.ofScanner ⟨second.toList, l, false⟩)).finish moduleName := by
    rw [← hrunWhole]
    rfl
  have hdivide := SourceLine.divide_ofText (first ++ second)
  rw [hwhole] at hdivide
  have hbehind : ∀ line ∈ SourceLine.ofScanner ⟨second.toList, l, false⟩, ∀ t ∈ line.tokens,
      (SourceLine.ofText first).length ≤ t.location.line := by
    intro line hline t ht
    rw [hfirst, List.length_append, List.length_singleton]
    exact hdivide.lt_line line hline t ht
  have hlines := SourceLine.kind_ne_of_ofScanner hset l
  rw [hassemble, Assembly.finish_eq] at hquiet ⊢
  rw [hassembleWhole, Assembly.finish_eq]
  obtain ⟨hcode, hkept, hmessages⟩ := Assembly.resolved_run hquiet hlines
    (P := fun l => l.line = 0 ∨ (SourceLine.ofText first).length ≤ l.line) (Or.inl rfl)
    (fun line hline t ht => Or.inr (hbehind line hline t ht))
  refine ⟨⟨_, _, rfl, rfl, hcode⟩, (Assembly.grows_run hlines).symbols, hkept, ?_⟩
  intro number hpos hlt
  rw [Log.onLine, List.filter_eq_nil_iff]
  intro m hm hnumber
  have hline : m.location.line = number := beq_iff_eq.mp hnumber
  rcases hmessages m hm with hnone | hle
  · omega
  · omega

/-- A unit with forward references, and behind it text that defines its symbols again, moves back
and has a line that cannot be read. -/
theorem assemble_append_of_errors :
    let first := "JMP L\nDB X\nX EQU 5\nL: RET\n"
    let second := "X: EQU 6\nL: DB X\n ORG 0\n MOV\nEND\nNOP"
    first.toList.getLast? = some '\n' ∧
      (({ cpu := .intel8080 } : Assembly).run (SourceLine.ofText first)).ended = false ∧
      (assemble .intel8080 "MAIN" first).2.messages = #[] ∧
      (∀ t ∈ (Scanner.ofText second).tokens.1, t.kind ≠ .set) ∧
      (assemble .intel8080 "MAIN" first).1.lines <+:
        (assemble .intel8080 "MAIN" (first ++ second)).1.lines ∧
      ∀ number, 0 < number → number < 5 →
        (assemble .intel8080 "MAIN" (first ++ second)).2.onLine number = [] := by
  intro first second
  have hbreak : first.toList.getLast? = some '\n' := by decide
  have hopen :
      (({ cpu := .intel8080 } : Assembly).run (SourceLine.ofText first)).ended = false := by
    decide +kernel
  have hquiet : (assemble .intel8080 "MAIN" first).2.messages = #[] := by decide +kernel
  have hset : ∀ t ∈ (Scanner.ofText second).tokens.1, t.kind ≠ .set := by decide +kernel
  have hlength : (SourceLine.ofText first).length = 5 := by decide +kernel
  obtain ⟨-, -, hlines, hmessages⟩ :=
    assemble_append .intel8080 "MAIN" first second hbreak hopen hquiet hset
  rw [hlength] at hmessages
  exact ⟨hbreak, hopen, hquiet, hset, hlines, hmessages⟩

end MicroAsm
