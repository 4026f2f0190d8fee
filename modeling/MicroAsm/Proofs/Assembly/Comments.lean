import MicroAsm.Proofs.Assembly.Ending
import MicroAsm.Proofs.Assembly.Inert
import MicroAsm.Proofs.Statement.Comments

/-!
# What comments leave

Lines with comments and the same lines without them do the same to the symbols and the code. A
comment is kept in the record of its line, a line of nothing but a comment has a record of its own,
and a failure may be about a comment; nothing else is left of comments.
-/

namespace MicroAsm

open List (Forall₂)

/-! ### Records and messages -/

/-- The line is nothing but a comment. -/
def Line.isComment (l : Line) : Bool :=
  l.label.isNone && decide (l.statement.kind = .empty) && l.operands.isEmpty

/-- The record without the comment of its line, if there is more than that. -/
def Record.uncommented : Record → Option Record
  | line l => if l.isComment then none else some (.line { l with comment := none })
  | remnant r => some (.remnant r)

/-- The messages are the same, or the first is about the end of a line and the second about one of
the given comments in its place. -/
inductive Message.Finds (C : Token → Prop) : Message → Message → Prop
  | same (m : Message) : Finds C m m
  | comment {stop c : Token} (what : String) (hc : C c) (hstop : stop.kind.endsLine = true)
    (hplace : stop.location = c.location) :
    Finds C ⟨.error, stop.location, expectedText what stop.shown⟩
      ⟨.error, c.location, expectedText what c.shown⟩

/-- The lines are the same and have no comment, or the second has one of the given comments where
the first ends. -/
inductive SourceLine.Uncomments (C : Token → Prop) : SourceLine → SourceLine → Prop
  | same {line : SourceLine} (hwords : ∀ t ∈ line.body, t.kind ≠ .comment) :
    Uncomments C line line
  | comment {ts : List Token} {stop stop' c : Token} (hwords : ∀ t ∈ ts, t.kind ≠ .comment)
    (hkind : c.kind = .comment) (hc : C c) (hstop : stop.kind.endsLine = true)
    (hplace : stop.location = c.location) : Uncomments C ⟨ts, stop⟩ ⟨ts ++ [c], stop'⟩

/-! ### States -/

namespace Assembly

/-- The state with other records, and with the messages of a log in front of its own. -/
def behind (a : Assembly) (records : Array Record) (log : Log) : Assembly :=
  { a with records, log := log.reportAll a.log.messages.toList }

/-- The state without what was kept and told so far. -/
def core (a : Assembly) : Assembly :=
  { a with records := #[], log := {} }

variable {a a' : Assembly} {C : Token → Prop} {label : Option Token}

lemma inert_behind (records : Array Record) (log : Log) : Inert (behind · records log) where
  symbols _ := rfl
  code _ := rfl
  report a ms := by
    simp only [report, behind, Log.messages_reportAll, Log.reportAll_append]
  setSymbols _ _ := rfl
  setCode _ _ := rfl
  setEnded _ := rfl

/-- What was kept and told before has no say in what a statement does. -/
lemma execute_eq (a : Assembly) (here : UInt16) (label : Option Token) (statement : Statement) :
    a.execute here label statement =
      ((a.core.execute here label statement).1.behind a.records a.log,
        (a.core.execute here label statement).2) := by
  have hinert := inert_behind a.records a.log
  have hself : a.core.behind a.records a.log = a := rfl
  cases statement with
  | cpu location name =>
    have hdefine := hinert.defineLabel a.core label here
    simp only [hself] at hdefine
    simp only [execute, hdefine]
    cases Cpu.ofName? name.value with
    | some cpu => rfl
    | none => exact congrArg (·, _) (hinert.error _ _ _)
  | _ => exact hself ▸ hinert.execute a.core here label (by rintro _ _ ⟨⟩)

lemma examine_eq (a : Assembly) (here : UInt16) (label : Option Token) (fragment : Fragment) :
    a.examine here label fragment =
      ((a.core.examine here label fragment).1.behind a.records a.log,
        (a.core.examine here label fragment).2) :=
  (inert_behind a.records a.log).examine a.core here label fragment

lemma warnAfterEnd_core (a : Assembly) (lines : List SourceLine) :
    a.warnAfterEnd lines = (a.core.warnAfterEnd lines).behind a.records a.log :=
  (inert_behind a.records a.log).warnAfterEnd a.core lines

lemma lineOf_core (a : Assembly) (location : Location) (label : Option Token)
    (statement : Statement) (comment : Option Token) :
    a.lineOf location label statement comment = a.core.lineOf location label statement comment := by
  simp only [lineOf, a.execute_eq]
  rfl

lemma remnantOf_core (a : Assembly) (label : Option Token) (fragment : Fragment) :
    a.remnantOf label fragment = a.core.remnantOf label fragment := by
  simp only [remnantOf, a.examine_eq]
  rfl

/-- The states have come from lines without and with the given comments. -/
structure Uncomments (C : Token → Prop) (a a' : Assembly) : Prop where
  core : a.core = a'.core
  records : a.records.toList = a'.records.toList.filterMap Record.uncommented
  messages : Forall₂ (Message.Finds C) a.log.messages.toList a'.log.messages.toList

namespace Uncomments

lemma frame (h : a.Uncomments C a') :
    a.cpu = a'.cpu ∧ a.symbols = a'.symbols ∧ a.code = a'.code ∧ a.ended = a'.ended := by
  have hcore := h.core
  simp only [Assembly.core, Assembly.mk.injEq, true_and] at hcore
  exact hcore

/-- The same was told behind the messages so far. -/
lemma behind {b : Assembly} (h : a.Uncomments C a') :
    (b.behind a.records a.log).Uncomments C (b.behind a'.records a'.log) := by
  refine ⟨rfl, h.records, ?_⟩
  rw [Assembly.behind, Assembly.behind, Log.messages_reportAll, Log.messages_reportAll]
  exact List.rel_append h.messages (List.forall₂_same.mpr fun m _ => .same m)

lemma execute (h : a.Uncomments C a') (here : UInt16) (label : Option Token)
    (statement : Statement) :
    (a.execute here label statement).1.Uncomments C (a'.execute here label statement).1 := by
  rw [a.execute_eq, a'.execute_eq, ← h.core]
  exact h.behind

lemma examine (h : a.Uncomments C a') (here : UInt16) (label : Option Token)
    (fragment : Fragment) :
    (a.examine here label fragment).1.Uncomments C (a'.examine here label fragment).1 := by
  rw [a.examine_eq, a'.examine_eq, ← h.core]
  exact h.behind

lemma record (h : a.Uncomments C a') {r r' : Record} (hr : r'.uncommented = some r) :
    (a.record r).Uncomments C (a'.record r') := by
  refine ⟨h.core, ?_, h.messages⟩
  rw [Assembly.record, Assembly.record, Array.toList_push, Array.toList_push, h.records,
    List.filterMap_append, List.filterMap_cons, hr]
  rfl

lemma report (h : a.Uncomments C a') {m m' : Message} (hm : m.Finds C m') :
    (a.report [m]).Uncomments C (a'.report [m']) := by
  refine ⟨h.core, h.records, ?_⟩
  rw [Assembly.report, Assembly.report, Log.messages_reportAll, Log.messages_reportAll]
  exact List.rel_append h.messages (.cons hm .nil)

lemma isComment_lineOf (a : Assembly) (location : Location) {statement : Statement}
    (comment : Option Token) (hwork : label = none → ∀ l, statement ≠ .empty l) :
    (a.lineOf location label statement comment).isComment = false := by
  cases label with
  | some t => rfl
  | none =>
    cases statement with
    | empty l => exact absurd rfl (hwork rfl l)
    | data width l items => cases width <;> rfl
    | assign how l v => cases how <;> rfl
    | _ => rfl

/-- An accepted line with a label or a statement leaves the same with a comment behind it. -/
lemma accept (h : a.Uncomments C a') (location : Location) {statement : Statement}
    (comment : Option Token) (hwork : label = none → ∀ l, statement ≠ .empty l) :
    (a.accept location label statement none).Uncomments C
      (a'.accept location label statement comment) := by
  rw [accept_eq, accept_eq, ← h.frame.2.2.1]
  refine (h.execute _ _ _).record ?_
  rw [a.lineOf_core, a'.lineOf_core, ← h.core, Record.uncommented,
    if_neg (by simp [isComment_lineOf _ _ _ hwork])]
  rfl

/-- A line of nothing but a comment leaves nothing else. -/
lemma accept_comment (h : a.Uncomments C a') (location l : Location) (comment : Option Token) :
    a.Uncomments C (a'.accept location none (.empty l) comment) := by
  refine ⟨h.core, ?_, h.messages⟩
  have hrecord : (Record.line (a'.lineOf location none (.empty l) comment)).uncommented = none :=
    rfl
  rw [accept_eq, Assembly.record, execute_records, Array.toList_push, List.filterMap_append,
    List.filterMap_cons, hrecord, h.records, List.filterMap_nil, List.append_nil]

lemma reject (h : a.Uncomments C a') (label : Option Token) (fragment : Fragment)
    {failure failure' : Failure} (hfailure : failure.message.Finds C failure'.message) :
    (a.reject label fragment failure).Uncomments C (a'.reject label fragment failure') := by
  rw [reject_eq, reject_eq, ← h.frame.2.2.1]
  refine ((h.examine _ _ _).record ?_).report hfailure
  rw [a.remnantOf_core, a'.remnantOf_core, ← h.core]
  rfl

end Uncomments

end Assembly

/-! ### Lines -/

lemma Failure.Finds.message {C : Token → Prop} {stop c : Token} {f f' : Failure}
    (h : f.Finds stop c f') (hc : C c) (hstop : stop.kind.endsLine = true)
    (hplace : stop.location = c.location) : f.message.Finds C f'.message := by
  cases h with
  | same => exact .same _
  | comment what => exact .comment what hc hstop hplace

namespace Assembly.Uncomments

variable {a a' : Assembly} {C : Token → Prop} {line line' : SourceLine}

/-- A line leaves the same with and without its comment. -/
lemma step (h : a.Uncomments C a') (hline : line.Uncomments C line') :
    (a.step line).Uncomments C (a'.step line') := by
  cases hline with
  | same hwords =>
    cases hfirst : line.body.head? with
    | none =>
      have hbody := List.head?_eq_none_iff.mp hfirst
      rw [a.step_of_body_eq_nil hbody, a'.step_of_body_eq_nil hbody]
      exact h
    | some first =>
      have hbody : line.body ≠ [] := List.ne_nil_of_mem (List.mem_of_mem_head? hfirst)
      cases hread : line.read a.cpu with
      | accepted label statement comment =>
        obtain ⟨rfl, hwork⟩ := SourceLine.work_of_read hbody hwords hread
        rw [step_eq_accept hfirst hread, step_eq_accept hfirst (h.frame.1 ▸ hread)]
        exact h.accept _ _ hwork
      | rejected label fragment failure =>
        rw [step_eq_reject hfirst hread, step_eq_reject hfirst (h.frame.1 ▸ hread)]
        exact h.reject _ _ (.same _)
  | @comment ts stop stop' c hwords hkind hc hstop hplace =>
    have hfinds := SourceLine.finds_read a.cpu stop' hkind hplace hwords
    generalize hread : SourceLine.read a.cpu ⟨ts, stop⟩ = reading at hfinds
    generalize hread' : SourceLine.read a.cpu ⟨ts ++ [c], stop'⟩ = reading' at hfinds
    rw [h.frame.1] at hread'
    cases ts with
    | nil =>
      rw [read_of_body_eq_nil _ rfl] at hread
      subst hread
      cases hfinds with
      | accepted =>
        have hfirst : (SourceLine.mk ([] ++ [c]) stop').body.head? = some c := rfl
        rw [a.step_of_body_eq_nil rfl, step_eq_accept hfirst hread']
        exact h.accept_comment _ _ _
    | cons t ts =>
      have hfirst : (SourceLine.mk (t :: ts) stop).body.head? = some t := rfl
      have hfirst' : (SourceLine.mk (t :: ts ++ [c]) stop').body.head? = some t := rfl
      cases hfinds with
      | accepted label statement =>
        obtain ⟨-, hwork⟩ := SourceLine.work_of_read (by simp) hwords hread
        rw [step_eq_accept hfirst hread, step_eq_accept hfirst' hread']
        exact h.accept _ _ hwork
      | rejected label fragment hf =>
        rw [step_eq_reject hfirst hread, step_eq_reject hfirst' hread']
        exact h.reject _ _ (hf.message hc hstop hplace)

variable {lines lines' : List SourceLine}

lemma find?_words (hlines : Forall₂ (SourceLine.Uncomments C) lines lines') :
    (lines.flatMap SourceLine.body).find? (·.kind ≠ .comment) =
      (lines'.flatMap SourceLine.body).find? (·.kind ≠ .comment) := by
  induction hlines with
  | nil => rfl
  | cons hline _ ih =>
    rw [List.flatMap_cons, List.flatMap_cons, List.find?_append, List.find?_append, ih]
    cases hline with
    | same => rfl
    | comment hwords hkind => simp [List.find?_append, hkind]

lemma warnAfterEnd (h : a.Uncomments C a')
    (hlines : Forall₂ (SourceLine.Uncomments C) lines lines') :
    (a.warnAfterEnd lines).Uncomments C (a'.warnAfterEnd lines') := by
  have hwarn : a'.warnAfterEnd lines' = a'.warnAfterEnd lines := by
    rw [warnAfterEnd_eq, warnAfterEnd_eq, find?_words hlines]
  rw [hwarn, a.warnAfterEnd_core, a'.warnAfterEnd_core, ← h.core]
  exact h.behind

lemma run (h : a.Uncomments C a') (hlines : Forall₂ (SourceLine.Uncomments C) lines lines') :
    (a.run lines).Uncomments C (a'.run lines') := by
  induction hlines generalizing a a' with
  | nil => exact h
  | cons hline hlines ih =>
    rw [Assembly.run, Assembly.run, ← h.frame.2.2.2]
    split
    · exact h.warnAfterEnd (.cons hline hlines)
    · exact ih (h.step hline)

end Assembly.Uncomments

/-! ### The last pass -/

namespace Patching

lemma isEmpty_resolveOperands (p : Patching) (symbols : SymbolTable) (place : Placement)
    (os : List OperandNode) : (p.resolveOperands symbols place os).1.isEmpty = os.isEmpty := by
  cases os <;> rfl

/-- The last pass does not look at comments. -/
lemma resolveRecords_uncommented (p : Patching) (symbols : SymbolTable) (rs : List Record) :
    p.resolveRecords symbols (rs.filterMap Record.uncommented) =
      ((p.resolveRecords symbols rs).1.filterMap Record.uncommented,
        (p.resolveRecords symbols rs).2) := by
  induction rs generalizing p with
  | nil => rfl
  | cons r rs ih =>
    cases r with
    | remnant r => simp only [List.filterMap_cons, Record.uncommented, resolveRecords, ih]
    | line l =>
      have hsame :
          Line.isComment { l with operands := (p.resolveOperands symbols l.place l.operands).1 } =
            l.isComment := by
        simp only [Line.isComment, isEmpty_resolveOperands]
      by_cases hcomment : l.isComment = true
      · have hoperands : l.operands = [] := by
          simp only [Line.isComment, Bool.and_eq_true, List.isEmpty_iff] at hcomment
          exact hcomment.2
        rw [hoperands] at hsame
        simp only [List.filterMap_cons, Record.uncommented, resolveRecords, hcomment, if_true, ih,
          hoperands, resolveOperands] at hsame ⊢
        simp only [hsame, if_true]
      · simp only [List.filterMap_cons, Record.uncommented, resolveRecords, hsame, if_neg hcomment,
          ih]

end Patching

/-- The program has the records without comments, and everything else is the same. -/
structure Program.Uncomments (p p' : Program) : Prop where
  records : p.records = p'.records.filterMap Record.uncommented
  object : p.object = p'.object
  symbols : p.symbols = p'.symbols
  cpu : p.cpu = p'.cpu

lemma Assembly.Uncomments.finish {a a' : Assembly} {C : Token → Prop} (h : a.Uncomments C a')
    (moduleName : String) :
    (a.finish moduleName).1.Uncomments (a'.finish moduleName).1 ∧
      Forall₂ (Message.Finds C) (a.finish moduleName).2.messages.toList
        (a'.finish moduleName).2.messages.toList := by
  obtain ⟨hcpu, hsymbols, hcode, -⟩ := h.frame
  obtain ⟨rs, code, ms, hresolve⟩ :=
    Patching.resolveRecords_log_reportAll a'.code a'.symbols a'.records.toList
  have hplain : Patching.resolveRecords ⟨a'.code, a.log⟩ a'.symbols a.records.toList =
      (rs.filterMap Record.uncommented, ⟨code, a.log.reportAll ms⟩) := by
    rw [h.records, Patching.resolveRecords_uncommented, hresolve]
  simp only [Assembly.finish, hcode, hsymbols, hcpu, hplain, hresolve]
  refine ⟨⟨rfl, rfl, rfl, rfl⟩, ?_⟩
  rw [Log.messages_reportAll, Log.messages_reportAll]
  exact List.rel_append h.messages (List.forall₂_same.mpr fun m _ => .same m)

/-! ### Blank lines -/

/-- The lines that are not blank. -/
def SourceLine.work (lines : List SourceLine) : List SourceLine :=
  lines.filter fun line => !line.body.isEmpty

lemma SourceLine.flatMap_body_work (lines : List SourceLine) :
    (work lines).flatMap body = lines.flatMap body := by
  induction lines with
  | nil => rfl
  | cons line lines ih =>
    rw [work, List.filter_cons]
    split
    · rw [List.flatMap_cons, List.flatMap_cons, ← ih, work]
    · rename_i hblank
      rw [List.flatMap_cons, ← ih, work]
      simp_all

/-- Blank lines leave nothing. -/
lemma Assembly.run_work (a : Assembly) (lines : List SourceLine) :
    a.run (SourceLine.work lines) = a.run lines := by
  induction lines generalizing a with
  | nil => rfl
  | cons line lines ih =>
    by_cases hended : a.ended = true
    · rw [run_of_ended a hended, run_of_ended a hended, warnAfterEnd_eq, warnAfterEnd_eq,
        SourceLine.flatMap_body_work]
    · rw [Bool.not_eq_true] at hended
      rw [a.run_cons line lines hended, SourceLine.work, List.filter_cons]
      split
      · rw [a.run_cons line _ hended]
        exact ih (a.step line)
      · rename_i hblank
        rw [a.step_of_body_eq_nil (by simpa using hblank)]
        exact ih a

end MicroAsm
