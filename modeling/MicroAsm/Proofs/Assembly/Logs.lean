import MicroAsm.Proofs.Assembly.Ending

/-!
# Assembling into a log

What an assembly does never depends on messages that are there already. Into whatever log a source
is assembled, the program is the same, and so are the messages about it, behind the earlier ones.
-/

namespace MicroAsm

namespace Assembly

/-- The assembly with its messages behind those of a log. -/
def into (a : Assembly) (log : Log) : Assembly :=
  { a with log := log.reportAll a.log.messages.toList }

variable (a : Assembly) (log : Log) (location : Location) (label : Option Token)

@[simp] lemma into_frame :
    (a.into log).cpu = a.cpu ∧ (a.into log).symbols = a.symbols ∧ (a.into log).code = a.code ∧
      (a.into log).records = a.records ∧ (a.into log).ended = a.ended :=
  ⟨rfl, rfl, rfl, rfl, rfl⟩

/-! ### Operations -/

lemma report_into (ms : List Message) : (a.into log).report ms = (a.report ms).into log := by
  have hlog : (log.reportAll a.log.messages.toList).reportAll ms =
      log.reportAll (a.log.reportAll ms).messages.toList := by
    rw [Log.messages_reportAll, Log.reportAll_append]
  exact congrArg (fun log => { a with log }) hlog

lemma error_into (text : String) :
    (a.into log).error location text = (a.error location text).into log :=
  a.report_into log _

lemma emit_into (bs : List UInt8) :
    (a.into log).emit bs location = (a.emit bs location).into log := by
  rw [emit, emit, error_into, (a.into_frame log).2.2.1]
  split
  · rfl
  · rfl

lemma withSymbols_into (result : Except SymbolError SymbolTable) :
    (a.into log).withSymbols result location = (a.withSymbols result location).into log := by
  cases result with
  | ok symbols => rfl
  | error e => exact a.error_into log _ _

lemma defineLabel_into (value : UInt16) :
    (a.into log).defineLabel label value = (a.defineLabel label value).into log := by
  cases label with
  | none => rfl
  | some t => exact a.withSymbols_into log _ _

lemma moveTo_into (target : UInt16) :
    (a.into log).moveTo target location = (a.moveTo target location).into log := by
  rw [moveTo, moveTo, (a.into_frame log).2.2.1]
  split
  · rfl
  · split
    · exact a.emit_into log _ _
    · exact a.error_into log _ _

lemma assign_into (how : Assignment) (value : Option UInt16) :
    (a.into log).assign how location label value =
      (a.assign how location label value).into log := by
  cases label with
  | none => exact a.error_into log _ _
  | some t =>
    cases value with
    | none => rfl
    | some v => cases how <;> exact a.withSymbols_into log _ _

lemma put_into (e : Emission) :
    (a.into log).put e location = (a.put e location).into log := by
  rw [put, put, report_into]
  split
  · exact (a.report e.messages).emit_into log _ _
  · rfl

lemma record_into (r : Record) : (a.into log).record r = (a.record r).into log := rfl

/-! ### Lines -/

lemma execute_into (here : UInt16) (statement : Statement) :
    (a.into log).execute here label statement =
      ((a.execute here label statement).1.into log, (a.execute here label statement).2) := by
  have hlabel := a.defineLabel_into log label here
  cases statement with
  | empty location => rw [execute, execute, hlabel]
  | endUnit location =>
    simp only [execute, hlabel]
    rfl
  | cpu location name =>
    simp only [execute, hlabel]
    cases Cpu.ofName? name.value with
    | none => exact congrArg (·, _) (error_into _ _ _ _)
    | some cpu => rfl
  | org location origin =>
    simp only [execute, (a.into_frame log).2.1, report_into]
    cases (origin.evaluate a.symbols here).1 with
    | none => exact congrArg (·, _) (defineLabel_into _ _ _ _)
    | some target =>
      simp only [moveTo_into]
      exact congrArg (·, _) (defineLabel_into _ _ _ _)
  | assign how location v =>
    simp only [execute, (a.into_frame log).2.1, report_into, assign_into]
  | data width location items =>
    simp only [execute, hlabel, put_into]
    rfl
  | instruction i location arguments =>
    simp only [execute, hlabel, put_into]
    rfl

lemma examine_into (here : UInt16) (fragment : Fragment) :
    (a.into log).examine here label fragment =
      ((a.examine here label fragment).1.into log, (a.examine here label fragment).2) := by
  have hlabel := a.defineLabel_into log label here
  cases fragment with
  | nothing => rw [examine, examine, hlabel]
  | org location => rfl
  | assign how location => rfl
  | data width location items =>
    simp only [examine, hlabel, report_into]
    rfl
  | instruction i location arguments =>
    simp only [examine, hlabel, report_into]
    rfl

lemma accept_into (statement : Statement) (comment : Option Token) :
    (a.into log).accept location label statement comment =
      (a.accept location label statement comment).into log := by
  simp only [accept, (a.into_frame log).2.2.1, execute_into]
  exact record_into _ log _

lemma reject_into (fragment : Fragment) (failure : Failure) :
    (a.into log).reject label fragment failure = (a.reject label fragment failure).into log := by
  simp only [reject, (a.into_frame log).2.2.1, examine_into, record_into]
  exact report_into _ log _

lemma step_into (line : SourceLine) : (a.into log).step line = (a.step line).into log := by
  rw [step, step, (a.into_frame log).1]
  cases line.body with
  | nil => rfl
  | cons first rest =>
    cases line.read a.cpu with
    | accepted label statement comment => exact a.accept_into log _ _ _ _
    | rejected label fragment failure => exact a.reject_into log _ _ _

lemma steps_into (lines : List SourceLine) :
    (a.into log).steps lines = (a.steps lines).into log := by
  induction lines generalizing a with
  | nil => rfl
  | cons line lines ih => rw [steps_cons, step_into, ih, steps_cons]

lemma warnAfterEnd_into (lines : List SourceLine) :
    (a.into log).warnAfterEnd lines = (a.warnAfterEnd lines).into log := by
  rw [warnAfterEnd_eq, warnAfterEnd_eq, report_into]

lemma run_into (lines : List SourceLine) : (a.into log).run lines = (a.run lines).into log := by
  induction lines generalizing a with
  | nil => rfl
  | cons line lines ih =>
    rw [run, run, (a.into_frame log).2.2.2.2, step_into, ih, warnAfterEnd_into]
    split
    · rfl
    · rfl

lemma finish_into (moduleName : String) :
    (a.into log).finish moduleName =
      ((a.finish moduleName).1, log.reportAll (a.finish moduleName).2.messages.toList) := by
  obtain ⟨records, code, ms, hresolve⟩ :=
    Patching.resolveRecords_log_reportAll a.code a.symbols a.records.toList
  simp only [finish, (a.into_frame log).1, (a.into_frame log).2.1, (a.into_frame log).2.2.1,
    (a.into_frame log).2.2.2.1, hresolve, Log.messages_reportAll, Log.reportAll_append]
  rfl

end Assembly

/-- Into a log with messages a source is assembled as into a new one. -/
lemma assembleInto_eq (log : Log) (cpu : Cpu) (moduleName source : String) :
    assembleInto log cpu moduleName source =
      ((assemble cpu moduleName source).1,
        log.reportAll (assemble cpu moduleName source).2.messages.toList) := by
  have hstart : ({ cpu, log } : Assembly) = ({ cpu } : Assembly).into log := rfl
  rw [assembleInto, hstart, Assembly.run_into, Assembly.finish_into]
  rfl

end MicroAsm
