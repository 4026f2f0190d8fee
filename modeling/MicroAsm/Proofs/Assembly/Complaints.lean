import MicroAsm.Proofs.Assembly.Step
import MicroAsm.Proofs.Instruction.Faults

/-!
# Failures and complaints

A failure turns a line down, and its text shows that it does. All other messages about a source
are complaints: about values, symbols and operands of lines that could be read, and about text
after the end. Whatever is done for a line adds complaints to the log and nothing else. The only
failure of a rejected line comes after that, and no exception is ever among the messages.
-/

namespace MicroAsm

/-! ### Failures -/

/-- A text starts with these words. -/
def Starts (start text : String) : Prop :=
  start.toList <+: text.toList

instance : DecidableRel Starts :=
  fun start text => inferInstanceAs (Decidable (start.toList <+: text.toList))

lemma Starts.refl (start : String) : Starts start start :=
  List.prefix_refl _

lemma Starts.append {start text : String} (h : Starts start text) (rest : String) :
    Starts start (text ++ rest) := by
  rw [Starts, String.toList_append]
  exact h.trans (List.prefix_append _ _)

lemma starts_expectedText (expected found : String) :
    Starts "Expected " (expectedText expected found) := by
  unfold expectedText
  split
  · exact (Starts.refl _).append _
  · exact (((Starts.refl _).append _).append _).append _

/-- How the texts of failures start. -/
def failureStarts : List String :=
  ["Expected ", "Unknown mnemonic: ", "Invalid number: "]

namespace Message

/-- The message turns a line down. -/
def isFailure (m : Message) : Bool :=
  m.severity = .error && failureStarts.any fun start => Starts start m.text

/-- The message is neither a failure nor an exception. -/
structure IsComplaint (m : Message) : Prop where
  severity_ne : m.severity ≠ .exception
  isFailure_eq : m.isFailure = false

lemma isFailure_of_starts {start text : String} (hstart : start ∈ failureStarts)
    (htext : Starts start text) (location : Location) :
    isFailure ⟨.error, location, text⟩ = true := by
  simp only [isFailure, decide_true, Bool.true_and, List.any_eq_true]
  exact ⟨start, hstart, decide_eq_true htext⟩

/-- The messages that turn lines down are those of failures. -/
lemma isFailure_iff {m : Message} : m.isFailure = true ↔ ∃ f : Failure, m = f.message := by
  constructor
  · intro h
    obtain ⟨severity, location, text⟩ := m
    simp only [isFailure, Bool.and_eq_true, decide_eq_true_eq, List.any_eq_true] at h
    obtain ⟨rfl, start, hstart, rest, hrest⟩ := h
    have htext : text = start ++ String.ofList rest := by
      rw [← String.toList_inj, ← hrest]
      simp
    simp only [failureStarts, List.mem_cons, List.not_mem_nil, or_false] at hstart
    rcases hstart with rfl | rfl | rfl
    · exact ⟨⟨location, .expected (String.ofList rest) ""⟩, by rw [htext]; rfl⟩
    · exact ⟨⟨location, .unknownMnemonic (String.ofList rest)⟩, by rw [htext]; rfl⟩
    · exact ⟨⟨location, .invalidNumber (String.ofList rest)⟩, by rw [htext]; rfl⟩
  · rintro ⟨⟨location, fault⟩, rfl⟩
    cases fault with
    | expected what found => exact isFailure_of_starts (by decide) (starts_expectedText _ _) _
    | unknownMnemonic mnemonic => exact isFailure_of_starts (by decide) ((Starts.refl _).append _) _
    | invalidNumber text => exact isFailure_of_starts (by decide) ((Starts.refl _).append _) _

/-- A text that starts differently from those of failures is a complaint. -/
lemma isComplaint_of_starts {start text : String} (htext : Starts start text)
    (hstart : ∀ mark ∈ failureStarts, ¬Starts mark start ∧ ¬Starts start mark)
    (location : Location) : IsComplaint ⟨.error, location, text⟩ := by
  refine ⟨by simp, ?_⟩
  rw [isFailure, Bool.and_eq_false_iff, List.any_eq_false]
  right
  intro mark hmark hstarts
  obtain ⟨hlong, hshort⟩ := hstart mark hmark
  exact (List.prefix_or_prefix_of_prefix (of_decide_eq_true hstarts) htext).elim hlong hshort

lemma isComplaint_append {start : String}
    (hstart : ∀ mark ∈ failureStarts, ¬Starts mark start ∧ ¬Starts start mark) (rest : String)
    (location : Location) : IsComplaint ⟨.error, location, start ++ rest⟩ :=
  isComplaint_of_starts ((Starts.refl start).append rest) hstart location

end Message

/-! ### Logs -/

namespace Log

/-- The failures in a log, in the order of their report. -/
def failed (log : Log) : List Message :=
  log.messages.toList.filter Message.isFailure

/-- From one log to another only complaints were added. -/
def Complains (log log' : Log) : Prop :=
  ∃ ms, (∀ m ∈ ms, m.IsComplaint) ∧ log' = log.reportAll ms

lemma reportAll_append (log : Log) (ms ms' : List Message) :
    log.reportAll (ms ++ ms') = (log.reportAll ms).reportAll ms' :=
  List.foldl_append

lemma messages_report (log : Log) (m : Message) :
    (log.report m).messages.toList = log.messages.toList ++ [m] := by
  obtain ⟨severity, location, text⟩ := m
  cases severity <;> simp [report]

lemma messages_reportAll (log : Log) (ms : List Message) :
    (log.reportAll ms).messages.toList = log.messages.toList ++ ms := by
  induction ms generalizing log with
  | nil => simp
  | cons m ms ih =>
    have hcons : log.reportAll (m :: ms) = (log.report m).reportAll ms := rfl
    rw [hcons, ih, messages_report, List.append_assoc, List.singleton_append]

lemma failed_report (log : Log) (m : Message) :
    (log.report m).failed = log.failed ++ [m].filter Message.isFailure := by
  rw [failed, messages_report, List.filter_append, failed]

lemma exceptions_report {log : Log} {m : Message} (h : m.severity ≠ .exception) :
    (log.report m).exceptions = log.exceptions := by
  obtain ⟨severity, location, text⟩ := m
  cases severity with
  | warning | error => rfl
  | exception => exact absurd rfl h

lemma Complains.refl (log : Log) : log.Complains log := ⟨[], by simp, rfl⟩

lemma Complains.trans {log log' log'' : Log} (h : log.Complains log') (h' : log'.Complains log'') :
    log.Complains log'' := by
  obtain ⟨ms, hms, rfl⟩ := h
  obtain ⟨ms', hms', rfl⟩ := h'
  refine ⟨ms ++ ms', ?_, (log.reportAll_append ms ms').symm⟩
  exact fun m hm => (List.mem_append.mp hm).elim (hms m) (hms' m)

/-- Complaints are neither failures nor exceptions. -/
lemma Complains.same {log log' : Log} (h : log.Complains log') :
    log'.failed = log.failed ∧ log'.exceptions = log.exceptions := by
  obtain ⟨ms, hms, rfl⟩ := h
  induction ms generalizing log with
  | nil => exact ⟨rfl, rfl⟩
  | cons m ms ih =>
    rw [List.forall_mem_cons] at hms
    obtain ⟨hfailed, hexceptions⟩ := @ih (log.report m) hms.2
    have hcons : log.reportAll (m :: ms) = (log.report m).reportAll ms := rfl
    rw [hcons, hfailed, hexceptions, failed_report, exceptions_report hms.1.severity_ne]
    simp [hms.1.isFailure_eq]

end Log

/-! ### Operands -/

lemma isComplaint_outOfRange (bits : Nat) (v : Int) (location : Location) :
    (outOfRange bits v location).IsComplaint := by
  exact Message.isComplaint_of_starts
    ((((Starts.refl "Value out of range for ").append _).append _).append _) (by decide +kernel) _

lemma SymbolError.isComplaint (e : SymbolError) (location : Location) :
    Message.IsComplaint ⟨.error, location, e.text⟩ := by
  cases e with
  | duplicate name => exact Message.isComplaint_append (by decide +kernel) _ _
  | undefined name => exact Message.isComplaint_append (by decide +kernel) _ _

lemma isComplaint_undefinedSymbol (name : String) (location : Location) :
    (undefinedSymbol name location).IsComplaint :=
  (SymbolError.undefined name).isComplaint location

/-- The text of a fault of operands does not pass for a failure. -/
lemma EncodingFault.isComplaint {fault : EncodingFault} (h : fault.blamesOperands = true)
    (location : Location) : Message.IsComplaint ⟨.error, location, fault.text⟩ := by
  cases fault with
  | invalidDestination name | invalidSource name | invalidRegister name | incorrectOpcode text
  | invalidRestartCode n =>
    exact Message.isComplaint_append (by decide +kernel) _ _
  | invalidPair name expected =>
    exact Message.isComplaint_of_starts
      ((((Starts.refl "Invalid register pair: ").append _).append _).append _) (by decide +kernel) _
  | outOfRange bits v | mismatch family | unknownMnemonic mnemonic => cases h

lemma isComplaint_of_mem_checkRange {bits : Nat} {v : Int} {location : Location} :
    ∀ m ∈ (checkRange bits v location).2, m.IsComplaint := by
  rw [checkRange]
  split
  · simp
  · simpa using isComplaint_outOfRange bits v location

variable {symbols : SymbolTable} {here : UInt16}

lemma Value.isComplaint_of_mem_evaluate {v : Value} :
    ∀ m ∈ (v.evaluate symbols here).2, m.IsComplaint := by
  rw [evaluate]
  split
  · split
    · simp
    · simpa using isComplaint_outOfRange _ _ _
  · simpa using isComplaint_undefinedSymbol _ _

lemma Value.isComplaint_of_mem_settle {kind : OperandKind} {v : Value} :
    ∀ m ∈ (v.settle symbols here kind).messages, m.IsComplaint := by
  rw [settle]
  split
  · exact isComplaint_of_mem_checkRange
  · simp

lemma Argument.isComplaint_of_mem_settle {argument : Argument} :
    ∀ m ∈ (argument.settle symbols here).messages, m.IsComplaint := by
  cases argument with
  | register kind t => simp [settle, settleRegister]
  | value kind v =>
    cases kind with
    | restartCode =>
      rw [settle, settleRestart]
      split
      · simp
      · simpa using isComplaint_undefinedSymbol _ _
    | _ => exact v.isComplaint_of_mem_settle

lemma Argument.isComplaint_of_mem_flatMap {arguments : List Argument} :
    ∀ m ∈ (arguments.map (Argument.settle symbols here)).flatMap Settled.messages,
      m.IsComplaint := by
  intro m hm
  obtain ⟨o, ho, hm⟩ := List.mem_flatMap.mp hm
  obtain ⟨argument, -, rfl⟩ := List.mem_map.mp ho
  exact argument.isComplaint_of_mem_settle m hm

lemma isComplaint_of_mem_stringEmission {t : Token} {text : String} {cs : List Char} :
    ∀ m ∈ (stringEmission t text cs).messages, m.IsComplaint := by
  induction cs generalizing text with
  | nil => simp [stringEmission]
  | cons c cs ih =>
    intro m hm
    exact (List.mem_append.mp hm).elim (isComplaint_of_mem_checkRange m) (ih m)

lemma Item.isComplaint_of_mem_emissions {width : Width} {offset : Nat} {items : List Item} :
    ∀ m ∈ (Item.emissions symbols here width offset items).messages, m.IsComplaint := by
  induction items generalizing offset with
  | nil => simp [emissions]
  | cons item items ih =>
    intro m hm
    rcases List.mem_append.mp hm with hm | hm
    · cases item with
      | string t => exact isComplaint_of_mem_stringEmission m hm
      | value v => exact v.isComplaint_of_mem_settle m hm
    · exact ih m hm

/-- Operands of the right kinds leave only complaints about an instruction. -/
lemma Instruction.isComplaint_of_mem_emission {i : Instruction} {location : Location}
    {arguments : List Argument}
    (hkinds : List.Forall₂ Argument.HasKind i.family.operands arguments) :
    ∀ m ∈ (i.emission location (arguments.map (Argument.settle symbols here))).messages,
      m.IsComplaint := by
  rw [emission]
  split
  · split
    · exact Argument.isComplaint_of_mem_flatMap
    · rename_i e hencode
      intro m hm
      rcases List.mem_append.mp hm with hm | hm
      · exact Argument.isComplaint_of_mem_flatMap m hm
      · obtain rfl := List.mem_singleton.mp hm
        exact EncodingFault.isComplaint ((yields_settle hkinds _ _).of_error hencode) _
  · exact Argument.isComplaint_of_mem_flatMap

/-! ### Lines -/

namespace Assembly

variable (a : Assembly) (location : Location) (label : Option Token)

lemma complains_report {ms : List Message} (h : ∀ m ∈ ms, m.IsComplaint) :
    a.log.Complains (a.report ms).log :=
  ⟨ms, h, rfl⟩

lemma complains_error {text : String} (h : Message.IsComplaint ⟨.error, location, text⟩) :
    a.log.Complains (a.error location text).log :=
  a.complains_report (by simpa using h)

lemma complains_emit (bs : List UInt8) : a.log.Complains (a.emit bs location).log := by
  rw [emit]
  split
  · refine a.complains_error location ?_
    exact Message.isComplaint_of_starts (Starts.refl _) (by decide +kernel) _
  · exact Log.Complains.refl _

lemma complains_withSymbols (result : Except SymbolError SymbolTable) :
    a.log.Complains (a.withSymbols result location).log := by
  cases result with
  | ok symbols => exact Log.Complains.refl _
  | error e => exact a.complains_error location (e.isComplaint location)

lemma complains_defineLabel (value : UInt16) :
    a.log.Complains (a.defineLabel label value).log := by
  cases label with
  | none => exact Log.Complains.refl _
  | some t => exact a.complains_withSymbols _ _

lemma complains_moveTo (target : UInt16) : a.log.Complains (a.moveTo target location).log := by
  rw [moveTo]
  split
  · exact Log.Complains.refl _
  · split
    · exact a.complains_emit location _
    · exact a.complains_error location (Message.isComplaint_append (by decide +kernel) _ _)

lemma complains_assign (how : Assignment) (value : Option UInt16) :
    a.log.Complains (a.assign how location label value).log := by
  cases label with
  | none => exact a.complains_error location (Message.isComplaint_append (by decide +kernel) _ _)
  | some t =>
    cases value with
    | none => exact Log.Complains.refl _
    | some v => cases how <;> exact a.complains_withSymbols _ _

lemma complains_put {e : Emission} (h : ∀ m ∈ e.messages, m.IsComplaint) :
    a.log.Complains (a.put e location).log := by
  rw [put]
  split
  · exact (a.complains_report h).trans (complains_emit _ _ _)
  · exact a.complains_report h

/-- What a statement of the processor does is followed by complaints only. -/
lemma complains_execute {statement : Statement} (hbelongs : statement.BelongsTo a.cpu) :
    a.log.Complains (a.execute a.code.locationCounter label statement).1.log := by
  have hlabel := a.complains_defineLabel label a.code.locationCounter
  cases statement with
  | empty location => exact hlabel
  | endUnit location => exact hlabel
  | cpu location name =>
    simp only [execute]
    split
    · exact hlabel
    · exact hlabel.trans
        (complains_error _ _ (Message.isComplaint_append (by decide +kernel) _ _))
  | org location origin =>
    have hreport :
        a.log.Complains (a.report (origin.evaluate a.symbols a.code.locationCounter).2).log :=
      a.complains_report origin.isComplaint_of_mem_evaluate
    simp only [execute]
    refine Log.Complains.trans ?_ (complains_defineLabel _ _ _)
    split
    · exact hreport.trans (complains_moveTo _ _ _)
    · exact hreport
  | assign how location v =>
    exact (a.complains_report v.isComplaint_of_mem_evaluate).trans (complains_assign _ _ _ _ _)
  | data width location items =>
    exact hlabel.trans (complains_put _ _ Item.isComplaint_of_mem_emissions)
  | instruction i location arguments =>
    exact hlabel.trans
      (complains_put _ _ (Instruction.isComplaint_of_mem_emission hbelongs.2))

lemma complains_examine (here : UInt16) (fragment : Fragment) :
    a.log.Complains (a.examine here label fragment).1.log := by
  have hlabel := a.complains_defineLabel label here
  cases fragment with
  | nothing => exact hlabel
  | org location | assign how location => exact Log.Complains.refl _
  | data width location items =>
    exact hlabel.trans (complains_report _ Item.isComplaint_of_mem_emissions)
  | instruction i location arguments =>
    exact hlabel.trans (complains_report _ Argument.isComplaint_of_mem_flatMap)

/-- Accepting a line that was read adds complaints. -/
lemma complains_accept {line : SourceLine} {label comment : Option Token} {statement : Statement}
    (hread : line.read a.cpu = .accepted label statement comment) (location : Location) :
    a.log.Complains (a.accept location label statement comment).log :=
  a.complains_execute label (SourceLine.belongsTo_of_read hread)

/-- Rejecting a line adds complaints, and its failure behind them. -/
lemma complains_reject (fragment : Fragment) (failure : Failure) :
    ∃ log, a.log.Complains log ∧
      (a.reject label fragment failure).log = log.report failure.message :=
  ⟨_, a.complains_examine label a.code.locationCounter fragment, rfl⟩

/-- No line is the cause of an exception. -/
lemma exceptions_step (line : SourceLine) :
    (a.step line).log.exceptions = a.log.exceptions := by
  rcases a.step_eq_cases line with
    ⟨-, heq⟩ | ⟨first, label, statement, comment, -, hread, heq⟩ |
      ⟨first, label, fragment, failure, -, -, heq⟩
  · rw [heq]
  · rw [heq]
    exact (a.complains_accept hread first.location).same.2
  · have hfailure : failure.message.severity ≠ .exception := by simp [Failure.message]
    obtain ⟨log, hcomplains, hlog⟩ := a.complains_reject label fragment failure
    rw [heq, hlog, Log.exceptions_report hfailure, hcomplains.same.2]

/-- The warning about text after the end is a complaint. -/
lemma complains_warnAfterEnd (lines : List SourceLine) :
    a.log.Complains (a.warnAfterEnd lines).log := by
  rw [warnAfterEnd]
  split
  · refine a.complains_report ?_
    rw [List.forall_mem_singleton]
    exact ⟨by simp, rfl⟩
  · exact Log.Complains.refl _

end Assembly

end MicroAsm
