import MicroAsm.Assembler
import MicroAsm.Proofs.Assembly.Logs

/-!
# Histories of logs

A log keeps every message that was ever reported to it, in the order of the reports, and its counts
are always those of its messages. Assembling a source is one report after the other, whatever the
log holds already. Only the promotion of warnings changes messages, and it changes nothing but their
severity.
-/

namespace MicroAsm

/-! ### Counts of messages -/

/-- The counts of a log are those of its messages. -/
structure Log.Counted (log : Log) : Prop where
  errors : log.errors = log.messages.toList.countP (·.severity = .error)
  warnings : log.warnings = log.messages.toList.countP (·.severity = .warning)
  exceptions : log.exceptions = log.messages.toList.countP (·.severity = .exception)

namespace Log.Counted

variable {log : Log}

lemma report (h : log.Counted) (m : Message) : (log.report m).Counted := by
  obtain ⟨severity, location, text⟩ := m
  obtain ⟨herrors, hwarnings, hexceptions⟩ := h
  cases severity <;> constructor <;>
    simp [Log.report, List.countP_append, herrors, hwarnings, hexceptions]

lemma reportAll (h : log.Counted) (ms : List Message) : (log.reportAll ms).Counted := by
  induction ms generalizing log with
  | nil => exact h
  | cons m ms ih => exact ih (h.report m)

lemma countP_promoted (ms : List Message) :
    (ms.map promoted).countP (·.severity = .error) =
        ms.countP (·.severity = .error) + ms.countP (·.severity = .warning) ∧
      (ms.map promoted).countP (·.severity = .warning) = 0 ∧
      (ms.map promoted).countP (·.severity = .exception) =
        ms.countP (·.severity = .exception) := by
  induction ms with
  | nil => simp
  | cons m ms ih =>
    obtain ⟨severity, location, text⟩ := m
    obtain ⟨herrors, hwarnings, hexceptions⟩ := ih
    simp only [List.map_cons, List.countP_cons, herrors, hwarnings, hexceptions]
    cases severity <;> simp [promoted] <;> omega

lemma promoteWarnings (h : log.Counted) : log.promoteWarnings.Counted := by
  obtain ⟨herrors, hwarnings, hexceptions⟩ := countP_promoted log.messages.toList
  constructor
  · rw [Log.promoteWarnings, Array.toList_map, herrors, ← h.errors, ← h.warnings]
  · rw [Log.promoteWarnings, Array.toList_map, hwarnings]
  · rw [Log.promoteWarnings, Array.toList_map, hexceptions, ← h.exceptions]

/-- What stands against the use of the object code is every message that is no warning. -/
lemma failures_eq (h : log.Counted) :
    log.failures = log.messages.toList.countP (·.severity ≠ .warning) := by
  rw [failures, h.errors, h.exceptions]
  induction log.messages.toList with
  | nil => rfl
  | cons m ms ih =>
    obtain ⟨severity, location, text⟩ := m
    simp only [List.countP_cons, ← ih]
    cases severity <;> simp <;> omega

end Log.Counted

/-- The counts that come with the messages about a source are right. -/
lemma counted_assemble (cpu : Cpu) (moduleName source : String) :
    (assemble cpu moduleName source).2.Counted := by
  have hnew : Log.Counted {} := ⟨rfl, rfl, rfl⟩
  rw [assemble, assembleInto_eq]
  exact hnew.reportAll _

lemma Config.counted_assemble (c : Config) (moduleName : Option String) (source : String) :
    (c.assemble moduleName source).log.Counted := by
  have h := MicroAsm.counted_assemble c.cpu
    ((moduleName.or c.moduleName).getD Program.defaultModule) source
  simp only [Config.assemble]
  split
  · exact h.promoteWarnings
  · exact h

/-- When warnings are to be errors, a source can be used if there is no message about it. -/
lemma Config.succeeded_iff_of_warningsAsErrors {c : Config} (h : c.warningsAsErrors = true)
    (moduleName : Option String) (source : String) :
    (c.assemble moduleName source).succeeded = true ↔
      (c.assemble moduleName source).log.messages = #[] := by
  have hcounted := c.counted_assemble moduleName source
  have hwarnings : (c.assemble moduleName source).log.warnings = 0 := by
    simp [assemble, h, Log.promoteWarnings]
  rw [hcounted.warnings, List.countP_eq_zero] at hwarnings
  rw [Assembled.succeeded, Assembled.failures, hcounted.failures_eq, beq_iff_eq,
    List.countP_eq_zero, ← Array.toList_eq_nil_iff, List.eq_nil_iff_forall_not_mem]
  refine forall₂_congr fun m hm => ?_
  simpa using hwarnings m hm

/-! ### Operations -/

namespace Log

/-- What is done with a log: reports of every kind, the promotion of warnings, and the assembly of a
source. -/
inductive Operation where
  | syntaxError (location : Location) (expected found : String)
  | error (location : Location) (text : String)
  | warning (location : Location) (text : String)
  | globalWarning (text : String)
  | exception (text : String)
  | promoteWarnings
  | assemble (cpu : Cpu) (moduleName source : String)
deriving DecidableEq, Repr

/-- The log after an operation. -/
def apply (log : Log) : Operation → Log
  | .syntaxError location expected found => log.syntaxError location expected found
  | .error location text => log.error location text
  | .warning location text => log.warning location text
  | .globalWarning text => log.globalWarning text
  | .exception text => log.exception text
  | .promoteWarnings => log.promoteWarnings
  | .assemble cpu moduleName source => (assembleInto log cpu moduleName source).2

/-- A new log after operations. -/
def after (operations : List Operation) : Log :=
  operations.foldl apply {}

/-- The messages that an operation reports. -/
def Operation.reports : Operation → List Message
  | syntaxError location expected found => [⟨.error, location, expectedText expected found⟩]
  | error location text => [⟨.error, location, text⟩]
  | warning location text => [⟨.warning, location, text⟩]
  | globalWarning text => [⟨.warning, .none, text⟩]
  | exception text => [⟨.exception, .none, text⟩]
  | promoteWarnings => []
  | assemble cpu moduleName source => (MicroAsm.assemble cpu moduleName source).2.messages.toList

/-- What operations make of an earlier message. -/
def promotedBy (operations : List Operation) : Message → Message :=
  if .promoteWarnings ∈ operations then promoted else id

variable (log : Log) (o : Operation) (operations more : List Operation)

/-- An operation promotes the warnings, or reports its messages. -/
lemma apply_cases :
    o = .promoteWarnings ∧ log.apply o = log.promoteWarnings ∨
      o ≠ .promoteWarnings ∧ log.apply o = log.reportAll o.reports := by
  cases o with
  | promoteWarnings => exact Or.inl ⟨rfl, rfl⟩
  | assemble cpu moduleName source =>
    exact Or.inr ⟨by simp, congrArg Prod.snd (assembleInto_eq log cpu moduleName source)⟩
  | _ => exact Or.inr ⟨by simp, rfl⟩

lemma after_concat : after (operations ++ [o]) = (after operations).apply o := by
  simp [after]

lemma counted_after : (after operations).Counted := by
  induction operations using List.reverseRecOn with
  | nil => exact ⟨rfl, rfl, rfl⟩
  | append_singleton operations o ih =>
    rw [after_concat]
    rcases (after operations).apply_cases o with ⟨-, heq⟩ | ⟨-, heq⟩
    · rw [heq]
      exact ih.promoteWarnings
    · rw [heq]
      exact ih.reportAll _

/-! ### Messages -/

lemma promoted_promoted (m : Message) : promoted (promoted m) = promoted m := by
  obtain ⟨severity, location, text⟩ := m
  cases severity <;> rfl

lemma promotedBy_append :
    promotedBy (operations ++ more) = promotedBy more ∘ promotedBy operations := by
  funext m
  by_cases hoperations : .promoteWarnings ∈ operations <;>
    by_cases hmore : .promoteWarnings ∈ more <;>
    simp [promotedBy, hoperations, hmore, promoted_promoted]

/-- Promotion keeps where a message stands and what it says. -/
lemma promotedBy_frame (m : Message) :
    (promotedBy operations m).location = m.location ∧ (promotedBy operations m).text = m.text := by
  obtain ⟨severity, location, text⟩ := m
  rw [promotedBy]
  split
  · cases severity <;> exact ⟨rfl, rfl⟩
  · exact ⟨rfl, rfl⟩

/-- An operation puts its messages behind the earlier ones. -/
lemma messages_apply :
    (log.apply o).messages.toList = log.messages.toList.map (promotedBy [o]) ++ o.reports := by
  rcases log.apply_cases o with ⟨rfl, heq⟩ | ⟨hne, heq⟩
  · rw [heq, Log.promoteWarnings, Array.toList_map]
    simp [promotedBy, Operation.reports]
  · rw [heq, messages_reportAll]
    simp [promotedBy, Ne.symm hne]

/-- Later operations put their messages behind the earlier ones, and the same as for a new log. -/
lemma messages_after_append :
    (after (operations ++ more)).messages.toList =
      (after operations).messages.toList.map (promotedBy more) ++ (after more).messages.toList := by
  induction more using List.reverseRecOn with
  | nil => simp [promotedBy, after]
  | append_singleton more o ih =>
    rw [← List.append_assoc, after_concat, messages_apply, ih, after_concat, messages_apply,
      List.map_append, List.map_map, promotedBy_append, List.append_assoc]

/-- Every report is kept, with its place and its text. -/
lemma map_messages_after :
    (after operations).messages.toList.map (fun m => (m.location, m.text)) =
      (operations.flatMap Operation.reports).map (fun m => (m.location, m.text)) := by
  induction operations using List.reverseRecOn with
  | nil => rfl
  | append_singleton operations o ih =>
    have hkeeps : (fun m : Message => (m.location, m.text)) ∘ promotedBy [o] =
        fun m => (m.location, m.text) := by
      funext m
      obtain ⟨hlocation, htext⟩ := promotedBy_frame [o] m
      exact Prod.ext hlocation htext
    rw [after_concat, messages_apply, List.map_append, List.map_map, hkeeps, ih,
      List.flatMap_append, List.flatMap_singleton, List.map_append]

end Log

/-- What a log is after any reports, promotions and assemblies. Its counts are those of its
messages. Later operations leave the earlier messages at the front, with their places and texts, and
change their severity only by promotion; what they report themselves is the same as for a new log.
So nothing that was reported is missing and no two reports have become one. Assembling a source
only puts messages behind the others, and comes to the same program and the same messages as with a
new log. A source that is assembled with warnings as errors can be used if and only if there is no
message about it. -/
theorem counted_and_kept_after (operations : List Log.Operation) :
    (Log.after operations).Counted ∧
    (∀ more, (Log.after (operations ++ more)).messages.toList =
      (Log.after operations).messages.toList.map (Log.promotedBy more) ++
        (Log.after more).messages.toList) ∧
    (∀ more m, (Log.promotedBy more m).location = m.location ∧
      (Log.promotedBy more m).text = m.text ∧
      (.promoteWarnings ∉ more → Log.promotedBy more m = m)) ∧
    (Log.after operations).messages.toList.map (fun m => (m.location, m.text)) =
      (operations.flatMap Log.Operation.reports).map (fun m => (m.location, m.text)) ∧
    (∀ cpu moduleName source,
      (assembleInto (Log.after operations) cpu moduleName source).1 =
          (assemble cpu moduleName source).1 ∧
        (assembleInto (Log.after operations) cpu moduleName source).2.messages.toList =
          (Log.after operations).messages.toList ++
            (assemble cpu moduleName source).2.messages.toList ∧
        (assembleInto (Log.after operations) cpu moduleName source).2.Counted) ∧
    ∀ (c : Config) moduleName source, c.warningsAsErrors = true →
      ((c.assemble moduleName source).succeeded = true ↔
        (c.assemble moduleName source).log.messages = #[]) := by
  refine ⟨Log.counted_after operations, Log.messages_after_append operations, fun more m => ?_,
    Log.map_messages_after operations, fun cpu moduleName source => ?_,
    fun c moduleName source h => Config.succeeded_iff_of_warningsAsErrors h moduleName source⟩
  · obtain ⟨hlocation, htext⟩ := Log.promotedBy_frame more m
    exact ⟨hlocation, htext, fun hmore => by rw [Log.promotedBy, if_neg hmore, id]⟩
  · rw [assembleInto_eq]
    exact ⟨rfl, Log.messages_reportAll _ _, (Log.counted_after operations).reportAll _⟩

/-- A source with text behind its end, assembled into a log between two promotions: its warning is
counted as such until the second. With warnings as errors it cannot be used, but the part in front
of the text can. -/
theorem counted_and_kept_after_promotions :
    let operations : List Log.Operation :=
      [.warning ⟨1, 1, 0⟩ "w", .promoteWarnings, .assemble .intel8080 "MAIN" "DB X\nEND\nNOP"]
    let strict : Config := { warningsAsErrors := true }
    (Log.after operations).Counted ∧ (Log.after operations).errors = 2 ∧
      (Log.after operations).warnings = 1 ∧
      (Log.after (operations ++ [.promoteWarnings])).messages.toList =
        (Log.after operations).messages.toList.map Log.promoted ∧
      strict.warningsAsErrors = true ∧ (strict.assemble none "NOP\nEND\nNOP").succeeded = false ∧
      (strict.assemble none "NOP\nEND").succeeded = true := by
  intro operations strict
  obtain ⟨hcounted, hmore, -, -, -, hstrict⟩ := counted_and_kept_after operations
  refine ⟨hcounted, by decide +kernel, by decide +kernel, ?_, rfl, ?_, ?_⟩
  · rw [hmore [.promoteWarnings]]
    simp [Log.promotedBy, Log.after, Log.apply, Log.promoteWarnings]
  · have hmessages : (strict.assemble none "NOP\nEND\nNOP").log.messages ≠ #[] := by decide +kernel
    rw [← Bool.not_eq_true, hstrict strict none _ rfl]
    exact hmessages
  · have hmessages : (strict.assemble none "NOP\nEND").log.messages = #[] := by decide +kernel
    exact (hstrict strict none _ rfl).mpr hmessages

end MicroAsm
