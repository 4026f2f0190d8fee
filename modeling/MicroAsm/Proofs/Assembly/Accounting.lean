import MicroAsm.Proofs.Assembly.Slots
import MicroAsm.Proofs.Statement.Failing

/-!
# Accounting for every line

Assembling takes the physical lines of a text one after the other, up to the first that ends the
unit. A blank line leaves no trace. Every other line leaves one accepted line in the program or one
failure in the log, located on that line, and never both. So the numbers of accepted lines and of
failures together are those of the lines that are not blank, each once.
-/

namespace MicroAsm

/-- How a line that was read fails, if it does. -/
def LineReading.failure? : LineReading → Option Failure
  | accepted _ _ _ => none
  | rejected _ _ failure => some failure

def Statement.isEnd : Statement → Bool
  | endUnit _ => true
  | _ => false

/-- The line is an accepted END. -/
def SourceLine.endsUnit (cpu : Cpu) (line : SourceLine) : Bool :=
  match line.read cpu with
  | .accepted _ statement _ => statement.isEnd
  | .rejected _ _ _ => false

/-- The lines of a unit: those up to the first accepted END, with it, or all of them. -/
def unitLines (cpu : Cpu) : List SourceLine → List SourceLine
  | [] => []
  | line :: lines =>
    if line.endsUnit cpu then [line]
    else line :: unitLines (Reference.cpuAfterLine cpu line) lines

/-- The numbers of the lines that are not blank. -/
def workNumbers (lines : List SourceLine) : List Nat :=
  ((lines.zipIdx 1).filter fun numbered => !numbered.1.body.isEmpty).map Prod.snd

lemma workNumbers_concat (done : List SourceLine) (line : SourceLine) :
    workNumbers (done ++ [line]) =
      workNumbers done ++ if line.body = [] then [] else [done.length + 1] := by
  rw [workNumbers, List.zipIdx_append, List.filter_append, List.map_append, workNumbers]
  by_cases hbody : line.body = []
  · simp [hbody]
  · simp [hbody, Nat.add_comm]

lemma le_length_of_mem_workNumbers {lines : List SourceLine} {n : Nat}
    (h : n ∈ workNumbers lines) : n ≤ lines.length := by
  obtain ⟨⟨line, k⟩, hmem, rfl⟩ := List.mem_map.mp h
  have hlt := List.snd_lt_of_mem_zipIdx (List.mem_of_mem_filter hmem)
  simp only
  omega

namespace Assembly

variable (a : Assembly)

/-! ### Lines that are taken -/

lemma execute_ended (here : UInt16) (label : Option Token) (statement : Statement) :
    (a.execute here label statement).1.ended = (a.ended || statement.isEnd) := by
  cases statement with
  | cpu location name =>
    simp only [execute]
    split <;> simp [Statement.isEnd]
  | org location origin =>
    simp only [execute]
    split <;> simp [Statement.isEnd]
  | _ => simp [execute, Statement.isEnd]

lemma kind_execute_eq_endUnit_iff (here : UInt16) (label : Option Token)
    (statement : Statement) :
    (a.execute here label statement).2.1.kind = .endUnit ↔ statement.isEnd = true := by
  cases statement with
  | data width location items => cases width <;> simp [execute, Width.directive, Statement.isEnd]
  | assign how location v =>
    cases how <;> simp [execute, Assignment.directive, Assignment.nodeKind, Statement.isEnd]
  | _ => simp [execute, Instruction.node, orgDirective, Statement.isEnd]

/-- A line ends the unit if it is an accepted END. -/
lemma step_ended (line : SourceLine) :
    (a.step line).ended = (a.ended || line.endsUnit a.cpu) := by
  rcases a.step_eq_cases line with
    ⟨hbody, heq⟩ | ⟨first, label, statement, comment, -, hread, heq⟩ |
      ⟨first, label, fragment, failure, -, hread, heq⟩
  · rw [heq, SourceLine.endsUnit, read_of_body_eq_nil _ hbody]
    simp [Statement.isEnd]
  · rw [heq, SourceLine.endsUnit, hread]
    exact a.execute_ended _ _ _
  · rw [heq, SourceLine.endsUnit, hread, (reject_frame _ _ _ _).2.2.2]
    simp

lemma step_cpu (line : SourceLine) :
    (a.step line).cpu = Reference.cpuAfterLine a.cpu line := by
  rcases a.step_eq_cases line with
    ⟨hbody, heq⟩ | ⟨first, label, statement, comment, -, hread, heq⟩ |
      ⟨first, label, fragment, failure, -, hread, heq⟩
  · rw [heq, cpuAfterLine_of_read (read_of_body_eq_nil _ hbody)]
    rfl
  · rw [heq, cpuAfterLine_of_read hread]
    exact a.execute_cpu _ _ _
  · rw [heq, Reference.cpuAfterLine, hread, (reject_frame _ _ _ _).1]

lemma run_of_ended (h : a.ended = true) (lines : List SourceLine) :
    a.run lines = a.warnAfterEnd lines := by
  cases lines with
  | nil => rfl
  | cons line lines => rw [run, if_pos h]

/-- A run takes the lines of the unit. -/
lemma run_eq_unitLines (h : a.ended = false) (lines : List SourceLine) :
    ∃ rest, lines = unitLines a.cpu lines ++ rest ∧
      a.run lines = (a.steps (unitLines a.cpu lines)).warnAfterEnd rest := by
  induction lines generalizing a with
  | nil => exact ⟨[], rfl, rfl⟩
  | cons line lines ih =>
    have hended := a.step_ended line
    rw [h, Bool.false_or] at hended
    rw [a.run_cons line lines h, unitLines]
    by_cases hend : line.endsUnit a.cpu = true
    · rw [if_pos hend]
      exact ⟨lines, rfl, run_of_ended _ (hended.trans hend) lines⟩
    · rw [if_neg hend]
      obtain ⟨rest, hrest, hrun⟩ := ih (a.step line) (by rw [hended]; simpa using hend)
      rw [step_cpu] at hrest hrun
      refine ⟨rest, ?_, hrun⟩
      rw [List.cons_append, ← hrest]

lemma mem_of_mem_unitLines {cpu : Cpu} {lines : List SourceLine} {line : SourceLine}
    (h : line ∈ unitLines cpu lines) : line ∈ lines := by
  obtain ⟨rest, hunit, -⟩ := ({ cpu } : Assembly).run_eq_unitLines rfl lines
  rw [hunit]
  exact List.mem_append_left rest h

/-! ### What a line leaves -/

/-- What is left of a line of the given number: nothing of a blank line, an accepted line and no
failure, or a failure and no accepted line. Only an accepted END ends the unit. -/
inductive Accounts (number : Nat) (line : SourceLine) (a b : Assembly) : Prop
  | blank (hbody : line.body = []) (heq : b = a)
  | accepted (l : Line) (hread : (line.read a.cpu).failure? = none) (hbody : line.body ≠ [])
      (hnumber : l.location.line = number) (hlines : b.lines = a.lines ++ [l])
      (hfailed : b.log.failed = a.log.failed)
      (hended : b.ended = true ↔ a.ended = true ∨ l.statement.kind = .endUnit)
  | rejected (failure : Failure) (hread : (line.read a.cpu).failure? = some failure)
      (hbody : line.body ≠ []) (hnumber : failure.location.line = number)
      (hlines : b.lines = a.lines) (hfailed : b.log.failed = a.log.failed ++ [failure.message])
      (hended : b.ended = a.ended)

/-- Every line is accounted for on its own number. -/
lemma accounts_step {number : Nat} {line : SourceLine}
    (hnumber : ∀ t ∈ line.tokens, t.location.line = number) :
    Accounts number line a (a.step line) := by
  rcases a.step_eq_cases line with
    ⟨hbody, heq⟩ | ⟨first, label, statement, comment, hfirst, hread, heq⟩ |
      ⟨first, label, fragment, failure, hfirst, hread, heq⟩
  · exact .blank hbody heq
  · have hmem := List.mem_of_head? hfirst
    rw [heq]
    refine .accepted (a.lineOf first.location label statement comment) (by rw [hread]; rfl)
      (List.ne_nil_of_mem hmem) ?_ (a.lines_accept _ _ _ _)
      (a.complains_accept hread first.location).same.1 ?_
    · exact hnumber first (List.mem_append_left _ hmem)
    · have hkind := a.kind_execute_eq_endUnit_iff a.code.locationCounter label statement
      have hended := a.execute_ended a.code.locationCounter label statement
      rw [lineOf, hkind, ← Bool.or_eq_true, ← hended]
      rfl
  · have hmem := List.mem_of_head? hfirst
    obtain ⟨t, ht, hlocation⟩ := SourceLine.blames_of_read hread
    obtain ⟨log, hcomplains, hlog⟩ := a.complains_reject label fragment failure
    -- Whatever is complained about before, only the last message turns the line down.
    have hfailure : failure.message.isFailure = true := Message.isFailure_iff.mpr ⟨failure, rfl⟩
    rw [heq]
    refine .rejected failure (by rw [hread]; rfl) (List.ne_nil_of_mem hmem) ?_ ?_ ?_
      (a.reject_frame label fragment failure).2.2.2
    · rw [hlocation, hnumber t ht]
    · simp [lines, Record.line?]
    · rw [hlog, Log.failed_report, hcomplains.same.1]
      simp [hfailure]

/-! ### Runs -/

/-- The accepted lines and the failures are those of the lines that are not blank. -/
structure Accounted (done : List SourceLine) (a : Assembly) : Prop where
  perm : (a.lines.map (·.location.line) ++ a.log.failed.map (·.location.line)).Perm
    (workNumbers done)
  lines_lt : (a.lines.map (·.location.line)).Pairwise (· < ·)
  failed_lt : (a.log.failed.map (·.location.line)).Pairwise (· < ·)

/-- A number behind all that are there already. -/
lemma pairwise_lt_concat {ns : List Nat} {n : Nat} (h : ns.Pairwise (· < ·))
    (hlt : ∀ k ∈ ns, k < n) : (ns ++ [n]).Pairwise (· < ·) := by
  rw [List.pairwise_append]
  exact ⟨h, List.pairwise_singleton _ _, by simpa using hlt⟩

/-- The next line is accounted for behind all others. -/
lemma Accounted.concat {done : List SourceLine} {line : SourceLine} {a b : Assembly}
    (h : Accounted done a) (hline : Accounts (done.length + 1) line a b) :
    Accounted (done ++ [line]) b := by
  have hlt : ∀ k ∈ a.lines.map (·.location.line) ++ a.log.failed.map (·.location.line),
      k < done.length + 1 := by
    intro k hk
    exact Nat.lt_succ_of_le (le_length_of_mem_workNumbers (h.perm.subset hk))
  rw [List.forall_mem_append] at hlt
  cases hline with
  | blank hbody heq =>
    rw [heq]
    refine ⟨?_, h.lines_lt, h.failed_lt⟩
    rw [workNumbers_concat, if_pos hbody, List.append_nil]
    exact h.perm
  | accepted l _ hbody hnumber hlines hfailed _ =>
    refine ⟨?_, ?_, ?_⟩
    · rw [workNumbers_concat, if_neg hbody, hlines, hfailed, List.map_append, List.map_singleton,
        hnumber, List.append_assoc]
      -- The new number stands in front of those of the failures and is moved behind them.
      refine (List.perm_append_comm.append_left _).trans ?_
      rw [← List.append_assoc]
      exact h.perm.append_right _
    · rw [hlines, List.map_append, List.map_singleton, hnumber]
      exact pairwise_lt_concat h.lines_lt hlt.1
    · rw [hfailed]
      exact h.failed_lt
  | rejected failure _ hbody hnumber hlines hfailed _ =>
    have hnumber : failure.message.location.line = done.length + 1 := hnumber
    refine ⟨?_, ?_, ?_⟩
    · rw [workNumbers_concat, if_neg hbody, hlines, hfailed, List.map_append, List.map_singleton,
        hnumber, ← List.append_assoc]
      exact h.perm.append_right _
    · rw [hlines]
      exact h.lines_lt
    · rw [hfailed, List.map_append, List.map_singleton, hnumber]
      exact pairwise_lt_concat h.failed_lt hlt.2

/-- After lines with their own numbers all of them are accounted for. -/
lemma accounted_steps (cpu : Cpu) {lines : List SourceLine}
    (hnumber : ∀ numbered ∈ lines.zipIdx 1, ∀ t ∈ numbered.1.tokens,
      t.location.line = numbered.2) :
    Accounted lines (({ cpu } : Assembly).steps lines) := by
  revert hnumber
  refine steps_rec (P := fun done a => (∀ numbered ∈ done.zipIdx 1, ∀ t ∈ numbered.1.tokens,
    t.location.line = numbered.2) → Accounted done a) _ ?_ ?_ lines
  · intro _
    exact ⟨.nil, .nil, .nil⟩
  · intro done a line ih hnumber
    rw [List.zipIdx_append, List.forall_mem_append, List.zipIdx_singleton,
      List.forall_mem_singleton, Nat.add_comm] at hnumber
    exact (ih hnumber.1).concat (a.accounts_step hnumber.2)

/-- The last pass changes neither the lines nor the failures. -/
lemma map_line_finish (moduleName : String) :
    (a.finish moduleName).1.lines.map (·.location.line) = a.lines.map (·.location.line) := by
  have hlocation : (fun l : Line => l.location.line) =
      (fun l : Line => l.location.line) ∘ Patching.outline := rfl
  have hlines : (a.finish moduleName).1.lines = a.resolved.1.filterMap Record.line? := rfl
  rw [hlines, hlocation, ← List.map_map, map_outline_resolved, List.map_map]

end Assembly

end MicroAsm
