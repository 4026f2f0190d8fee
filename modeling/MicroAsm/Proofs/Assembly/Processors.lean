import MicroAsm.Proofs.Assembly.Inert
import MicroAsm.Proofs.Assembly.Resolution

/-!
# A processor with more instructions

The 8085 has the instructions of the 8080 and two more. What the smaller processor accepts of a
source the larger one accepts too, and reads it the same way, so a source without errors on the 8080
comes to the same on the 8085. Between its CPU directives the two runs differ in nothing but the
processor that is selected, and an accepted CPU directive takes that difference away.
-/

namespace MicroAsm

/-! ### Processors -/

/-- A processor has all the instructions of another: the 8085 those of the 8080. -/
inductive Cpu.Extends : Cpu → Cpu → Prop
  | refl (cpu : Cpu) : Extends cpu cpu
  | intel8085 : Extends .intel8080 .intel8085

namespace Cpu.Extends

variable {cpu cpu' : Cpu}

lemma instructions_prefix (h : Cpu.Extends cpu cpu') : cpu.instructions <+: cpu'.instructions := by
  cases h with
  | refl => exact List.prefix_refl _
  | intel8085 => exact List.prefix_append _ _

/-- A mnemonic that is supported stands for the same instruction. -/
lemma lookup (h : Cpu.Extends cpu cpu') {mnemonic : String} {i : Instruction}
    (hi : cpu.lookup mnemonic = .supported i) : cpu'.lookup mnemonic = .supported i := by
  obtain ⟨extra, hextra⟩ := h.instructions_prefix
  have hfound : cpu.instruction? mnemonic = some i := by
    rw [Cpu.lookup] at hi
    split at hi
    · rename_i heq
      cases hi
      exact heq
    · split at hi <;> cases hi
  have hfound' : cpu'.instruction? mnemonic = some i := by
    rw [Cpu.instruction?, Instruction.named?] at hfound ⊢
    rw [← hextra, List.find?_append, hfound, Option.some_or]
  rw [Cpu.lookup, hfound']

/-- A statement that selects a processor selects the same one, and any other selects none. -/
lemma cpuAfter (h : Cpu.Extends cpu cpu') (statement : Statement) :
    Cpu.Extends (Assembly.cpuAfter cpu statement) (Assembly.cpuAfter cpu' statement) := by
  cases statement with
  | cpu location name =>
    simp only [Assembly.cpuAfter]
    cases Cpu.ofName? name.value with
    | none => exact h
    | some selected => exact .refl selected
  | _ => exact h

/-! ### Reading -/

/-- Only the mnemonic of an instruction is looked up, and only a supported one is accepted. -/
lemma readStatement (h : Cpu.Extends cpu cpu') {stop : Token} {ts : List Token}
    {r : Statement × List Token} (hread : Reader.readStatement cpu stop ts = .ok r) :
    Reader.readStatement cpu' stop ts = .ok r := by
  cases ts with
  | nil => exact hread
  | cons t rest =>
    cases hkind : t.kind with
    | identifier =>
      simp only [Reader.readStatement, hkind] at hread ⊢
      cases hlookup : cpu.lookup t.value with
      | supported i =>
        simp only [hlookup] at hread
        simpa only [h.lookup hlookup] using hread
      | otherCpu other =>
        simp only [hlookup] at hread
        cases hread
      | unknown =>
        simp only [hlookup] at hread
        cases hread
    | _ => simpa only [Reader.readStatement, hkind] using hread

lemma read (h : Cpu.Extends cpu cpu') {line : SourceLine} {label comment : Option Token}
    {statement : Statement} (hread : line.read cpu = .accepted label statement comment) :
    line.read cpu' = .accepted label statement comment := by
  simp only [SourceLine.read] at hread ⊢
  cases hstatement : Reader.readStatement cpu line.stop (Reader.readLabel line.body).2 with
  | error e =>
    rw [hstatement] at hread
    cases hread
  | ok r =>
    rw [hstatement] at hread
    rw [h.readStatement hstatement]
    exact hread

end Cpu.Extends

/-! ### Assembling -/

namespace Assembly

/-- The state with another processor selected. -/
def onCpu (a : Assembly) (cpu : Cpu) : Assembly :=
  { a with cpu }

variable (a : Assembly) (cpu : Cpu)

lemma inert_onCpu : Inert (onCpu · cpu) where
  symbols _ := rfl
  code _ := rfl
  report _ _ := rfl
  setSymbols _ _ := rfl
  setCode _ _ := rfl
  setEnded _ := rfl

/-- What a statement does is the same on any processor, and so are its nodes. -/
lemma onCpu_execute (here : UInt16) (label : Option Token) (statement : Statement) :
    (a.onCpu cpu).execute here label statement =
      ((a.execute here label statement).1.onCpu (cpuAfter cpu statement),
        (a.execute here label statement).2) := by
  have hdefine : (a.onCpu cpu).defineLabel label here = (a.defineLabel label here).onCpu cpu :=
    (inert_onCpu cpu).defineLabel a label here
  cases statement with
  | cpu location name =>
    simp only [execute, hdefine, cpuAfter]
    cases Cpu.ofName? name.value <;> rfl
  | _ => exact (inert_onCpu cpu).execute a here label (by rintro _ _ ⟨⟩)

lemma onCpu_accept (location : Location) (label : Option Token) (statement : Statement)
    (comment : Option Token) :
    (a.onCpu cpu).accept location label statement comment =
      (a.accept location label statement comment).onCpu (cpuAfter cpu statement) := by
  have hcode : (a.onCpu cpu).code = a.code := rfl
  simp only [accept, hcode, onCpu_execute]
  rfl

variable {a cpu}

/-- A line without an error leaves the states with the smaller and the larger processor as much
alike as they were. -/
lemma onCpu_step (h : a.cpu.Extends cpu) {line : SourceLine}
    (hclean : (a.step line).log.errors = a.log.errors) :
    ∃ after, (a.step line).cpu.Extends after ∧
      (a.onCpu cpu).step line = (a.step line).onCpu after := by
  rcases a.step_cases hclean with
    ⟨hbody, heq⟩ | ⟨first, label, statement, comment, hfirst, hread, heq⟩
  · rw [heq, (a.onCpu cpu).step_of_body_eq_nil hbody]
    exact ⟨cpu, h, rfl⟩
  · have hread' : line.read (a.onCpu cpu).cpu = .accepted label statement comment := h.read hread
    have hcpu : (a.accept first.location label statement comment).cpu = cpuAfter a.cpu statement :=
      a.execute_cpu _ _ _
    rw [heq, step_eq_accept hfirst hread', onCpu_accept, hcpu]
    exact ⟨_, h.cpuAfter statement, rfl⟩

/-- A run without an error selects other processors at most where the source does not say which. -/
lemma onCpu_run (h : a.cpu.Extends cpu) {lines : List SourceLine}
    (hclean : (a.run lines).log.errors = a.log.errors) :
    ∃ after, (a.run lines).cpu.Extends after ∧
      (a.onCpu cpu).run lines = (a.run lines).onCpu after := by
  induction lines generalizing a cpu with
  | nil => exact ⟨cpu, h, rfl⟩
  | cons line lines ih =>
    have hended : (a.onCpu cpu).ended = a.ended := rfl
    rw [run] at hclean
    rw [run, run, hended]
    by_cases hend : a.ended = true
    · rw [if_pos hend, if_pos hend, (a.warnAfterEnd_frame _).1]
      exact ⟨cpu, h, (inert_onCpu cpu).warnAfterEnd a _⟩
    · rw [if_neg hend] at hclean
      rw [if_neg hend, if_neg hend]
      -- Errors are never taken back, so neither the line nor those after it add any.
      have hle := a.errors_le_step line
      have hle' := (a.step line).errors_le_run lines
      have hclean' : (a.step line).log.errors = a.log.errors := by omega
      obtain ⟨after, hextends, hstep⟩ := onCpu_step h hclean'
      rw [hstep]
      exact ih hextends (by omega)

lemma onCpu_finish (a : Assembly) (cpu : Cpu) (moduleName : String) :
    (a.onCpu cpu).finish moduleName =
      ({ (a.finish moduleName).1 with cpu }, (a.finish moduleName).2) := rfl

lemma errors_le_finish (a : Assembly) (moduleName : String) :
    a.log.errors ≤ (a.finish moduleName).2.errors :=
  a.errors_le_resolved

end Assembly

/-- A source that assembles on the 8080 without an error comes to the same on the 8085, whatever
processors it selects itself: the same messages, records, object code, symbols and syntax tree. Only
the processor selected at the end may be the 8085 for the 8080, if the source selects none. -/
theorem assemble_intel8085_eq (moduleName source : String)
    (hclean : (assemble .intel8080 moduleName source).2.errors = 0) :
    (assemble .intel8085 moduleName source).2 = (assemble .intel8080 moduleName source).2 ∧
    (assemble .intel8085 moduleName source).1.records =
      (assemble .intel8080 moduleName source).1.records ∧
    (assemble .intel8085 moduleName source).1.object =
      (assemble .intel8080 moduleName source).1.object ∧
    (assemble .intel8085 moduleName source).1.symbols =
      (assemble .intel8080 moduleName source).1.symbols ∧
    (assemble .intel8085 moduleName source).1.tree =
      (assemble .intel8080 moduleName source).1.tree ∧
    (assemble .intel8080 moduleName source).1.cpu.Extends
      (assemble .intel8085 moduleName source).1.cpu := by
  let a : Assembly := { cpu := .intel8080 }
  let lines := SourceLine.ofText source
  have hsmall : assemble .intel8080 moduleName source = (a.run lines).finish moduleName := rfl
  have hlarge : assemble .intel8085 moduleName source =
      ((a.onCpu .intel8085).run lines).finish moduleName := rfl
  have hrun : (a.run lines).log.errors = a.log.errors := by
    have hle := (a.run lines).errors_le_finish moduleName
    rw [hsmall] at hclean
    exact Nat.le_zero.mp (hclean ▸ hle)
  obtain ⟨after, hextends, heq⟩ := Assembly.onCpu_run .intel8085 hrun
  rw [hlarge, hsmall, heq, Assembly.onCpu_finish]
  exact ⟨rfl, rfl, rfl, rfl, rfl, hextends⟩

/-- A source that selects the 8085 for one instruction and goes back, with a jump ahead and text
after its end. -/
theorem assemble_intel8085_eq_of_directives :
    let source := "JMP X\nCPU 8085\nRIM\nCPU 8080\nX: END\nNOP"
    (assemble .intel8080 "MAIN" source).2.errors = 0 ∧
      (assemble .intel8085 "MAIN" source).2.messages.toList =
        [⟨.warning, ⟨6, 1, 35⟩, "Text after END is ignored"⟩] ∧
      ((assemble .intel8085 "MAIN" source).1.object.get? .code).map (·.bytes.toList) =
        some [0xC3, 0x04, 0x00, 0x20] := by
  intro source
  have hclean : (assemble .intel8080 "MAIN" source).2.errors = 0 := by decide +kernel
  obtain ⟨hlog, -, hobject, -, -, -⟩ := assemble_intel8085_eq "MAIN" source hclean
  refine ⟨hclean, ?_, ?_⟩
  · rw [hlog]
    decide +kernel
  · rw [hobject]
    decide +kernel

end MicroAsm
