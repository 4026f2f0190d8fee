import Mathlib.Data.List.Induction
import MicroAsm.Assembly.Program
import MicroAsm.Proofs.Diagnostic

/-!
# What a line changes

Each operation on the state of an assembly changes one part of it and may add errors to the log.
A line that adds no error was accepted, and each operation it consists of added none.
-/

namespace MicroAsm

namespace Segment

@[simp] lemma append_offset (s : Segment) (bs : List UInt8) : (s.append bs).offset = s.offset := rfl

@[simp] lemma append_name (s : Segment) (bs : List UInt8) : (s.append bs).name = s.name := rfl

@[simp] lemma toList_append (s : Segment) (bs : List UInt8) :
    (s.append bs).bytes.toList = s.bytes.toList ++ bs := by
  simp [append]

lemma size_eq_length (s : Segment) : s.size = s.bytes.toList.length := rfl

lemma endAddress_eq (s : Segment) : s.endAddress = s.offset.toNat + s.size := rfl

@[simp] lemma size_append (s : Segment) (bs : List UInt8) :
    (s.append bs).size = s.size + bs.length := by
  rw [size_eq_length, toList_append, List.length_append, size_eq_length]

@[simp] lemma endAddress_append (s : Segment) (bs : List UInt8) :
    (s.append bs).endAddress = s.endAddress + bs.length := by
  rw [endAddress_eq, size_append, append_offset, endAddress_eq, Nat.add_assoc]

lemma locationCounter_eq (s : Segment) :
    s.locationCounter = s.offset + UInt16.ofNat s.size := by
  rw [locationCounter, endAddress_eq, UInt16.ofNat_add, UInt16.ofNat_toNat]

lemma append_nil (s : Segment) : s.append [] = s := by
  simp [append]

lemma append_append (s : Segment) (bs bs' : List UInt8) :
    (s.append bs).append bs' = s.append (bs ++ bs') := by
  simp only [append, mk.injEq, true_and]
  apply Array.toList_inj.mp
  simp

end Segment

namespace Assembly

variable (a : Assembly)

/-! ### Operations -/

@[simp] lemma report_frame (ms : List Message) :
    (a.report ms).cpu = a.cpu ∧ (a.report ms).symbols = a.symbols ∧ (a.report ms).code = a.code ∧
      (a.report ms).records = a.records ∧ (a.report ms).ended = a.ended :=
  ⟨rfl, rfl, rfl, rfl, rfl⟩

@[simp] lemma report_nil : a.report [] = a := rfl

@[simp] lemma errors_report (ms : List Message) :
    (a.report ms).log.errors = a.log.errors + errorCount ms :=
  a.log.errors_reportAll ms

@[simp] lemma error_frame (location : Location) (text : String) :
    (a.error location text).cpu = a.cpu ∧ (a.error location text).symbols = a.symbols ∧
      (a.error location text).code = a.code ∧ (a.error location text).records = a.records ∧
      (a.error location text).ended = a.ended :=
  ⟨rfl, rfl, rfl, rfl, rfl⟩

@[simp] lemma errors_error (location : Location) (text : String) :
    (a.error location text).log.errors = a.log.errors + 1 :=
  a.errors_report _

/-- Bytes inside the machine are put into the code and nothing else happens. -/
lemma emit_of_le {bs : List UInt8} (location : Location)
    (h : a.code.endAddress + bs.length ≤ 0x10000) :
    a.emit bs location = { a with code := a.code.append bs } := by
  rw [emit, if_neg (by omega)]

lemma emit_of_lt {bs : List UInt8} (location : Location)
    (h : 0x10000 < a.code.endAddress + bs.length) :
    a.emit bs location =
      { a.error location "Location counter out of range" with code := a.code.append bs } := by
  rw [emit, if_pos h]
  rfl

@[simp] lemma emit_frame (bs : List UInt8) (location : Location) :
    (a.emit bs location).cpu = a.cpu ∧ (a.emit bs location).symbols = a.symbols ∧
      (a.emit bs location).code = a.code.append bs ∧ (a.emit bs location).records = a.records ∧
      (a.emit bs location).ended = a.ended := by
  rcases Nat.lt_or_ge 0x10000 (a.code.endAddress + bs.length) with h | h
  · rw [a.emit_of_lt location h]
    exact ⟨rfl, rfl, rfl, rfl, rfl⟩
  · rw [a.emit_of_le location h]
    exact ⟨rfl, rfl, rfl, rfl, rfl⟩

lemma errors_emit_of_lt {bs : List UInt8} (location : Location)
    (h : 0x10000 < a.code.endAddress + bs.length) :
    (a.emit bs location).log.errors = a.log.errors + 1 := by
  rw [a.emit_of_lt location h]
  exact a.errors_error _ _

lemma errors_le_emit (bs : List UInt8) (location : Location) :
    a.log.errors ≤ (a.emit bs location).log.errors := by
  rcases Nat.lt_or_ge 0x10000 (a.code.endAddress + bs.length) with h | h
  · rw [a.errors_emit_of_lt location h]
    exact Nat.le_succ _
  · exact Nat.le_of_eq (by rw [a.emit_of_le location h])

/-- Bytes are put into the code without an error if they are inside the machine. -/
lemma endAddress_le_of_emit {bs : List UInt8} {location : Location}
    (h : (a.emit bs location).log.errors = a.log.errors) :
    a.code.endAddress + bs.length ≤ 0x10000 := by
  by_contra hgt
  rw [a.errors_emit_of_lt location (by omega)] at h
  omega

@[simp] lemma withSymbols_frame (result : Except SymbolError SymbolTable) (location : Location) :
    (a.withSymbols result location).cpu = a.cpu ∧ (a.withSymbols result location).code = a.code ∧
      (a.withSymbols result location).records = a.records ∧
      (a.withSymbols result location).ended = a.ended := by
  cases result <;> exact ⟨rfl, rfl, rfl, rfl⟩

lemma errors_le_withSymbols (result : Except SymbolError SymbolTable) (location : Location) :
    a.log.errors ≤ (a.withSymbols result location).log.errors := by
  cases result with
  | ok symbols => exact Nat.le_refl _
  | error e =>
    rw [withSymbols, errors_error]
    omega

/-- Changing the symbols adds no error if the change could be made. -/
lemma ok_of_withSymbols {result : Except SymbolError SymbolTable} {location : Location}
    (h : (a.withSymbols result location).log.errors = a.log.errors) :
    result = .ok (a.withSymbols result location).symbols := by
  cases result with
  | ok symbols => rfl
  | error e =>
    rw [withSymbols, errors_error] at h
    omega

@[simp] lemma defineLabel_frame (label : Option Token) (value : UInt16) :
    (a.defineLabel label value).cpu = a.cpu ∧ (a.defineLabel label value).code = a.code ∧
      (a.defineLabel label value).records = a.records ∧
      (a.defineLabel label value).ended = a.ended := by
  cases label with
  | none => exact ⟨rfl, rfl, rfl, rfl⟩
  | some t => exact a.withSymbols_frame _ _

lemma errors_le_defineLabel (label : Option Token) (value : UInt16) :
    a.log.errors ≤ (a.defineLabel label value).log.errors := by
  cases label with
  | none => exact Nat.le_refl _
  | some t => exact a.errors_le_withSymbols _ _

/-- A move gives an empty segment its address, puts bytes into the code, or is an error. -/
lemma moveTo_cases (target : UInt16) (location : Location) :
    a.code.size = 0 ∧
        a.moveTo target location = { a with code := { a.code with offset := target } } ∨
      (∃ bs, a.moveTo target location = a.emit bs location) ∨
      ∃ text, a.moveTo target location = a.error location text := by
  rw [moveTo]
  by_cases hsize : a.code.size = 0
  · rw [if_pos hsize]
    exact Or.inl ⟨hsize, rfl⟩
  · rw [if_neg hsize]
    by_cases hle : a.code.locationCounter ≤ target
    · rw [if_pos hle]
      exact Or.inr (Or.inl ⟨_, rfl⟩)
    · rw [if_neg hle]
      exact Or.inr (Or.inr ⟨_, rfl⟩)

@[simp] lemma moveTo_frame (target : UInt16) (location : Location) :
    (a.moveTo target location).cpu = a.cpu ∧ (a.moveTo target location).symbols = a.symbols ∧
      (a.moveTo target location).records = a.records ∧
      (a.moveTo target location).ended = a.ended := by
  rcases a.moveTo_cases target location with ⟨-, heq⟩ | ⟨bs, heq⟩ | ⟨text, heq⟩
  · simp [heq]
  · simp [heq]
  · simp [heq]

lemma errors_le_moveTo (target : UInt16) (location : Location) :
    a.log.errors ≤ (a.moveTo target location).log.errors := by
  rcases a.moveTo_cases target location with ⟨-, heq⟩ | ⟨bs, heq⟩ | ⟨text, heq⟩
  · exact Nat.le_of_eq (by rw [heq])
  · rw [heq]
    exact a.errors_le_emit _ _
  · rw [heq, errors_error]
    exact Nat.le_succ _

/-- What a move without an error did to the code. -/
lemma moveTo_code_cases {target : UInt16} {location : Location}
    (h : (a.moveTo target location).log.errors = a.log.errors) :
    (a.code.size = 0 ∧
      ∃ target', (a.moveTo target location).code = { a.code with offset := target' }) ∨
      ∃ bs : List UInt8, a.code.endAddress + bs.length ≤ 0x10000 ∧
        (a.moveTo target location).code = a.code.append bs := by
  rcases a.moveTo_cases target location with ⟨hsize, heq⟩ | ⟨bs, heq⟩ | ⟨text, heq⟩
  · exact Or.inl ⟨hsize, target, by rw [heq]⟩
  · rw [heq] at h ⊢
    exact Or.inr ⟨bs, a.endAddress_le_of_emit h, by simp⟩
  · rw [heq, errors_error] at h
    omega

/-- An assignment changes the symbols, does nothing, or is an error. -/
lemma assign_cases (how : Assignment) (location : Location) (label : Option Token)
    (value : Option UInt16) :
    (∃ result location', a.assign how location label value = a.withSymbols result location') ∨
      a.assign how location label value = a ∨
      ∃ text, a.assign how location label value = a.error location text := by
  cases label with
  | none => exact Or.inr (Or.inr ⟨_, rfl⟩)
  | some t =>
    cases value with
    | none => exact Or.inr (Or.inl rfl)
    | some v => cases how <;> exact Or.inl ⟨_, _, rfl⟩

@[simp] lemma assign_frame (how : Assignment) (location : Location) (label : Option Token)
    (value : Option UInt16) :
    (a.assign how location label value).cpu = a.cpu ∧
      (a.assign how location label value).code = a.code ∧
      (a.assign how location label value).records = a.records ∧
      (a.assign how location label value).ended = a.ended := by
  rcases a.assign_cases how location label value with ⟨result, location', heq⟩ | heq | ⟨text, heq⟩
  · simp [heq]
  · simp [heq]
  · simp [heq]

lemma errors_le_assign (how : Assignment) (location : Location) (label : Option Token)
    (value : Option UInt16) :
    a.log.errors ≤ (a.assign how location label value).log.errors := by
  rcases a.assign_cases how location label value with ⟨result, location', heq⟩ | heq | ⟨text, heq⟩
  · rw [heq]
    exact a.errors_le_withSymbols _ _
  · exact Nat.le_of_eq (by rw [heq])
  · rw [heq, errors_error]
    exact Nat.le_succ _

@[simp] lemma put_frame (e : Emission) (location : Location) :
    (a.put e location).cpu = a.cpu ∧ (a.put e location).symbols = a.symbols ∧
      (a.put e location).records = a.records ∧ (a.put e location).ended = a.ended := by
  rw [put]
  by_cases h : e.emits = true
  · simp [h]
  · simp [h]

lemma errors_le_put (e : Emission) (location : Location) :
    a.log.errors + errorCount e.messages ≤ (a.put e location).log.errors := by
  rw [put, ← errors_report]
  by_cases h : e.emits = true
  · rw [if_pos h]
    exact errors_le_emit _ _ _
  · exact Nat.le_of_eq (by rw [if_neg h])

/-! ### Statements -/

/-- The processor that is selected after a statement. -/
def cpuAfter (cpu : Cpu) : Statement → Cpu
  | .cpu _ name => (Cpu.ofName? name.value).getD cpu
  | _ => cpu

variable (here : UInt16) (label : Option Token) (statement : Statement)

lemma execute_records : (a.execute here label statement).1.records = a.records := by
  cases statement with
  | cpu location name =>
    simp only [execute]
    split <;> simp
  | org location origin =>
    simp only [execute]
    split <;> simp
  | _ => simp [execute]

lemma execute_cpu : (a.execute here label statement).1.cpu = cpuAfter a.cpu statement := by
  cases statement with
  | cpu location name =>
    simp only [execute, cpuAfter]
    split <;> simp_all
  | org location origin =>
    simp only [execute, cpuAfter]
    split <;> simp
  | _ => simp [execute, cpuAfter]

lemma errors_le_execute : a.log.errors ≤ (a.execute here label statement).1.log.errors := by
  have hlabel := a.errors_le_defineLabel label here
  cases statement with
  | empty location => exact hlabel
  | endUnit location => exact hlabel
  | cpu location name =>
    simp only [execute]
    split
    · exact hlabel
    · rw [errors_error]
      omega
  | org location origin =>
    simp only [execute]
    refine Nat.le_trans ?_ (errors_le_defineLabel _ _ _)
    split
    · refine Nat.le_trans ?_ (errors_le_moveTo _ _ _)
      simp
    · simp
  | assign how location v =>
    simp only [execute]
    refine Nat.le_trans ?_ (errors_le_assign _ _ _ _ _)
    simp
  | data width location items =>
    refine Nat.le_trans hlabel (Nat.le_trans ?_ (errors_le_put _ _ _))
    exact Nat.le_add_right _ _
  | instruction i location arguments =>
    refine Nat.le_trans hlabel (Nat.le_trans ?_ (errors_le_put _ _ _))
    exact Nat.le_add_right _ _

/-- What a statement without an error did to the code: nothing, giving it an address while it was
empty, or putting bytes inside the machine. -/
lemma execute_code_cases (h : (a.execute here label statement).1.log.errors = a.log.errors) :
    (a.execute here label statement).1.code = a.code ∨
      (a.code.size = 0 ∧
        ∃ target, (a.execute here label statement).1.code = { a.code with offset := target }) ∨
      ∃ bs : List UInt8, a.code.endAddress + bs.length ≤ 0x10000 ∧
        (a.execute here label statement).1.code = a.code.append bs := by
  have hlabel := a.errors_le_defineLabel label here
  -- Data and instructions put what they come to behind the label.
  have hput : ∀ e location,
      ((a.defineLabel label here).put e location).log.errors = a.log.errors →
      ((a.defineLabel label here).put e location).code = a.code ∨
        ∃ bs : List UInt8, a.code.endAddress + bs.length ≤ 0x10000 ∧
          ((a.defineLabel label here).put e location).code = a.code.append bs := by
    intro e location herrors
    by_cases hemits : e.emits = true
    · rw [put, if_pos hemits] at herrors ⊢
      have hle := errors_le_emit ((a.defineLabel label here).report e.messages) e.bytes location
      rw [errors_report] at hle
      have hend := endAddress_le_of_emit _ (herrors.trans (by rw [errors_report]; omega))
      refine Or.inr ⟨e.bytes, ?_, by simp⟩
      simpa using hend
    · rw [put, if_neg hemits]
      exact Or.inl (by simp)
  cases statement with
  | org location origin =>
    rcases hvalue : origin.evaluate a.symbols here with ⟨value, messages⟩
    simp only [execute, hvalue] at h ⊢
    rw [(defineLabel_frame _ _ _).2.1]
    cases value with
    | none => exact Or.inl rfl
    | some target =>
      simp only at h ⊢
      have hle := errors_le_moveTo (a.report messages) target origin.location
      have hle' := Nat.le_trans (errors_le_defineLabel _ _ _) (Nat.le_of_eq h)
      refine Or.inr (moveTo_code_cases (a.report messages) (Nat.le_antisymm ?_ hle))
      rw [errors_report]
      omega
  | data width location items =>
    rcases hput _ _ h with hcode | hcode
    · exact Or.inl hcode
    · exact Or.inr (Or.inr hcode)
  | instruction i location arguments =>
    rcases hput _ _ h with hcode | hcode
    · exact Or.inl hcode
    · exact Or.inr (Or.inr hcode)
  | cpu location name =>
    simp only [execute]
    split <;> simp
  | _ => simp [execute]

/-! ### Lines -/

/-- The record that is kept of an accepted line. -/
def lineOf (location : Location) (label : Option Token) (statement : Statement)
    (comment : Option Token) : Line :=
  let after := a.execute a.code.locationCounter label statement
  { place := a.placement after.1 after.2.1
    location
    label := label.map labelNode
    statement := after.2.1
    operands := after.2.2
    comment := comment.map commentNode }

lemma accept_eq (location : Location) (label : Option Token) (statement : Statement)
    (comment : Option Token) :
    a.accept location label statement comment =
      (a.execute a.code.locationCounter label statement).1.record
        (.line (a.lineOf location label statement comment)) := rfl

lemma errors_le_examine (fragment : Fragment) :
    a.log.errors ≤ (a.examine here label fragment).1.log.errors := by
  have hlabel := a.errors_le_defineLabel label here
  cases fragment with
  | nothing => exact hlabel
  | org location => exact Nat.le_refl _
  | assign how location => exact Nat.le_refl _
  | data width location items =>
    simp only [examine, errors_report]
    exact Nat.le_trans hlabel (Nat.le_add_right _ _)
  | instruction i location arguments =>
    simp only [examine, errors_report]
    exact Nat.le_trans hlabel (Nat.le_add_right _ _)

lemma errors_lt_reject (fragment : Fragment) (failure : Failure) :
    a.log.errors < (a.reject label fragment failure).log.errors := by
  have hle := a.errors_le_examine a.code.locationCounter label fragment
  have hmessage : errorCount [failure.message] = 1 := rfl
  simp only [reject, record, errors_report, hmessage]
  exact Nat.lt_succ_of_le hle

@[simp] lemma examine_frame (fragment : Fragment) :
    (a.examine here label fragment).1.cpu = a.cpu ∧
      (a.examine here label fragment).1.code = a.code ∧
      (a.examine here label fragment).1.records = a.records ∧
      (a.examine here label fragment).1.ended = a.ended := by
  cases fragment <;> simp [examine]

/-- What is left of a rejected line. -/
def remnantOf (label : Option Token) (fragment : Fragment) : Remnant :=
  let after := a.examine a.code.locationCounter label fragment
  ⟨label.map labelNode, after.2.1, after.2.2⟩

lemma reject_eq (fragment : Fragment) (failure : Failure) :
    a.reject label fragment failure =
      ((a.examine a.code.locationCounter label fragment).1.record
        (.remnant (a.remnantOf label fragment))).report [failure.message] := rfl

@[simp] lemma reject_frame (fragment : Fragment) (failure : Failure) :
    (a.reject label fragment failure).cpu = a.cpu ∧
      (a.reject label fragment failure).code = a.code ∧
      (a.reject label fragment failure).records =
        a.records.push (.remnant (a.remnantOf label fragment)) ∧
      (a.reject label fragment failure).ended = a.ended := by
  simp [reject_eq, record]

lemma step_of_body_eq_nil {line : SourceLine} (h : line.body = []) : a.step line = a := by
  rw [step, h]

variable {a} in
lemma step_eq_accept {line : SourceLine} {first : Token} {label comment : Option Token}
    {statement : Statement} (hfirst : line.body.head? = some first)
    (hread : line.read a.cpu = .accepted label statement comment) :
    a.step line = a.accept first.location label statement comment := by
  obtain ⟨rest, hbody⟩ := List.head?_eq_some_iff.mp hfirst
  simp only [step, hbody, hread]

variable {a} in
lemma step_eq_reject {line : SourceLine} {first : Token} {label : Option Token}
    {fragment : Fragment} {failure : Failure} (hfirst : line.body.head? = some first)
    (hread : line.read a.cpu = .rejected label fragment failure) :
    a.step line = a.reject label fragment failure := by
  obtain ⟨rest, hbody⟩ := List.head?_eq_some_iff.mp hfirst
  simp only [step, hbody, hread]

/-- A line is blank, was accepted, or was rejected. -/
lemma step_eq_cases (line : SourceLine) :
    line.body = [] ∧ a.step line = a ∨
      (∃ first label statement comment, line.body.head? = some first ∧
        line.read a.cpu = .accepted label statement comment ∧
        a.step line = a.accept first.location label statement comment) ∨
      ∃ first label fragment failure, line.body.head? = some first ∧
        line.read a.cpu = .rejected label fragment failure ∧
        a.step line = a.reject label fragment failure := by
  cases hfirst : line.body.head? with
  | none =>
    have hbody := List.head?_eq_none_iff.mp hfirst
    exact Or.inl ⟨hbody, a.step_of_body_eq_nil hbody⟩
  | some first =>
    cases hread : line.read a.cpu with
    | accepted label statement comment =>
      exact Or.inr (Or.inl
        ⟨first, label, statement, comment, rfl, rfl, step_eq_accept hfirst hread⟩)
    | rejected label fragment failure =>
      exact Or.inr (Or.inr
        ⟨first, label, fragment, failure, rfl, rfl, step_eq_reject hfirst hread⟩)

lemma errors_le_step (line : SourceLine) : a.log.errors ≤ (a.step line).log.errors := by
  rcases a.step_eq_cases line with
    ⟨-, heq⟩ | ⟨first, label, statement, comment, -, -, heq⟩ |
      ⟨first, label, fragment, failure, -, -, heq⟩
  · exact Nat.le_of_eq (by rw [heq])
  · rw [heq]
    exact a.errors_le_execute _ _ _
  · rw [heq]
    exact Nat.le_of_lt (a.errors_lt_reject _ _ _)

/-- A line that adds no error is blank or was accepted. -/
lemma step_cases {line : SourceLine} (h : (a.step line).log.errors = a.log.errors) :
    line.body = [] ∧ a.step line = a ∨
      ∃ first label statement comment, line.body.head? = some first ∧
        line.read a.cpu = .accepted label statement comment ∧
        a.step line = a.accept first.location label statement comment := by
  rcases a.step_eq_cases line with
    hblank | haccepted | ⟨first, label, fragment, failure, -, -, heq⟩
  · exact Or.inl hblank
  · exact Or.inr haccepted
  · have hlt := a.errors_lt_reject label fragment failure
    rw [heq] at h
    omega

/-! ### Runs -/

/-- The state after lines that all come before the end of the unit. -/
def steps (lines : List SourceLine) : Assembly :=
  lines.foldl step a

@[simp] lemma steps_nil : a.steps [] = a := rfl

@[simp] lemma steps_cons (line : SourceLine) (lines : List SourceLine) :
    a.steps (line :: lines) = (a.step line).steps lines := rfl

@[simp] lemma steps_concat (lines : List SourceLine) (line : SourceLine) :
    a.steps (lines ++ [line]) = (a.steps lines).step line := by
  simp [steps]

lemma steps_append (lines lines' : List SourceLine) :
    a.steps (lines ++ lines') = (a.steps lines).steps lines' :=
  List.foldl_append

lemma errors_le_steps (lines : List SourceLine) : a.log.errors ≤ (a.steps lines).log.errors := by
  induction lines generalizing a with
  | nil => exact Nat.le_refl _
  | cons line lines ih => exact Nat.le_trans (a.errors_le_step line) (ih (a.step line))

/-- What holds at the start and is kept by every line holds after any lines. -/
lemma steps_rec {P : List SourceLine → Assembly → Prop} (hstart : P [] a)
    (hstep : ∀ done b line, P done b → P (done ++ [line]) (b.step line))
    (lines : List SourceLine) : P lines (a.steps lines) := by
  induction lines using List.reverseRecOn with
  | nil => exact hstart
  | append_singleton lines line ih =>
    rw [steps_concat]
    exact hstep _ _ _ ih

/-- What holds at the start and is kept by every line that adds no error holds after lines that
add none. -/
lemma steps_induction {P : List SourceLine → Assembly → Prop} {lines : List SourceLine}
    (hstart : P [] a)
    (hstep : ∀ done b line, P done b → (b.step line).log.errors = b.log.errors →
      P (done ++ [line]) (b.step line))
    (hclean : (a.steps lines).log.errors = a.log.errors) : P lines (a.steps lines) := by
  induction lines using List.reverseRecOn with
  | nil => exact hstart
  | append_singleton lines line ih =>
    rw [steps_concat] at hclean ⊢
    have hle := a.errors_le_steps lines
    have hle' := (a.steps lines).errors_le_step line
    exact hstep _ _ _ (ih (by omega)) (by omega)

@[simp] lemma warnAfterEnd_frame (lines : List SourceLine) :
    (a.warnAfterEnd lines).cpu = a.cpu ∧ (a.warnAfterEnd lines).symbols = a.symbols ∧
      (a.warnAfterEnd lines).code = a.code ∧ (a.warnAfterEnd lines).records = a.records ∧
      (a.warnAfterEnd lines).ended = a.ended := by
  rw [warnAfterEnd]
  split
  · simp
  · simp

@[simp] lemma errors_warnAfterEnd (lines : List SourceLine) :
    (a.warnAfterEnd lines).log.errors = a.log.errors := by
  rw [warnAfterEnd]
  split
  · rw [errors_report]
    rfl
  · rfl

/-- A run takes the lines up to the end of the unit, and warns about those after it. -/
lemma run_eq_steps (lines : List SourceLine) :
    ∃ done rest, lines = done ++ rest ∧ a.run lines = (a.steps done).warnAfterEnd rest := by
  induction lines generalizing a with
  | nil => exact ⟨[], [], rfl, rfl⟩
  | cons line lines ih =>
    by_cases hended : a.ended = true
    · exact ⟨[], line :: lines, rfl, by rw [run, if_pos hended]; rfl⟩
    · obtain ⟨done, rest, rfl, hrun⟩ := ih (a.step line)
      exact ⟨line :: done, rest, rfl, by rw [run, if_neg hended, hrun]; rfl⟩

lemma errors_le_run (lines : List SourceLine) : a.log.errors ≤ (a.run lines).log.errors := by
  obtain ⟨done, rest, -, hrun⟩ := a.run_eq_steps lines
  rw [hrun, errors_warnAfterEnd]
  exact a.errors_le_steps done

end Assembly

end MicroAsm
