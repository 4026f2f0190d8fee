import MicroAsm.Proofs.Assembly.Step

/-!
# Resolving values that wait

The last pass writes values over bytes that are there already, so it changes neither the size nor
the address of the code, and it never takes errors back.
-/

namespace MicroAsm

namespace Segment

@[simp] lemma size_overwrite (bytes : Array UInt8) (index : Nat) (bs : List UInt8) :
    (overwrite bytes index bs).size = bytes.size := by
  induction bs generalizing bytes index with
  | nil => rfl
  | cons b bs ih => rw [overwrite, ih, Array.size_setIfInBounds]

/-- Bytes written over as many bytes between others. -/
lemma toList_overwrite {bytes : Array UInt8} {pre mid post bs : List UInt8}
    (h : bytes.toList = pre ++ mid ++ post) (hlen : mid.length = bs.length) :
    (overwrite bytes pre.length bs).toList = pre ++ bs ++ post := by
  induction bs generalizing bytes pre mid with
  | nil =>
    rw [List.length_eq_zero_iff.mp hlen] at h
    exact h
  | cons b bs ih =>
    obtain ⟨m, mid, rfl⟩ := List.exists_cons_of_length_eq_add_one hlen
    have hset : (bytes.setIfInBounds pre.length b).toList = (pre ++ [b]) ++ mid ++ post := by
      rw [Array.toList_setIfInBounds, h]
      simp
    have hrest := ih hset (by simpa using hlen)
    simp only [List.length_append, List.length_singleton] at hrest
    rw [overwrite, hrest]
    simp

/-- A patch between other bytes leaves them alone. -/
lemma patch?_eq_some {s : Segment} {pre mid post bs : List UInt8}
    (h : s.bytes.toList = pre ++ mid ++ post) (hlen : mid.length = bs.length) :
    s.patch? pre.length bs = some { s with bytes := overwrite s.bytes pre.length bs } := by
  have hsize : s.bytes.size = (pre ++ mid ++ post).length := by rw [← h]; rfl
  simp only [List.length_append] at hsize
  rw [patch?, if_pos (by omega)]

end Segment

namespace Patching

variable (p : Patching) (symbols : SymbolTable)

/-- Two segments have the same name and address and as many bytes. -/
structure SameExtent (c c' : Segment) : Prop where
  name : c'.name = c.name
  offset : c'.offset = c.offset
  size : c'.size = c.size

lemma SameExtent.refl (c : Segment) : SameExtent c c := ⟨rfl, rfl, rfl⟩

lemma SameExtent.trans {c c' c'' : Segment} (h : SameExtent c c') (h' : SameExtent c' c'') :
    SameExtent c c'' :=
  ⟨h'.name.trans h.name, h'.offset.trans h.offset, h'.size.trans h.size⟩

/-! ### One value -/

lemma write_extent (index : Nat) (bytes : List UInt8) (location : Location) :
    SameExtent p.code (p.write index bytes location).code := by
  rw [write, Segment.patch?]
  by_cases h : index + bytes.length ≤ p.code.bytes.size
  · rw [if_pos h]
    exact ⟨rfl, rfl, Segment.size_overwrite _ _ _⟩
  · rw [if_neg h]
    exact SameExtent.refl _

@[simp] lemma errors_write (index : Nat) (bytes : List UInt8) (location : Location) :
    (p.write index bytes location).log.errors = p.log.errors := by
  rw [write]
  cases p.code.patch? index bytes <;> rfl

/-- An operand does nothing, reports a symbol that is not there, or writes its value. -/
lemma resolveOperand_cases (place : Placement) (o : OperandNode) :
    (p.resolveOperand symbols place o).2 = p ∨
      (∃ m, (p.resolveOperand symbols place o).2 = { p with log := p.log.report m }) ∨
      ∃ ms index bytes location, (p.resolveOperand symbols place o).2 =
        write { p with log := p.log.reportAll ms } index bytes location := by
  rw [resolveOperand]
  cases o.deferred with
  | none => exact Or.inl rfl
  | some d =>
    simp only
    cases d.expr.eval symbols place.address with
    | error name => exact Or.inr (Or.inl ⟨_, rfl⟩)
    | ok n => exact Or.inr (Or.inr ⟨_, _, _, _, rfl⟩)

lemma resolveOperand_extent (place : Placement) (o : OperandNode) :
    SameExtent p.code (p.resolveOperand symbols place o).2.code := by
  rcases p.resolveOperand_cases symbols place o with heq | ⟨m, heq⟩ | ⟨ms, index, bytes, l, heq⟩
  · rw [heq]
    exact SameExtent.refl _
  · rw [heq]
    exact SameExtent.refl _
  · rw [heq]
    exact write_extent { p with log := p.log.reportAll ms } index bytes l

lemma errors_le_resolveOperand (place : Placement) (o : OperandNode) :
    p.log.errors ≤ (p.resolveOperand symbols place o).2.log.errors := by
  rcases p.resolveOperand_cases symbols place o with heq | ⟨m, heq⟩ | ⟨ms, index, bytes, l, heq⟩
  · exact Nat.le_of_eq (by rw [heq])
  · rw [heq, Log.errors_report]
    exact Nat.le_add_right _ _
  · rw [heq, errors_write, Log.errors_reportAll]
    exact Nat.le_add_right _ _

/-! ### Lines and units -/

lemma resolveOperands_extent (place : Placement) (os : List OperandNode) :
    SameExtent p.code (p.resolveOperands symbols place os).2.code := by
  induction os generalizing p with
  | nil => exact SameExtent.refl _
  | cons o os ih => exact (p.resolveOperand_extent symbols place o).trans (ih _)

lemma errors_le_resolveOperands (place : Placement) (os : List OperandNode) :
    p.log.errors ≤ (p.resolveOperands symbols place os).2.log.errors := by
  induction os generalizing p with
  | nil => exact Nat.le_refl _
  | cons o os ih => exact Nat.le_trans (p.errors_le_resolveOperand symbols place o) (ih _)

lemma resolveRecords_extent (rs : List Record) :
    SameExtent p.code (p.resolveRecords symbols rs).2.code := by
  induction rs generalizing p with
  | nil => exact SameExtent.refl _
  | cons r rs ih =>
    cases r with
    | remnant r => exact ih p
    | line l => exact (p.resolveOperands_extent symbols l.place l.operands).trans (ih _)

lemma errors_le_resolveRecords (rs : List Record) :
    p.log.errors ≤ (p.resolveRecords symbols rs).2.log.errors := by
  induction rs generalizing p with
  | nil => exact Nat.le_refl _
  | cons r rs ih =>
    cases r with
    | remnant r => exact ih p
    | line l =>
      exact Nat.le_trans (p.errors_le_resolveOperands symbols l.place l.operands) (ih _)

end Patching

/-- No operand of the line waits for a symbol. -/
def Record.Settled : Record → Prop
  | .line l => ∀ o ∈ l.operands, o.deferred = none
  | .remnant _ => True

namespace Patching

/-- Where nothing waits, the last pass changes nothing. -/
lemma resolveOperands_of_settled (p : Patching) (symbols : SymbolTable) (place : Placement)
    {os : List OperandNode} (h : ∀ o ∈ os, o.deferred = none) :
    (p.resolveOperands symbols place os).2 = p := by
  induction os with
  | nil => rfl
  | cons o os ih =>
    rw [List.forall_mem_cons] at h
    have ho : p.resolveOperand symbols place o = (o, p) := by rw [resolveOperand, h.1]
    simp only [resolveOperands, ho]
    exact ih h.2

lemma resolveRecords_of_settled (p : Patching) (symbols : SymbolTable) {rs : List Record}
    (h : ∀ r ∈ rs, r.Settled) : (p.resolveRecords symbols rs).2 = p := by
  induction rs with
  | nil => rfl
  | cons r rs ih =>
    rw [List.forall_mem_cons] at h
    cases r with
    | remnant r => exact ih h.2
    | line l =>
      have hl := p.resolveOperands_of_settled symbols l.place h.1
      simp only [resolveRecords, hl]
      exact ih h.2

end Patching

/-- The last pass over the records of a state. -/
def Assembly.resolved (a : Assembly) : List Record × Patching :=
  Patching.resolveRecords ⟨a.code, a.log⟩ a.symbols a.records.toList

lemma Assembly.resolved_extent (a : Assembly) :
    Patching.SameExtent a.code a.resolved.2.code :=
  Patching.resolveRecords_extent ⟨a.code, a.log⟩ a.symbols a.records.toList

lemma Assembly.errors_le_resolved (a : Assembly) : a.log.errors ≤ a.resolved.2.log.errors :=
  Patching.errors_le_resolveRecords ⟨a.code, a.log⟩ a.symbols a.records.toList

lemma Assembly.finish_eq (a : Assembly) (moduleName : String) :
    a.finish moduleName =
      ({ records := a.resolved.1
         object := (ObjectCode.ofModule moduleName).put .code a.resolved.2.code
         symbols := a.symbols
         cpu := a.cpu },
       a.resolved.2.log) := rfl

/-- Assembling takes lines one after the other up to the end of the unit and then makes the last
pass. Without errors at the end there are none after the lines. -/
lemma assemble_eq_finish (cpu : Cpu) (moduleName source : String) :
    ∃ done rest, SourceLine.ofText source = done ++ rest ∧
      assemble cpu moduleName source =
        ((({ cpu } : Assembly).steps done).warnAfterEnd rest).finish moduleName ∧
      ((assemble cpu moduleName source).2.errors = 0 →
        (({ cpu } : Assembly).steps done).log.errors = 0) := by
  obtain ⟨done, rest, hlines, hrun⟩ :=
    ({ cpu } : Assembly).run_eq_steps (SourceLine.ofText source)
  have hfinish : assemble cpu moduleName source =
      ((({ cpu } : Assembly).steps done).warnAfterEnd rest).finish moduleName := by
    rw [← hrun]
    rfl
  refine ⟨done, rest, hlines, hfinish, ?_⟩
  intro h
  have hpass := ((({ cpu } : Assembly).steps done).warnAfterEnd rest).errors_le_resolved
  rw [hfinish, Assembly.finish_eq] at h
  rw [Assembly.errors_warnAfterEnd] at hpass
  exact Nat.le_zero.mp (Nat.le_trans hpass (Nat.le_of_eq h))

end MicroAsm
