import Mathlib.Data.List.Forall2
import MicroAsm.Proofs.Outcome
import MicroAsm.Statement.Reader

/-!
# What an accepted statement looks like

An instruction that was read is one of the processor in force, and its arguments are of the kinds
that its shape asks for. Strings are read as items of bytes only.
-/

namespace MicroAsm

/-- The argument is of the given kind: registers and pairs are names, all others are values. -/
def Argument.HasKind (kind : OperandKind) (argument : Argument) : Prop :=
  match kind with
  | .register | .pair => ∃ t, argument = .register kind t
  | _ => ∃ v, argument = .value kind v

/-- The statement belongs to a processor: an instruction is one of its own, with arguments of the
right kinds. -/
def Statement.BelongsTo (cpu : Cpu) : Statement → Prop
  | .instruction i _ arguments =>
    i ∈ cpu.instructions ∧ List.Forall₂ Argument.HasKind i.family.operands arguments
  | _ => True

/-- The item can stand in a list of data: a string stands for bytes. -/
def Item.Suits (width : Width) : Item → Prop
  | .string _ => width = .byte
  | .value _ => True

lemma Cpu.mem_of_lookup {cpu : Cpu} {name : String} {i : Instruction}
    (h : cpu.lookup name = .supported i) : i ∈ cpu.instructions := by
  rw [lookup] at h
  split at h
  · rename_i i' hfound
    cases h
    exact List.mem_of_find?_eq_some hfound
  · split at h <;> cases h

namespace Reader

variable {stop : Token}

lemma hasKind_of_readArgument {kind : OperandKind} {ts rest : List Token} {argument : Argument}
    (h : readArgument stop kind ts = .ok (argument, rest)) : argument.HasKind kind := by
  cases kind with
  | register | pair =>
    cases ts with
    | nil => cases h
    | cons t ts =>
      simp only [readArgument] at h
      split at h
      · cases h
        exact ⟨t, rfl⟩
      · cases h
  | byte | word | address | restartCode =>
    obtain ⟨⟨v, rest'⟩, -, heq⟩ := map_eq_ok_iff.mp h
    cases heq
    exact ⟨v, rfl⟩

lemma hasKind_of_readArguments {kinds : List OperandKind} {ts rest : List Token}
    {arguments : List Argument} (h : readArguments stop kinds ts = (arguments, .ok rest)) :
    List.Forall₂ Argument.HasKind kinds arguments := by
  induction kinds generalizing ts arguments with
  | nil =>
    cases h
    exact .nil
  | cons kind kinds ih =>
    cases kinds with
    | nil =>
      rw [readArguments] at h
      split at h
      · cases h
      · rename_i hread
        cases h
        exact .cons (hasKind_of_readArgument hread) .nil
    | cons kind' kinds =>
      rw [readArguments.eq_3 _ _ _ _ (by simp)] at h
      split at h
      · cases h
      · rename_i argument comma rest' hread
        split at h
        · rcases hrest : readArguments stop (kind' :: kinds) rest' with ⟨arguments', result⟩
          rw [hrest] at h
          cases h
          exact .cons (hasKind_of_readArgument hread) (ih hrest)
        · cases h
      · cases h

lemma cpu_of_readCpu {location : Location} {ts rest : List Token} {statement : Statement}
    (h : readCpu stop location ts = .ok (statement, rest)) :
    ∃ name, statement = .cpu location name := by
  simp only [readCpu.eq_def] at h
  split at h
  · split at h
    · split at h
      · cases h
        exact ⟨_, rfl⟩
      · cases h
    · cases h
  · cases h

lemma data_of_readData {width : Width} {location : Location} {ts rest : List Token}
    {statement : Statement} (h : readData stop width location ts = .ok (statement, rest)) :
    ∃ items, statement = .data width location items := by
  simp only [readData] at h
  split at h
  · cases h
  · split at h
    · cases h
      exact ⟨_, rfl⟩
    · cases h

lemma instruction_of_readInstruction {i : Instruction} {location : Location} {ts rest : List Token}
    {statement : Statement} (h : readInstruction stop i location ts = .ok (statement, rest)) :
    ∃ arguments, statement = .instruction i location arguments ∧
      List.Forall₂ Argument.HasKind i.family.operands arguments := by
  rcases hread : readArguments stop i.family.operands ts with ⟨arguments, result⟩
  rw [readInstruction, hread] at h
  cases result with
  | error failure => cases h
  | ok rest' =>
    simp only at h
    split at h
    · cases h
      exact ⟨arguments, rfl, hasKind_of_readArguments hread⟩
    · cases h

/-! ### Data -/

/-- A string stands for bytes. -/
lemma suits_of_readItem {width : Width} {ts rest : List Token} {item : Item}
    (h : readItem stop width ts = .ok (item, rest)) : item.Suits width := by
  rw [readItem] at h
  split at h
  · rename_i hstring
    cases h
    cases width with
    | byte => rfl
    | word => cases hstring
  · obtain ⟨⟨v, rest'⟩, -, heq⟩ := map_eq_ok_iff.mp h
    cases heq
    trivial

lemma suits_of_mem_readItems {width : Width} (ts : List Token) :
    ∀ item ∈ (readItems stop width ts).1, item.Suits width := by
  fun_induction readItems stop width ts with
  | case1 => simp
  | case2 ts item comma rest hread hcomma hlt items result hrest ih =>
    rw [hrest] at ih
    exact List.forall_mem_cons.mpr ⟨suits_of_readItem hread, ih⟩
  | case3 ts item comma rest hread hcomma =>
    exact List.forall_mem_singleton.mpr (suits_of_readItem hread)
  | case4 ts item hread => exact List.forall_mem_singleton.mpr (suits_of_readItem hread)

lemma suits_of_readData {width width' : Width} {location location' : Location}
    {ts rest : List Token} {items : List Item}
    (h : readData stop width location ts = .ok (.data width' location' items, rest)) :
    ∀ item ∈ items, item.Suits width' := by
  have hsuits := @suits_of_mem_readItems stop width ts
  simp only [readData] at h
  split at h
  · cases h
  · split at h
    · cases h
      exact hsuits
    · cases h

/-- A statement that was read belongs to the processor. -/
lemma belongsTo_of_readStatement {cpu : Cpu} {ts rest : List Token} {statement : Statement}
    (h : readStatement cpu stop ts = .ok (statement, rest)) : statement.BelongsTo cpu := by
  cases ts with
  | nil =>
    cases h
    trivial
  | cons t ts =>
    simp only [readStatement] at h
    split at h
    · cases h
      trivial
    · split at h <;> cases h
      trivial
    · split at h <;> cases h
      trivial
    · split at h <;> cases h
      trivial
    · obtain ⟨name, rfl⟩ := cpu_of_readCpu h
      trivial
    · split at h <;> cases h
      trivial
    · obtain ⟨items, rfl⟩ := data_of_readData h
      trivial
    · obtain ⟨items, rfl⟩ := data_of_readData h
      trivial
    -- Only a mnemonic starts an instruction.
    · split at h
      · rename_i i hlookup
        obtain ⟨arguments, rfl, hkinds⟩ := instruction_of_readInstruction h
        exact ⟨Cpu.mem_of_lookup hlookup, hkinds⟩
      · cases h
      · cases h
    · cases h

/-- The items of data that were read suit their directive. -/
lemma suits_of_readStatement {cpu : Cpu} {ts rest : List Token} {width : Width}
    {location : Location} {items : List Item}
    (h : readStatement cpu stop ts = .ok (.data width location items, rest)) :
    ∀ item ∈ items, item.Suits width := by
  cases ts with
  | nil => cases h
  | cons t ts =>
    simp only [readStatement] at h
    split at h
    · cases h
    · split at h <;> cases h
    · split at h <;> cases h
    · split at h <;> cases h
    · obtain ⟨name, heq⟩ := cpu_of_readCpu h
      cases heq
    · split at h <;> cases h
    · exact suits_of_readData h
    · exact suits_of_readData h
    · split at h
      · obtain ⟨arguments, heq, -⟩ := instruction_of_readInstruction h
        cases heq
      · cases h
      · cases h
    · cases h

end Reader

/-- A line that was accepted has a statement of the processor. -/
lemma SourceLine.belongsTo_of_read {cpu : Cpu} {line : SourceLine} {label comment : Option Token}
    {statement : Statement} (h : line.read cpu = .accepted label statement comment) :
    statement.BelongsTo cpu := by
  simp only [read] at h
  split at h
  · cases h
  · rename_i hread
    cases h
    exact Reader.belongsTo_of_readStatement hread
  · rename_i hread
    cases h
    exact Reader.belongsTo_of_readStatement hread
  · cases h

lemma SourceLine.suits_of_read {cpu : Cpu} {line : SourceLine} {label comment : Option Token}
    {width : Width} {location : Location} {items : List Item}
    (h : line.read cpu = .accepted label (.data width location items) comment) :
    ∀ item ∈ items, item.Suits width := by
  simp only [read] at h
  split at h
  · cases h
  · rename_i hread
    cases h
    exact Reader.suits_of_readStatement hread
  · rename_i hread
    cases h
    exact Reader.suits_of_readStatement hread
  · cases h

end MicroAsm
