import MicroAsm.Proofs.Assembly.Waiting

/-!
# Values at their time

A value takes the symbols there are on its line if they suffice, and the final ones otherwise: then
it waits for the last pass. So what becomes of the bytes of a line can be said for any two tables,
whether the second one extends the first or not.
-/

namespace MicroAsm

namespace Timely

variable (now last : SymbolTable) (here : UInt16)

/-- The table that decides about a value: that of its line if it has all the symbols, else the
final one. -/
def table (v : Value) : SymbolTable :=
  if (v.expr.eval now here).isOk then now else last

def item (width : Width) : Item → Option (List UInt8)
  | .string t => Reference.item last here width (.string t)
  | .value v => Reference.value (table now last here v) here width v

def data (width : Width) (items : List Item) : Option (List UInt8) :=
  (items.mapM (item now last here width)).map List.flatten

/-- The table that decides about an instruction. Its value, if it has one, comes last. -/
def argumentsTable (arguments : List Argument) : SymbolTable :=
  match arguments.getLast? with
  | some (.value _ v) => table now last here v
  | _ => now

/-- The bytes of a statement on a line with the symbols `now`, in a unit that ends with the symbols
`last`. -/
def statement : Statement → Option (List UInt8)
  | .data width _ items => data now last here width items
  | .instruction i _ arguments =>
    Reference.instruction (argumentsTable now last here arguments) here i arguments
  | _ => some []

variable {now last here} {v : Value}

lemma table_of_ok {n : Int} (h : v.expr.eval now here = .ok n) : table now last here v = now := by
  rw [table, h]
  rfl

lemma table_of_error {name : String} (h : v.expr.eval now here = .error name) :
    table now last here v = last := by
  rw [table, h]
  rfl

end Timely

lemma SymbolTable.extends_of_empty (t : SymbolTable) : Extends {} t := by
  intro name symbol h
  cases h

/-- A value that waits might as well have been read without any symbol. -/
lemma Value.settle_of_error {now : SymbolTable} {here : UInt16} {v : Value} {name : String}
    (h : v.expr.eval now here = .error name) (kind : OperandKind) :
    v.settle now here kind = v.settle {} here kind := by
  have hempty : ∃ name', v.expr.eval {} here = .error name' := by
    cases heval : v.expr.eval {} here with
    | error name' => exact ⟨name', rfl⟩
    | ok n =>
      rw [Expr.eval_mono (SymbolTable.extends_of_empty now) heval] at h
      cases h
  obtain ⟨name', hempty⟩ := hempty
  simp only [settle, h, hempty]

namespace Patching

variable {symbols now last : SymbolTable} {place : Placement} {offset : Nat} {width : Width}

/-- Where nothing waits, the symbols of the last pass do not count. -/
lemma Completes.of_settled {os : List OperandNode} {old : List UInt8}
    {expected : Option (List UInt8)} (h : Completes symbols place os offset old expected)
    (hsettled : ∀ o ∈ os, o.deferred = none) : Completes last place os offset old expected := by
  intro p pre post hbytes hpre _
  rw [p.resolveOperands_of_settled last place hsettled]
  have hsame := p.resolveOperands_of_settled symbols place hsettled
  have hresult := h p pre post hbytes hpre (by rw [hsame])
  rwa [hsame] at hresult

lemma completes_timely_value {kind : OperandKind} {v : Value}
    (hclean : errorCount (v.settle now place.address kind).messages = 0) :
    Completes last place
      [{ node := (v.settle now place.address kind).node
         deferred := (v.settle now place.address kind).waiting.map (⟨offset, kind.width, ·⟩) }]
      offset (kind.width.bytesOf (v.settle now place.address kind).word)
      (Reference.value (Timely.table now last place.address v) place.address kind.width v) := by
  cases heval : v.expr.eval now place.address with
  | ok n =>
    rw [Timely.table_of_ok heval]
    refine (completes_value (SymbolTable.Extends.refl now) hclean).of_settled ?_
    simp [Value.settle, heval]
  | error name =>
    rw [Timely.table_of_error heval]
    rw [Value.settle_of_error heval] at hclean ⊢
    exact completes_value (SymbolTable.extends_of_empty last) hclean

lemma completes_timely_item {item : Item}
    (hclean : errorCount (item.emission now place.address width offset).messages = 0) :
    Completes last place (item.emission now place.address width offset).operands offset
      (item.emission now place.address width offset).bytes
      (Timely.item now last place.address width item) := by
  cases item with
  | string t =>
    exact @completes_item last last place offset width (.string t) (SymbolTable.Extends.refl last)
      hclean
  | value v =>
    simp only [Item.emission, Timely.item] at hclean ⊢
    have hvalue := @completes_timely_value now last place offset width.operandKind v hclean
    rw [width.width_operandKind] at hvalue
    exact hvalue

lemma completes_timely_items {items : List Item}
    (hclean : errorCount (Item.emissions now place.address width offset items).messages = 0) :
    Completes last place (Item.emissions now place.address width offset items).operands
      offset (Item.emissions now place.address width offset items).bytes
      (Timely.data now last place.address width items) := by
  induction items generalizing offset with
  | nil => exact completes_of_settled (by simp [Item.emissions]) []
  | cons item items ih =>
    simp only [Item.emissions, errorCount_append, Nat.add_eq_zero_iff] at hclean ⊢
    rw [Timely.data, flatten_mapM_cons]
    exact (completes_timely_item hclean.1).append (ih hclean.2)

end Patching

namespace Argument

variable {now : SymbolTable} {here : UInt16} {i : Instruction} {arguments : List Argument}
  (last : SymbolTable)

/-- Only the last argument of an instruction can be a value. -/
lemma isRegister_of_mem_dropLast (hkinds : List.Forall₂ HasKind i.family.operands arguments) :
    ∀ a ∈ arguments.dropLast, ∃ kind t, a = .register kind t := by
  cases hfamily : i.family with
  | implied =>
    rw [hfamily] at hkinds
    cases hkinds
    simp
  | registerRegister | registerByte | pairWord pairs =>
    rw [hfamily] at hkinds
    obtain _ | ⟨⟨r, rfl⟩, _ | ⟨-, _ | _⟩⟩ := hkinds
    simp
  | register shift | pair pairs | address | byte | restart =>
    rw [hfamily] at hkinds
    obtain _ | ⟨-, _ | _⟩ := hkinds
    simp

/-- An argument is a value that waits, or it comes to what it is at once. -/
lemma settle_cases (a : Argument) (hclean : errorCount (a.settle now here).messages = 0) :
    (a.settle now here).waiting = none ∧ Timely.argumentsTable now last here [a] = now ∨
      a.settle now here = a.settle {} here ∧ Timely.argumentsTable now last here [a] = last := by
  cases a with
  | register kind t => exact Or.inl ⟨rfl, rfl⟩
  | value kind v =>
    have htable : Timely.argumentsTable now last here [.value kind v] =
        Timely.table now last here v := rfl
    rw [htable]
    cases heval : v.expr.eval now here with
    | ok n =>
      refine Or.inl ⟨?_, Timely.table_of_ok heval⟩
      cases kind <;> simp [settle, settleRestart, Value.settle, heval]
    | error name =>
      refine Or.inr ⟨?_, Timely.table_of_error heval⟩
      cases kind with
      | restartCode =>
        simp only [settle, settleRestart, heval] at hclean
        cases hclean
      | _ => simp only [settle, Value.settle_of_error heval]

/-- The arguments of an instruction come to what they are at once, or one of them waits and the
others need no symbols. -/
lemma map_settle_cases (hkinds : List.Forall₂ HasKind i.family.operands arguments)
    (hclean : ∀ a ∈ arguments, errorCount (a.settle now here).messages = 0) :
    (∀ a ∈ arguments, (a.settle now here).waiting = none) ∧
        Timely.argumentsTable now last here arguments = now ∨
      arguments.map (settle now here) = arguments.map (settle {} here) ∧
        Timely.argumentsTable now last here arguments = last := by
  have hregisters := isRegister_of_mem_dropLast hkinds
  rcases List.eq_nil_or_concat arguments with rfl | ⟨front, a, rfl⟩
  · exact Or.inl ⟨by simp, rfl⟩
  · rw [List.concat_eq_append] at hclean hregisters ⊢
    rw [List.dropLast_concat] at hregisters
    have htable : Timely.argumentsTable now last here (front ++ [a]) =
        Timely.argumentsTable now last here [a] := by
      simp [Timely.argumentsTable]
    rw [htable]
    refine (settle_cases last a (hclean a (by simp))).imp ?_ ?_
    · rintro ⟨hwaiting, heq⟩
      refine ⟨?_, heq⟩
      intro b hb
      rcases List.mem_append.mp hb with hb | hb
      · obtain ⟨kind, t, rfl⟩ := hregisters b hb
        rfl
      · rw [List.mem_singleton.mp hb]
        exact hwaiting
    · rintro ⟨hsettle, heq⟩
      refine ⟨?_, heq⟩
      rw [List.map_append, List.map_append, List.map_singleton, List.map_singleton, hsettle]
      refine congrArg (· ++ _) (List.map_congr_left ?_)
      intro b hb
      obtain ⟨kind, t, rfl⟩ := hregisters b hb
      rfl

end Argument

namespace Patching

variable {now last : SymbolTable} {place : Placement} {cpu : Cpu} {i : Instruction}
  {location : Location} {arguments : List Argument}

lemma completes_timely_instruction (hi : i ∈ cpu.instructions)
    (hkinds : List.Forall₂ Argument.HasKind i.family.operands arguments)
    (hclean : errorCount (i.emission location
      (arguments.map (Argument.settle now place.address))).messages = 0) :
    (i.emission location (arguments.map (Argument.settle now place.address))).emits = true ∧
      Completes last place
        (i.emission location (arguments.map (Argument.settle now place.address))).operands 0
        (i.emission location (arguments.map (Argument.settle now place.address))).bytes
        (Reference.instruction (Timely.argumentsTable now last place.address arguments)
          place.address i arguments) := by
  have husable : ∀ o ∈ arguments.map (Argument.settle now place.address),
      errorCount o.messages = 0 → o.usable = true := by
    intro o ho
    obtain ⟨a, -, rfl⟩ := List.mem_map.mp ho
    exact Argument.usable_of_errorCount_eq_zero
  obtain ⟨hmessages, bytes, -, hemission⟩ :=
    Instruction.emission_of_errorCount_eq_zero husable hclean
  rw [List.forall_mem_map] at hmessages
  rcases Argument.map_settle_cases last hkinds hmessages with
    ⟨hwaiting, htable⟩ | ⟨hsame, htable⟩
  · rw [htable]
    obtain ⟨hemits, hcompletes⟩ :=
      completes_instruction hi hkinds (SymbolTable.Extends.refl now) hclean
    refine ⟨hemits, hcompletes.of_settled ?_⟩
    rw [hemission, List.map_map, List.forall_mem_map]
    intro a ha
    simp [Settled.operandNode, hwaiting a ha]
  · rw [htable]
    rw [hsame] at hclean ⊢
    exact completes_instruction hi hkinds (SymbolTable.extends_of_empty last) hclean

end Patching

end MicroAsm
