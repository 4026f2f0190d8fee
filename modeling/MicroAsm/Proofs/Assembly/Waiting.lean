import MicroAsm.Proofs.Assembly.Resolution
import MicroAsm.Proofs.Instruction.Packing
import MicroAsm.Proofs.Statement.Reading

/-!
# What becomes of the bytes of a line

Data and instructions leave zeros where a value waits for its symbols. Once the last pass has gone
over the operands of a line, its bytes are those of the reference encoder in any symbol table that
extends the one the line was read with, whether a value waited or not.
-/

namespace MicroAsm

/-! ### Numbers -/

/-- The bytes of a number that fits are its digits. -/
lemma Reference.digits_of_fits {width : Width} {n : Int} (h : fits width.bits n = true) :
    Reference.digits width n = some (width.bytesOf (wordOfInt n)) := by
  have hword : (wordOfInt n).toNat = n.toNat := by
    rw [← Int.toNat_natCast (wordOfInt n).toNat, toNat_wordOfInt width.bits_le h]
  obtain ⟨hsign, hlt⟩ := fits_iff.mp h
  cases width with
  | byte =>
    have hbyte : n < 256 := (Int.toNat_lt hsign).mp hlt
    rw [digits, if_pos ⟨hsign, hbyte⟩, ← hword]
    simp [Width.bytesOf]
  | word =>
    have hfits : n < 256 * 256 := (Int.toNat_lt hsign).mp hlt
    rw [digits, if_pos ⟨hsign, hfits⟩, ← hword, ← wordBytes_eq_digits]
    rfl

/-- What a value without a complaint comes to. -/
lemma checkRange_of_errorCount_eq_zero {bits : Nat} {n : Int} {location : Location}
    (h : errorCount (checkRange bits n location).2 = 0) :
    fits bits n = true ∧ checkRange bits n location = (wordOfInt n, []) := by
  rw [checkRange] at h ⊢
  split at h
  · rename_i hfits
    exact ⟨hfits, by rw [if_pos hfits]⟩
  · cases h

namespace Patching

/-! ### Completing bytes -/

/-- The last pass turns the bytes `old`, which stand `offset` bytes behind the start of a line,
into the expected ones if it meets no error in the operands. It leaves the bytes around them
alone. -/
def Completes (symbols : SymbolTable) (place : Placement) (os : List OperandNode) (offset : Nat)
    (old : List UInt8) (expected : Option (List UInt8)) : Prop :=
  ∀ (p : Patching) (pre post : List UInt8),
    p.code.bytes.toList = pre ++ old ++ post → pre.length = place.start + offset →
    (p.resolveOperands symbols place os).2.log.errors = p.log.errors →
    ∃ new, expected = some new ∧ new.length = old.length ∧
      (p.resolveOperands symbols place os).2.code.bytes.toList = pre ++ new ++ post

variable {symbols symbols' : SymbolTable} {place : Placement} {offset : Nat}

lemma resolveOperands_append (p : Patching) (os os' : List OperandNode) :
    (p.resolveOperands symbols place (os ++ os')).2 =
      ((p.resolveOperands symbols place os).2.resolveOperands symbols place os').2 := by
  induction os generalizing p with
  | nil => rfl
  | cons o os ih => exact ih (p.resolveOperand symbols place o).2

/-- Where nothing waits, the bytes stay as they are. -/
lemma completes_of_settled {os : List OperandNode} (h : ∀ o ∈ os, o.deferred = none)
    (old : List UInt8) : Completes symbols place os offset old (some old) := by
  intro p pre post hbytes _ _
  rw [p.resolveOperands_of_settled symbols place h]
  exact ⟨old, rfl, rfl, hbytes⟩

/-- Operands one after the other complete their bytes one after the other. -/
lemma Completes.append {os os' : List OperandNode} {old old' : List UInt8}
    {expected expected' : Option (List UInt8)}
    (h : Completes symbols place os offset old expected)
    (h' : Completes symbols place os' (offset + old.length) old' expected') :
    Completes symbols place (os ++ os') offset (old ++ old')
      (expected.bind fun new => expected'.map (new ++ ·)) := by
  intro p pre post hbytes hpre herrors
  rw [resolveOperands_append] at herrors ⊢
  -- Neither part adds an error, since the second takes none back.
  have hle := p.errors_le_resolveOperands symbols place os
  have hle' := (p.resolveOperands symbols place os).2.errors_le_resolveOperands symbols place os'
  obtain ⟨new, rfl, hlen, hnew⟩ :=
    h p pre (old' ++ post) (by rw [hbytes]; simp) hpre (by omega)
  obtain ⟨new', rfl, hlen', hnew'⟩ :=
    h' _ (pre ++ new) post (by rw [hnew]; simp) (by rw [List.length_append, hlen]; omega)
      (by omega)
  refine ⟨new ++ new', rfl, by rw [List.length_append, List.length_append, hlen, hlen'], ?_⟩
  rw [hnew']
  simp

/-- Bytes without an operand in front of others. -/
lemma Completes.append_left {os : List OperandNode} {old : List UInt8}
    {expected : Option (List UInt8)} (bytes : List UInt8)
    (h : Completes symbols place os (offset + bytes.length) old expected) :
    Completes symbols place os offset (bytes ++ old) (expected.map (bytes ++ ·)) := by
  have hbytes : Completes symbols place [] offset bytes (some bytes) :=
    completes_of_settled (by simp) bytes
  exact hbytes.append h

/-! ### Values -/

/-- Writing over bytes between others. -/
lemma toList_write {p : Patching} {pre mid post bs : List UInt8} (location : Location)
    (h : p.code.bytes.toList = pre ++ mid ++ post) (hlen : mid.length = bs.length) :
    (p.write pre.length bs location).code.bytes.toList = pre ++ bs ++ post := by
  rw [write, Segment.patch?_eq_some h hlen]
  exact Segment.toList_overwrite h hlen

/-- A value without a complaint completes its bytes, whether it has to wait or not. -/
lemma completes_value {kind : OperandKind} {v : Value}
    (hext : symbols.Extends symbols')
    (hclean : errorCount (v.settle symbols place.address kind).messages = 0) :
    Completes symbols' place
      [{ node := (v.settle symbols place.address kind).node
         deferred := (v.settle symbols place.address kind).waiting.map (⟨offset, kind.width, ·⟩) }]
      offset (kind.width.bytesOf (v.settle symbols place.address kind).word)
      (Reference.value symbols' place.address kind.width v) := by
  cases heval : v.expr.eval symbols place.address with
  | ok n =>
    -- The value is known on its line and stays the same.
    simp only [Value.settle, heval] at hclean ⊢
    obtain ⟨hfits, hcheck⟩ := checkRange_of_errorCount_eq_zero hclean
    have hvalue : Reference.value symbols' place.address kind.width v =
        some (kind.width.bytesOf (wordOfInt n)) := by
      rw [Reference.value, Reference.number, Expr.eval_mono hext heval]
      exact Reference.digits_of_fits hfits
    rw [hcheck, hvalue]
    exact completes_of_settled (by simp) _
  | error name =>
    -- The value waits, and the last pass writes it over the zeros.
    simp only [Value.settle, heval, Option.map_some]
    intro p pre post hbytes hpre herrors
    simp only [resolveOperands, resolveOperand] at herrors ⊢
    cases heval' : v.expr.eval symbols' place.address with
    | error name' =>
      simp only [heval', Log.errors_report] at herrors
      have hone : errorCount
          [undefinedSymbol name' (v.node place.address kind none).location] = 1 := rfl
      omega
    | ok n =>
      simp only [heval', errors_write, Log.errors_reportAll] at herrors ⊢
      have hclean' : errorCount (checkRange kind.width.bits n
          (v.node place.address kind none).location).2 = 0 := by omega
      obtain ⟨hfits, hcheck⟩ := checkRange_of_errorCount_eq_zero hclean'
      rw [hcheck, ← hpre]
      refine ⟨kind.width.bytesOf (wordOfInt n), ?_, by simp, ?_⟩
      · rw [Reference.value, Reference.number, heval']
        exact Reference.digits_of_fits hfits
      · exact toList_write _ hbytes (by simp)

end Patching

/-! ### Data -/

lemma settled_stringEmission (t : Token) (text : String) (cs : List Char) :
    ∀ o ∈ (stringEmission t text cs).operands, o.deferred = none := by
  induction cs generalizing text with
  | nil => simp [stringEmission]
  | cons c cs ih =>
    simp only [stringEmission, List.forall_mem_cons]
    exact ⟨trivial, ih ""⟩

/-- The characters of a string without a complaint are its bytes. -/
lemma mapM_character_of_errorCount_eq_zero {t : Token} {text : String} {cs : List Char}
    (h : errorCount (stringEmission t text cs).messages = 0) :
    cs.mapM Reference.character = some (stringEmission t text cs).bytes := by
  induction cs generalizing text with
  | nil => rfl
  | cons c cs ih =>
    simp only [stringEmission, errorCount_append, Nat.add_eq_zero_iff] at h ⊢
    obtain ⟨hfits, hcheck⟩ := checkRange_of_errorCount_eq_zero h.1
    have hword := toNat_wordOfInt (by decide) hfits
    have hlt : c.toNat < 256 := (fits_iff.mp hfits).2
    have hbyte : UInt8.ofNat c.toNat = (wordOfInt c.toNat).toUInt8 := by
      rw [← UInt16.toUInt8_ofNat']
      rfl
    rw [List.mapM_cons, Reference.character, if_pos hlt, ih h.2, hcheck, hbyte]
    rfl

lemma Width.width_operandKind (width : Width) : width.operandKind.width = width := by
  cases width <;> rfl

lemma flatten_mapM_cons {α : Type} (f : α → Option (List UInt8)) (x : α) (xs : List α) :
    ((x :: xs).mapM f).map List.flatten =
      (f x).bind fun new => ((xs.mapM f).map List.flatten).map (new ++ ·) := by
  rw [List.mapM_cons]
  cases f x with
  | none => rfl
  | some new => cases xs.mapM f <;> rfl

lemma Reference.data_cons (symbols : SymbolTable) (here : UInt16) (width : Width) (item : Item)
    (items : List Item) :
    Reference.data symbols here width (item :: items) =
      (Reference.item symbols here width item).bind fun new =>
        (Reference.data symbols here width items).map (new ++ ·) :=
  flatten_mapM_cons _ _ _

namespace Patching

variable {symbols symbols' : SymbolTable} {place : Placement} {offset : Nat} {width : Width}

lemma completes_item {item : Item} (hext : symbols.Extends symbols')
    (hclean : errorCount (item.emission symbols place.address width offset).messages = 0) :
    Completes symbols' place (item.emission symbols place.address width offset).operands offset
      (item.emission symbols place.address width offset).bytes
      (Reference.item symbols' place.address width item) := by
  cases item with
  | string t =>
    have hbytes : Reference.item symbols' place.address width (.string t) =
        some (stringEmission t t.value (stringBody t)).bytes :=
      mapM_character_of_errorCount_eq_zero hclean
    rw [hbytes]
    exact completes_of_settled (settled_stringEmission _ _ _) _
  | value v =>
    simp only [Item.emission, Reference.item] at hclean ⊢
    have hvalue := @completes_value _ _ _ offset width.operandKind v hext hclean
    rw [width.width_operandKind] at hvalue
    exact hvalue

/-- A list of data without a complaint completes its bytes. -/
lemma completes_items {items : List Item} (hext : symbols.Extends symbols')
    (hclean : errorCount (Item.emissions symbols place.address width offset items).messages = 0) :
    Completes symbols' place (Item.emissions symbols place.address width offset items).operands
      offset (Item.emissions symbols place.address width offset items).bytes
      (Reference.data symbols' place.address width items) := by
  induction items generalizing offset with
  | nil => exact completes_of_settled (by simp [Item.emissions]) []
  | cons item items ih =>
    simp only [Item.emissions, errorCount_append, Nat.add_eq_zero_iff] at hclean ⊢
    rw [Reference.data_cons]
    exact (completes_item hext hclean.1).append (ih hclean.2)

end Patching

/-! ### Instructions -/

/-- An operand without a complaint can be used. -/
lemma Argument.usable_of_errorCount_eq_zero {symbols : SymbolTable} {here : UInt16} {a : Argument}
    (h : errorCount (a.settle symbols here).messages = 0) :
    (a.settle symbols here).usable = true := by
  cases a with
  | register kind t => rfl
  | value kind v =>
    cases kind with
    | restartCode =>
      simp only [settle, settleRestart] at h ⊢
      split at h
      · rfl
      · cases h
    | _ => rfl

/-- The node of an operand whose value comes right after the code byte. -/
def Settled.operandNode (o : Settled) : OperandNode :=
  { node := o.node, deferred := o.waiting.map fun (width, expr) => ⟨1, width, expr⟩ }

/-- An instruction without a complaint was encoded. -/
lemma Instruction.emission_of_errorCount_eq_zero {i : Instruction} {location : Location}
    {operands : List Settled}
    (husable : ∀ o ∈ operands, errorCount o.messages = 0 → o.usable = true)
    (h : errorCount (i.emission location operands).messages = 0) :
    (∀ o ∈ operands, errorCount o.messages = 0) ∧
      ∃ bytes, i.encode (operands.map Settled.operand) = .ok bytes ∧
        i.emission location operands =
          ⟨operands.map Settled.operandNode, bytes, operands.flatMap Settled.messages, true⟩ := by
  have hmessages : errorCount (operands.flatMap Settled.messages) = 0 := by
    rw [emission] at h
    split at h
    · split at h
      · exact h
      · exact (Nat.add_eq_zero_iff.mp ((errorCount_append _ _).symm.trans h)).1
    · exact h
  have hall : operands.all Settled.usable = true := by
    rw [List.all_eq_true]
    intro o ho
    exact husable o ho (errorCount_flatMap_eq_zero hmessages o ho)
  refine ⟨errorCount_flatMap_eq_zero hmessages, ?_⟩
  rw [emission, if_pos hall] at h ⊢
  split at h
  · rename_i bytes hencode
    exact ⟨bytes, hencode, rfl⟩
  · rw [errorCount_append, hmessages] at h
    cases h

namespace Patching

variable {symbols symbols' : SymbolTable} {place : Placement} {cpu : Cpu} {i : Instruction}
  {location : Location} {arguments : List Argument}

/-- The value of an instruction completes its bytes behind the code byte. -/
lemma completes_argument {kind : OperandKind} {v : Value} (hkind : kind ≠ .restartCode)
    (hext : symbols.Extends symbols')
    (hclean : errorCount ((Argument.value kind v).settle symbols place.address).messages = 0) :
    ∃ word, ((Argument.value kind v).settle symbols place.address).operand = .value word.toNat ∧
      Completes symbols' place
        [((Argument.value kind v).settle symbols place.address).operandNode] 1
        (kind.width.bytesOf word) (Reference.value symbols' place.address kind.width v) := by
  have hsettle : (Argument.value kind v).settle symbols place.address =
      { node := (v.settle symbols place.address kind).node
        operand := .value (v.settle symbols place.address kind).word.toNat
        waiting := (v.settle symbols place.address kind).waiting.map (kind.width, ·)
        messages := (v.settle symbols place.address kind).messages } := by
    cases kind <;> first | rfl | contradiction
  rw [hsettle] at hclean ⊢
  refine ⟨(v.settle symbols place.address kind).word, rfl, ?_⟩
  have hvalue := @completes_value symbols symbols' place 1 kind v hext hclean
  simp only [Settled.operandNode, Option.map_map]
  exact hvalue

/-- An instruction of one byte: no operand of it waits, and the reference encoder gives the
same byte. -/
lemma instruction_of_size_eq_one {bytes : List UInt8} (hi : i ∈ cpu.instructions)
    (hkinds : List.Forall₂ Argument.HasKind i.family.operands arguments)
    (hsize : i.family.size = 1) (hext : symbols.Extends symbols')
    (hmessages : ∀ a ∈ arguments, errorCount (a.settle symbols place.address).messages = 0)
    (hencode : i.encode (arguments.map fun a => (a.settle symbols place.address).operand) =
      .ok bytes) :
    Reference.instruction symbols' place.address i arguments = some bytes ∧
      ∀ a ∈ arguments, (a.settle symbols place.address).operandNode.deferred = none := by
  cases hfamily : i.family with
  | implied =>
    rw [hfamily] at hkinds
    cases hkinds
    obtain rfl := (Instruction.encode_implied_iff hfamily).mp hencode
    exact ⟨by simp only [Reference.instruction, hfamily], by simp⟩
  | registerRegister =>
    rw [hfamily] at hkinds
    obtain _ | ⟨⟨d, rfl⟩, _ | ⟨⟨s, rfl⟩, _ | _⟩⟩ := hkinds
    obtain ⟨dst, src, hdst, hsrc, hmemory, rfl⟩ :=
      (Instruction.encode_registerRegister_iff hfamily).mp hencode
    refine ⟨?_, by simp [Argument.settle, settleRegister, Settled.operandNode]⟩
    simp only [Reference.instruction, hfamily, hdst, hsrc, Option.bind_eq_bind,
      Option.bind_some, if_neg hmemory, Instruction.opcode_or_registers hi hfamily hdst hsrc]
  | register shift =>
    rw [hfamily] at hkinds
    obtain _ | ⟨⟨r, rfl⟩, _ | _⟩ := hkinds
    obtain ⟨code, hcode, rfl⟩ := (Instruction.encode_register_iff hfamily).mp hencode
    refine ⟨?_, by simp [Argument.settle, settleRegister, Settled.operandNode]⟩
    simp only [Reference.instruction, hfamily, hcode, Option.bind_eq_bind, Option.bind_some]
    rw [Instruction.opcode_or_code hi (by rw [hfamily]; rfl) hcode]
  | pair pairs =>
    rw [hfamily] at hkinds
    obtain _ | ⟨⟨r, rfl⟩, _ | _⟩ := hkinds
    obtain ⟨code, hcode, rfl⟩ := (Instruction.encode_pair_iff hfamily).mp hencode
    refine ⟨?_, by simp [Argument.settle, settleRegister, Settled.operandNode]⟩
    simp only [Reference.instruction, hfamily, hcode, Option.bind_eq_bind, Option.bind_some]
    rw [Instruction.opcode_or_code hi (by rw [hfamily]; rfl) hcode]
    rfl
  | restart =>
    rw [hfamily] at hkinds
    obtain _ | ⟨⟨v, rfl⟩, _ | _⟩ := hkinds
    -- The code is part of the opcode, so its value was known on the line.
    have hclean := hmessages _ List.mem_cons_self
    simp only [Argument.settle, settleRestart] at hclean
    cases heval : v.expr.eval symbols place.address with
    | error name =>
      rw [heval] at hclean
      cases hclean
    | ok n =>
      simp only [List.map, Argument.settle, settleRestart, heval] at hencode
      obtain ⟨hfits, rfl⟩ := (Instruction.encode_restart_iff hfamily).mp hencode
      obtain ⟨hsign, hlt⟩ := fits_iff.mp hfits
      refine ⟨?_, by simp [Argument.settle, settleRestart, heval, Settled.operandNode]⟩
      simp only [Reference.instruction, Reference.number, hfamily, Expr.eval_mono hext heval,
        Except.toOption, Option.bind_eq_bind, Option.bind_some]
      rw [if_pos ⟨hsign, by omega⟩, Instruction.opcode_or_shift hi (by rw [hfamily]; rfl) hlt,
        UInt8.toNat_ofNat_of_lt' (Nat.lt_trans hlt (by decide))]
      rfl
  | registerByte | pairWord pairs | address | byte =>
    rw [hfamily] at hsize
    cases hsize

/-- An instruction of more than one byte completes the bytes of its value behind the code byte. -/
lemma completes_of_size_ne_one {bytes : List UInt8} (hi : i ∈ cpu.instructions)
    (hkinds : List.Forall₂ Argument.HasKind i.family.operands arguments)
    (hsize : i.family.size ≠ 1) (hext : symbols.Extends symbols')
    (hmessages : ∀ a ∈ arguments, errorCount (a.settle symbols place.address).messages = 0)
    (hencode : i.encode (arguments.map fun a => (a.settle symbols place.address).operand) =
      .ok bytes) :
    Completes symbols' place
      (arguments.map fun a => (a.settle symbols place.address).operandNode) 0 bytes
      (Reference.instruction symbols' place.address i arguments) := by
  have hregister : ∀ kind t code, Completes symbols' place
      [((Argument.register kind t).settle symbols place.address).operandNode] 0 [code]
      (some [code]) :=
    fun kind t code => completes_of_settled (by simp [Argument.settle, settleRegister,
      Settled.operandNode]) _
  cases hfamily : i.family with
  | registerByte =>
    rw [hfamily] at hkinds
    obtain _ | ⟨⟨r, rfl⟩, _ | ⟨⟨v, rfl⟩, _ | _⟩⟩ := hkinds
    obtain ⟨word, hword, hvalue⟩ :=
      completes_argument (by decide) hext (hmessages (.value .byte v) (by simp))
    simp only [List.map, hword] at hencode
    obtain ⟨code, hcode, -, rfl⟩ := (Instruction.encode_registerByte_iff hfamily).mp hencode
    have hreference : Reference.instruction symbols' place.address i
        [.register .register r, .value .byte v] =
          (some [i.opcode ||| (code <<< 3)]).bind fun new =>
            (Reference.value symbols' place.address .byte v).map (new ++ ·) := by
      simp only [Reference.instruction, hfamily, hcode, Option.bind_eq_bind, Option.bind_some]
      rw [Instruction.opcode_or_code hi (by rw [hfamily]; rfl) hcode]
      cases Reference.value symbols' place.address .byte v <;> rfl
    rw [hreference]
    exact (hregister _ _ _).append hvalue
  | pairWord pairs =>
    rw [hfamily] at hkinds
    obtain _ | ⟨⟨r, rfl⟩, _ | ⟨⟨v, rfl⟩, _ | _⟩⟩ := hkinds
    obtain ⟨word, hword, hvalue⟩ :=
      completes_argument (by decide) hext (hmessages (.value .word v) (by simp))
    simp only [List.map, hword] at hencode
    obtain ⟨code, hcode, rfl⟩ := (Instruction.encode_pairWord_iff hfamily).mp hencode
    have hreference : Reference.instruction symbols' place.address i
        [.register .pair r, .value .word v] =
          (some [i.opcode ||| (code <<< 4)]).bind fun new =>
            (Reference.value symbols' place.address .word v).map (new ++ ·) := by
      simp only [Reference.instruction, hfamily, hcode, Option.bind_eq_bind, Option.bind_some]
      rw [Instruction.opcode_or_code hi (by rw [hfamily]; rfl) hcode]
      cases Reference.value symbols' place.address .word v <;> rfl
    rw [hreference]
    exact (hregister _ _ _).append hvalue
  | address =>
    rw [hfamily] at hkinds
    obtain _ | ⟨⟨v, rfl⟩, _ | _⟩ := hkinds
    obtain ⟨word, hword, hvalue⟩ :=
      completes_argument (by decide) hext (hmessages (.value .address v) (by simp))
    simp only [List.map, hword] at hencode
    obtain rfl := (Instruction.encode_address_iff hfamily).mp hencode
    have hreference : Reference.instruction symbols' place.address i [.value .address v] =
        (Reference.value symbols' place.address .word v).map ([i.opcode] ++ ·) := by
      simp only [Reference.instruction, hfamily, Option.bind_eq_bind]
      cases Reference.value symbols' place.address .word v <;> rfl
    rw [hreference]
    exact hvalue.append_left [i.opcode]
  | byte =>
    rw [hfamily] at hkinds
    obtain _ | ⟨⟨v, rfl⟩, _ | _⟩ := hkinds
    obtain ⟨word, hword, hvalue⟩ :=
      completes_argument (by decide) hext (hmessages (.value .byte v) (by simp))
    simp only [List.map, hword] at hencode
    obtain ⟨-, rfl⟩ := (Instruction.encode_byte_iff hfamily).mp hencode
    have hreference : Reference.instruction symbols' place.address i [.value .byte v] =
        (Reference.value symbols' place.address .byte v).map ([i.opcode] ++ ·) := by
      simp only [Reference.instruction, hfamily, Option.bind_eq_bind]
      cases Reference.value symbols' place.address .byte v <;> rfl
    rw [hreference]
    exact hvalue.append_left [i.opcode]
  | implied | registerRegister | register shift | pair pairs | restart =>
    rw [hfamily] at hsize
    exact absurd rfl hsize

/-- An instruction without a complaint emits bytes and completes them. -/
lemma completes_instruction (hi : i ∈ cpu.instructions)
    (hkinds : List.Forall₂ Argument.HasKind i.family.operands arguments)
    (hext : symbols.Extends symbols')
    (hclean : errorCount (i.emission location
      (arguments.map (Argument.settle symbols place.address))).messages = 0) :
    (i.emission location (arguments.map (Argument.settle symbols place.address))).emits = true ∧
      Completes symbols' place
        (i.emission location (arguments.map (Argument.settle symbols place.address))).operands 0
        (i.emission location (arguments.map (Argument.settle symbols place.address))).bytes
        (Reference.instruction symbols' place.address i arguments) := by
  have husable : ∀ o ∈ arguments.map (Argument.settle symbols place.address),
      errorCount o.messages = 0 → o.usable = true := by
    intro o ho
    obtain ⟨a, -, rfl⟩ := List.mem_map.mp ho
    exact Argument.usable_of_errorCount_eq_zero
  obtain ⟨hmessages, bytes, hencode, hemission⟩ :=
    Instruction.emission_of_errorCount_eq_zero husable hclean
  rw [hemission, List.map_map]
  rw [List.map_map] at hencode
  simp only [List.forall_mem_map] at hmessages
  refine ⟨rfl, ?_⟩
  by_cases hsize : i.family.size = 1
  · obtain ⟨hreference, hsettled⟩ :=
      instruction_of_size_eq_one hi hkinds hsize hext hmessages hencode
    rw [hreference]
    exact completes_of_settled (List.forall_mem_map.mpr hsettled) bytes
  · exact completes_of_size_ne_one hi hkinds hsize hext hmessages hencode

end Patching

end MicroAsm
