import MicroAsm.Proofs.Assembly.Timely
import MicroAsm.Proofs.Expr
import MicroAsm.Proofs.Instruction.Fields

/-!
# What becomes of the nodes of a line

The nodes of operands and the bytes of a line come about in different ways: a node is made when its
line is read and may get its value in the last pass, which writes the value into the code, too.
Once the last pass has gone over the operands of a line without an error, nodes and bytes say the
same.
-/

namespace MicroAsm

/-! ### What the last pass makes of operands -/

/-- The operand after the last pass, on a line with the address `here`. -/
def OperandNode.resolved (symbols : SymbolTable) (here : UInt16) (o : OperandNode) : OperandNode :=
  match o.deferred with
  | none => o
  | some d =>
    match d.expr.eval symbols here with
    | .error _ => { o with deferred := none }
    | .ok n =>
      let word := (checkRange d.width.bits n o.node.location).1
      { node := { o.node with kind := o.node.kind.resolved word } }

/-- The line after the last pass. -/
def Line.resolved (symbols : SymbolTable) (l : Line) : Line :=
  { l with operands := l.operands.map (OperandNode.resolved symbols l.place.address) }

namespace Patching

variable (p : Patching) (symbols : SymbolTable)

lemma fst_resolveOperands (place : Placement) (os : List OperandNode) :
    (p.resolveOperands symbols place os).1 =
      os.map (OperandNode.resolved symbols place.address) := by
  induction os generalizing p with
  | nil => rfl
  | cons o os ih =>
    have hfirst : (p.resolveOperand symbols place o).1 = o.resolved symbols place.address := by
      rw [resolveOperand, OperandNode.resolved]
      cases o.deferred with
      | none => rfl
      | some d =>
        simp only
        cases d.expr.eval symbols place.address <;> rfl
    simp only [resolveOperands, hfirst, ih, List.map_cons]

/-- The code has no say in what becomes of the lines. -/
lemma lines_resolveRecords (rs : List Record) :
    (p.resolveRecords symbols rs).1.filterMap Record.line? =
      (rs.filterMap Record.line?).map (Line.resolved symbols) := by
  induction rs generalizing p with
  | nil => rfl
  | cons r rs ih =>
    cases r with
    | remnant r => exact ih p
    | line l =>
      simp only [resolveRecords, List.filterMap_cons, Record.line?, List.map_cons,
        fst_resolveOperands, ih]
      rfl

end Patching

/-! ### Values -/

lemma Reference.fits_of_digits {width : Width} {n : Int} {bs : List UInt8}
    (h : digits width n = some bs) : fits width.bits n = true := by
  rw [fits_iff]
  cases width with
  | byte =>
    rw [digits] at h
    split at h
    · rename_i hrange
      exact ⟨hrange.1, (Int.toNat_lt hrange.1).mpr hrange.2⟩
    · cases h
  | word =>
    rw [digits] at h
    split at h
    · rename_i hrange
      exact ⟨hrange.1, (Int.toNat_lt hrange.1).mpr hrange.2⟩
    · cases h

/-- The bytes of a value are those of a word that fits. -/
lemma Reference.exists_of_value {symbols : SymbolTable} {here : UInt16} {width : Width} {v : Value}
    {bs : List UInt8} (h : Reference.value symbols here width v = some bs) :
    ∃ n, v.expr.eval symbols here = .ok n ∧ fits width.bits n = true ∧
      bs = width.bytesOf (wordOfInt n) := by
  obtain ⟨n, hnumber, hdigits⟩ := Option.bind_eq_some_iff.mp h
  have hfits := fits_of_digits hdigits
  rw [digits_of_fits hfits] at hdigits
  cases hdigits
  refine ⟨n, ?_, hfits, rfl⟩
  cases heval : v.expr.eval symbols here with
  | error name =>
    rw [number, heval] at hnumber
    cases hnumber
  | ok n' =>
    rw [number, heval] at hnumber
    cases hnumber
    rfl

/-- A reference that gets its value becomes what it would have been with that value at once. -/
lemma Expr.resolved_nodeKind {e : Expr} {symbols : SymbolTable} {here : UInt16} {name : String}
    (h : e.eval symbols here = .error name) (kind : OperandKind) (word : UInt16) :
    (e.nodeKind here kind none).resolved word = e.nodeKind here kind (some word) := by
  have hliteral : e.literal?.isSome = false := by
    rw [literal?]
    split
    · rename_i n hterms
      rw [eval, hterms] at h
      cases h
    · rename_i c hterms
      rw [eval, hterms] at h
      cases h
    · rfl
  have hcounter : e.isLocationCounter = false := by
    rw [isLocationCounter]
    split
    · rename_i hterms
      rw [eval, hterms] at h
      cases h
    · rfl
  simp only [nodeKind, hliteral, hcounter, Bool.false_eq_true, if_false]
  split
  · cases kind <;> rfl
  · rfl

/-- The node of a value agrees with the bytes of that value, wherever they stand. -/
lemma Value.agrees_node {v : Value} {symbols : SymbolTable} {here : UInt16} {kind : OperandKind}
    {n : Int} (heval : v.expr.eval symbols here = .ok n) (hfits : fits kind.width.bits n = true)
    (front rest : List UInt8) :
    (v.expr.nodeKind here kind (some (wordOfInt n))).Agrees
      (front ++ kind.width.bytesOf (wordOfInt n) ++ rest) (kind.width.field front.length) := by
  have hlt : (wordOfInt n).toNat < 1 <<< kind.width.bits := by
    rw [← Int.toNat_natCast (wordOfInt n).toNat, toNat_wordOfInt kind.width.bits_le hfits]
    exact (fits_iff.mp hfits).2
  have hread := Width.read_field hlt front rest
  by_cases hliteral : v.expr.literal?.isSome = true
  · rw [Expr.nodeKind.eq_def, if_pos hliteral]
    cases kind with
    | byte =>
      -- A byte is cut down to its width, which changes nothing.
      have hbyte : (wordOfInt n).toUInt8.toNat = (wordOfInt n).toNat := by
        rw [UInt16.toNat_toUInt8]
        exact Nat.mod_eq_of_lt hlt
      refine ⟨rfl, ?_⟩
      rintro _ ⟨⟩
      exact ⟨_, rfl, hread.trans (congrArg some hbyte.symm)⟩
    | _ =>
      refine ⟨rfl, ?_⟩
      rintro _ ⟨⟩
      exact ⟨_, rfl, hread⟩
  rw [Expr.nodeKind.eq_def, if_neg hliteral]
  by_cases hcounter : v.expr.isLocationCounter = true
  · have hword : wordOfInt n = here := by
      rw [Expr.eval_of_isLocationCounter hcounter] at heval
      rw [← Except.ok.inj heval, wordOfInt_toNat]
    rw [if_pos hcounter, ← hword]
    refine ⟨rfl, ?_⟩
    rintro _ ⟨⟩
    exact ⟨_, rfl, hread⟩
  rw [if_neg hcounter]
  by_cases hsymbol : v.expr.symbol?.isSome = true
  · rw [if_pos hsymbol]
    cases kind <;>
    · refine ⟨rfl, ?_⟩
      rintro _ ⟨⟩
      exact ⟨_, rfl, hread⟩
  · rw [if_neg hsymbol]
    refine ⟨rfl, ?_⟩
    rintro _ ⟨⟩

namespace Patching

/-- The last pass completes the bytes `old`, which stand `offset` bytes behind the start of a line,
and then the operands agree with them. -/
def Mirrors (last : SymbolTable) (place : Placement) (os : List OperandNode) (offset : Nat)
    (old : List UInt8) (fields : List Field) : Prop :=
  ∃ expected, Completes last place os offset old expected ∧
    ∀ bs ∈ expected, bs.length = old.length ∧
      ∀ front rest : List UInt8, front.length = offset →
        List.Forall₂ (fun o field =>
          (o.resolved last place.address).node.kind.Agrees (front ++ bs ++ rest) field) os fields

variable {now last : SymbolTable} {place : Placement} {offset : Nat} {os os' : List OperandNode}
  {old old' : List UInt8} {fields fields' : List Field}

lemma Mirrors.append (h : Mirrors last place os offset old fields)
    (h' : Mirrors last place os' (offset + old.length) old' fields') :
    Mirrors last place (os ++ os') offset (old ++ old') (fields ++ fields') := by
  obtain ⟨expected, hcompletes, hagrees⟩ := h
  obtain ⟨expected', hcompletes', hagrees'⟩ := h'
  refine ⟨_, hcompletes.append hcompletes', ?_⟩
  intro bs hbs
  obtain ⟨new, hnew, hbs⟩ := Option.bind_eq_some_iff.mp hbs
  obtain ⟨new', hnew', rfl⟩ := Option.map_eq_some_iff.mp hbs
  obtain ⟨hlength, hagrees⟩ := hagrees new hnew
  obtain ⟨hlength', hagrees'⟩ := hagrees' new' hnew'
  refine ⟨by rw [List.length_append, List.length_append, hlength, hlength'], ?_⟩
  intro front rest hfront
  have hfirst := hagrees front (new' ++ rest) hfront
  have hsecond := hagrees' (front ++ new) rest (by rw [List.length_append, hfront, hlength])
  rw [List.append_assoc, ← List.append_assoc new] at hfirst
  rw [List.append_assoc front] at hsecond
  rw [List.append_assoc]
  rw [List.append_assoc] at hsecond
  exact List.rel_append hfirst hsecond

/-- Operands that do not wait agree with the bytes there are. -/
lemma mirrors_of_settled (hsettled : ∀ o ∈ os, o.deferred = none)
    (h : ∀ front rest : List UInt8, front.length = offset →
      List.Forall₂ (fun o field => o.node.kind.Agrees (front ++ old ++ rest) field) os fields) :
    Mirrors last place os offset old fields := by
  refine ⟨some old, completes_of_settled hsettled old, ?_⟩
  rintro _ ⟨⟩
  refine ⟨rfl, ?_⟩
  intro front rest hfront
  refine List.Forall₂.imp ?_ ((List.forall₂_and_left os fields).mpr
    ⟨hsettled, h front rest hfront⟩)
  rintro o field ⟨ho, hagrees⟩
  rw [OperandNode.resolved, ho]
  exact hagrees

/-- A value without a complaint has its node agree with its bytes, whether it waits or not. -/
lemma mirrors_value {kind : OperandKind} {v : Value}
    (hclean : errorCount (v.settle now place.address kind).messages = 0) :
    Mirrors last place
      [{ node := (v.settle now place.address kind).node
         deferred := (v.settle now place.address kind).waiting.map (⟨offset, kind.width, ·⟩) }]
      offset (kind.width.bytesOf (v.settle now place.address kind).word)
      [kind.width.field offset] := by
  refine ⟨_, completes_timely_value hclean, ?_⟩
  intro bs hbs
  obtain ⟨n, hn, hfits, rfl⟩ := Reference.exists_of_value hbs
  refine ⟨by simp, ?_⟩
  rintro front rest rfl
  have hagrees := Value.agrees_node hn hfits front rest
  refine .cons ?_ .nil
  cases heval : v.expr.eval now place.address with
  | ok n' =>
    rw [Timely.table_of_ok heval, heval] at hn
    cases hn
    have hcheck : checkRange kind.width.bits n v.location = (wordOfInt n, []) :=
      if_pos hfits
    simp only [Value.settle, heval, hcheck, OperandNode.resolved, Option.map_none]
    exact hagrees
  | error name =>
    rw [Timely.table_of_error heval] at hn
    have hcheck : checkRange kind.width.bits n (v.node place.address kind none).location =
        (wordOfInt n, []) := if_pos hfits
    simp only [Value.settle, heval, OperandNode.resolved, Option.map_some, hn, hcheck]
    rw [Value.node, Expr.resolved_nodeKind heval]
    exact hagrees

/-! ### Data -/

/-- The nodes of the characters of a string agree with its bytes. -/
lemma agrees_stringEmission {t : Token} {text : String} {cs : List Char}
    (hclean : errorCount (stringEmission t text cs).messages = 0) (front rest : List UInt8) :
    List.Forall₂ (fun o field => o.node.kind.Agrees
        (front ++ (stringEmission t text cs).bytes ++ rest) field)
      (stringEmission t text cs).operands
      (Width.byte.fields front.length (stringEmission t text cs).operands.length) := by
  induction cs generalizing text front with
  | nil => exact .nil
  | cons c cs ih =>
    simp only [stringEmission, errorCount_append, Nat.add_eq_zero_iff] at hclean ⊢
    refine .cons ⟨rfl, ?_⟩ ?_
    · rintro _ ⟨⟩
      exact ⟨_, rfl, by simp [Width.field, Field.read]⟩
    · have hrest := ih hclean.2 (front ++ [(checkRange 8 c.toNat t.location).1.toUInt8])
      rw [List.length_append, List.append_assoc front] at hrest
      exact hrest

variable {width : Width}

/-- The fields of an item come right behind each other, and so do its bytes. -/
lemma mirrors_item {item : Item} (hsuits : item.Suits width)
    (hclean : errorCount (item.emission now place.address width offset).messages = 0) :
    Mirrors last place (item.emission now place.address width offset).operands offset
        (item.emission now place.address width offset).bytes
        (width.fields offset (item.emission now place.address width offset).operands.length) ∧
      (item.emission now place.address width offset).bytes.length =
        (item.emission now place.address width offset).operands.length * width.size := by
  cases item with
  | string t =>
    obtain rfl : width = .byte := hsuits
    have hlength : ∀ text cs, (stringEmission t text cs).bytes.length =
        (stringEmission t text cs).operands.length := by
      intro text cs
      induction cs generalizing text with
      | nil => rfl
      | cons c cs ih => simp [stringEmission, ih]
    refine ⟨mirrors_of_settled (settled_stringEmission _ _ _) ?_, ?_⟩
    · rintro front rest rfl
      exact agrees_stringEmission hclean front rest
    · exact (hlength _ _).trans (Nat.mul_one _).symm
  | value v =>
    have hvalue := @mirrors_value now last place offset width.operandKind v hclean
    rw [width.width_operandKind] at hvalue
    refine ⟨hvalue, ?_⟩
    simp [Item.emission]

lemma mirrors_items {items : List Item} (hsuits : ∀ item ∈ items, item.Suits width)
    (hclean : errorCount (Item.emissions now place.address width offset items).messages = 0) :
    Mirrors last place (Item.emissions now place.address width offset items).operands offset
      (Item.emissions now place.address width offset items).bytes
      (width.fields offset
        (Item.emissions now place.address width offset items).operands.length) := by
  induction items generalizing offset with
  | nil => exact mirrors_of_settled (by simp [Item.emissions]) fun _ _ _ => .nil
  | cons item items ih =>
    rw [List.forall_mem_cons] at hsuits
    simp only [Item.emissions, errorCount_append, Nat.add_eq_zero_iff] at hclean ⊢
    obtain ⟨hitem, hlength⟩ := @mirrors_item now last place offset width item hsuits.1 hclean.1
    rw [List.length_append, Width.fields_add, ← hlength]
    exact hitem.append (ih hsuits.2 hclean.2)

/-! ### Instructions -/

/-- Operands whose codes are in the code byte. -/
lemma mirrors_codeByte {byte : UInt8} (hsettled : ∀ o ∈ os, o.deferred = none)
    (h : ∀ rest, List.Forall₂ (fun o field => o.node.kind.Agrees (byte :: rest) field) os fields) :
    Mirrors last place os 0 [byte] fields := by
  refine mirrors_of_settled hsettled ?_
  intro front rest hfront
  rw [List.length_eq_zero_iff.mp hfront]
  exact h rest

/-- The value of an instruction stands behind the code byte. -/
lemma mirrors_argument {kind : OperandKind} {v : Value} (hkind : kind ≠ .restartCode)
    (hclean : errorCount ((Argument.value kind v).settle now place.address).messages = 0) :
    ∃ word, ((Argument.value kind v).settle now place.address).operand = .value word.toNat ∧
      Mirrors last place [((Argument.value kind v).settle now place.address).operandNode] 1
        (kind.width.bytesOf word) [kind.width.field 1] := by
  have hsettle : (Argument.value kind v).settle now place.address =
      { node := (v.settle now place.address kind).node
        operand := .value (v.settle now place.address kind).word.toNat
        waiting := (v.settle now place.address kind).waiting.map (kind.width, ·)
        messages := (v.settle now place.address kind).messages } := by
    cases kind <;> first | rfl | contradiction
  rw [hsettle] at hclean ⊢
  refine ⟨(v.settle now place.address kind).word, rfl, ?_⟩
  have hvalue := @mirrors_value now last place 1 kind v hclean
  simp only [Settled.operandNode, Option.map_map]
  exact hvalue

end Patching

namespace Argument

variable {symbols : SymbolTable} {here : UInt16} {t : Token} {code : UInt8} {bytes : List UInt8}
  {field : Field}

lemma agrees_register (hcode : registerCode? t.value = some code)
    (hread : field.read bytes = some code.toNat) :
    ((Argument.register .register t).settle symbols here).operandNode.node.kind.Agrees bytes
      field := by
  simp only [settle, settleRegister, Settled.operandNode, hcode]
  refine ⟨rfl, ?_⟩
  rintro _ ⟨⟩
  exact ⟨_, rfl, hread⟩

lemma agrees_pair {pairs : PairSet} (hcode : pairs.code? t.value = some code)
    (hread : field.read bytes = some code.toNat) :
    ((Argument.register .pair t).settle symbols here).operandNode.node.kind.Agrees bytes
      field := by
  simp only [settle, settleRegister, Settled.operandNode, pairCode?_of_code? hcode]
  refine ⟨rfl, ?_⟩
  rintro _ ⟨⟩
  exact ⟨_, rfl, hread⟩

end Argument

namespace Patching

variable {now last : SymbolTable} {place : Placement} {cpu : Cpu} {i : Instruction}
  {location : Location} {arguments : List Argument}

/-- An operand whose code is that of a name. -/
lemma mirrors_name (hi : i ∈ cpu.instructions) {shift code : UInt8} {names : List String}
    {name : String} {o : OperandNode} {field : Field}
    (hfield : i.family.field? = some (shift, names.length)) (hlength : names.length ≤ 8)
    (hhead : i.family.fields.head? = some field) (hcode : codeIn? names name = some code)
    (hsettled : o.deferred = none)
    (h : ∀ bytes, field.read bytes = some code.toNat → o.node.kind.Agrees bytes field) :
    Mirrors last place [o] 0 [i.opcode ||| (code <<< shift)] [field] := by
  rw [Instruction.opcode_or_code hi hfield hcode]
  refine mirrors_codeByte (List.forall_mem_singleton.mpr hsettled) ?_
  intro rest
  exact .cons (h _ (Instruction.read_code hi hfield hlength hcode rest hhead)) .nil

lemma mirrors_register (hi : i ∈ cpu.instructions) {shift code : UInt8} {t : Token} {field : Field}
    (hfield : i.family.field? = some (shift, registerNames.length))
    (hhead : i.family.fields.head? = some field) (hcode : registerCode? t.value = some code) :
    Mirrors last place [((Argument.register .register t).settle now place.address).operandNode] 0
      [i.opcode ||| (code <<< shift)] [field] :=
  mirrors_name hi hfield (by decide) hhead hcode rfl fun _ => Argument.agrees_register hcode

lemma mirrors_pair (hi : i ∈ cpu.instructions) {code : UInt8} {pairs : PairSet} {t : Token}
    {field : Field} (hfield : i.family.field? = some (4, pairs.names.length))
    (hhead : i.family.fields.head? = some field) (hcode : pairs.code? t.value = some code) :
    Mirrors last place [((Argument.register .pair t).settle now place.address).operandNode] 0
      [i.opcode ||| (code <<< 4)] [field] :=
  mirrors_name hi hfield (by cases pairs <;> decide) hhead hcode rfl
    fun _ => Argument.agrees_pair hcode

lemma mirrors_restart (hi : i ∈ cpu.instructions) (hfamily : i.family = .restart) {v : Value}
    {n : Int} (heval : v.expr.eval now place.address = .ok n) (hfits : fits 3 n = true) :
    Mirrors last place [((Argument.value .restartCode v).settle now place.address).operandNode] 0
      [i.opcode ||| (UInt8.ofNat n.toNat <<< 3)] i.family.fields := by
  have hfield : i.family.field? = some (3, 8) := by rw [hfamily]; rfl
  have hlt : n.toNat < 8 := (fits_iff.mp hfits).2
  have hcode : (UInt8.ofNat n.toNat).toNat = n.toNat :=
    UInt8.toNat_ofNat_of_lt' (Nat.lt_trans hlt (by decide))
  have hword : (wordOfInt n).toUInt8 = UInt8.ofNat n.toNat := UInt16.toUInt8_ofNat' _
  rw [Instruction.opcode_or_shift hi hfield hlt, hcode]
  refine mirrors_codeByte ?_ ?_
  · simp [Argument.settle, settleRestart, heval, Settled.operandNode]
  · intro rest
    simp only [Argument.settle, settleRestart, heval, Settled.operandNode, hfits, if_true, hfamily]
    refine .cons ⟨rfl, ?_⟩ .nil
    rintro _ ⟨⟩
    refine ⟨_, rfl, ?_⟩
    rw [hword, hcode]
    exact Instruction.read_codeByte hi hfield hlt rest (by rw [hfamily]; rfl)

/-- The operands of an instruction that was encoded agree with its bytes. -/
lemma mirrors_encode {bytes : List UInt8} (hi : i ∈ cpu.instructions)
    (hkinds : List.Forall₂ Argument.HasKind i.family.operands arguments)
    (hmessages : ∀ a ∈ arguments, errorCount (a.settle now place.address).messages = 0)
    (hencode : i.encode (arguments.map fun a => (a.settle now place.address).operand) =
      .ok bytes) :
    Mirrors last place (arguments.map fun a => (a.settle now place.address).operandNode) 0 bytes
      i.family.fields := by
  have hcode : ∀ byte, Mirrors last place [] 0 [byte] [] :=
    fun byte => mirrors_codeByte (by simp) fun _ => .nil
  cases hfamily : i.family with
  | implied =>
    rw [hfamily] at hkinds
    cases hkinds
    obtain rfl := (Instruction.encode_implied_iff hfamily).mp hencode
    exact hcode i.opcode
  | registerRegister =>
    rw [hfamily] at hkinds
    obtain _ | ⟨⟨d, rfl⟩, _ | ⟨⟨s, rfl⟩, _ | _⟩⟩ := hkinds
    obtain ⟨dst, src, hdst, hsrc, -, rfl⟩ :=
      (Instruction.encode_registerRegister_iff hfamily).mp hencode
    obtain ⟨hread, hread'⟩ := Instruction.read_registers hi hfamily hdst hsrc
    rw [Instruction.opcode_or_registers hi hfamily hdst hsrc]
    refine mirrors_codeByte (by simp [Argument.settle, settleRegister, Settled.operandNode]) ?_
    intro rest
    exact .cons (Argument.agrees_register hdst hread)
      (.cons (Argument.agrees_register hsrc hread') .nil)
  | register shift =>
    rw [hfamily] at hkinds
    obtain _ | ⟨⟨r, rfl⟩, _ | _⟩ := hkinds
    obtain ⟨code, hregister, rfl⟩ := (Instruction.encode_register_iff hfamily).mp hencode
    exact mirrors_register hi (by rw [hfamily]; rfl) (by rw [hfamily]; rfl) hregister
  | pair pairs =>
    rw [hfamily] at hkinds
    obtain _ | ⟨⟨r, rfl⟩, _ | _⟩ := hkinds
    obtain ⟨code, hpair, rfl⟩ := (Instruction.encode_pair_iff hfamily).mp hencode
    exact mirrors_pair hi (by rw [hfamily]; rfl) (by rw [hfamily]; rfl) hpair
  | restart =>
    rw [← hfamily]
    rw [hfamily] at hkinds
    obtain _ | ⟨⟨v, rfl⟩, _ | _⟩ := hkinds
    -- The code is part of the opcode, so its value was known on the line.
    have hclean := hmessages _ List.mem_cons_self
    simp only [Argument.settle, settleRestart] at hclean
    cases heval : v.expr.eval now place.address with
    | error name =>
      rw [heval] at hclean
      cases hclean
    | ok n =>
      simp only [List.map, Argument.settle, settleRestart, heval] at hencode
      obtain ⟨hfits, rfl⟩ := (Instruction.encode_restart_iff hfamily).mp hencode
      exact mirrors_restart hi hfamily heval hfits
  | registerByte =>
    rw [hfamily] at hkinds
    obtain _ | ⟨⟨r, rfl⟩, _ | ⟨⟨v, rfl⟩, _ | _⟩⟩ := hkinds
    obtain ⟨word, hword, hvalue⟩ := @mirrors_argument now last place .byte v (by decide)
      (hmessages (.value .byte v) (by simp))
    simp only [List.map, hword] at hencode
    obtain ⟨code, hregister, -, rfl⟩ := (Instruction.encode_registerByte_iff hfamily).mp hencode
    exact (mirrors_register hi (by rw [hfamily]; rfl) (by rw [hfamily]; rfl) hregister).append
      hvalue
  | pairWord pairs =>
    rw [hfamily] at hkinds
    obtain _ | ⟨⟨r, rfl⟩, _ | ⟨⟨v, rfl⟩, _ | _⟩⟩ := hkinds
    obtain ⟨word, hword, hvalue⟩ := @mirrors_argument now last place .word v (by decide)
      (hmessages (.value .word v) (by simp))
    simp only [List.map, hword] at hencode
    obtain ⟨code, hpair, rfl⟩ := (Instruction.encode_pairWord_iff hfamily).mp hencode
    exact (mirrors_pair hi (by rw [hfamily]; rfl) (by rw [hfamily]; rfl) hpair).append hvalue
  | address =>
    rw [hfamily] at hkinds
    obtain _ | ⟨⟨v, rfl⟩, _ | _⟩ := hkinds
    obtain ⟨word, hword, hvalue⟩ := @mirrors_argument now last place .address v (by decide)
      (hmessages (.value .address v) (by simp))
    simp only [List.map, hword] at hencode
    obtain rfl := (Instruction.encode_address_iff hfamily).mp hencode
    exact (hcode i.opcode).append hvalue
  | byte =>
    rw [hfamily] at hkinds
    obtain _ | ⟨⟨v, rfl⟩, _ | _⟩ := hkinds
    obtain ⟨word, hword, hvalue⟩ := @mirrors_argument now last place .byte v (by decide)
      (hmessages (.value .byte v) (by simp))
    simp only [List.map, hword] at hencode
    obtain ⟨-, rfl⟩ := (Instruction.encode_byte_iff hfamily).mp hencode
    exact (hcode i.opcode).append hvalue

lemma mirrors_instruction (hi : i ∈ cpu.instructions)
    (hkinds : List.Forall₂ Argument.HasKind i.family.operands arguments)
    (hclean : errorCount (i.emission location
      (arguments.map (Argument.settle now place.address))).messages = 0) :
    (i.emission location (arguments.map (Argument.settle now place.address))).emits = true ∧
      Mirrors last place
        (i.emission location (arguments.map (Argument.settle now place.address))).operands 0
        (i.emission location (arguments.map (Argument.settle now place.address))).bytes
        i.family.fields := by
  have husable : ∀ o ∈ arguments.map (Argument.settle now place.address),
      errorCount o.messages = 0 → o.usable = true := by
    intro o ho
    obtain ⟨a, -, rfl⟩ := List.mem_map.mp ho
    exact Argument.usable_of_errorCount_eq_zero
  obtain ⟨hmessages, bytes, hencode, hemission⟩ :=
    Instruction.emission_of_errorCount_eq_zero husable hclean
  rw [hemission, List.map_map]
  rw [List.map_map] at hencode
  simp only [List.forall_mem_map] at hmessages
  exact ⟨rfl, mirrors_encode hi hkinds hmessages hencode⟩

end Patching

end MicroAsm
