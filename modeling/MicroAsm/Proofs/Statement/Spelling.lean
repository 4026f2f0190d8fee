import MicroAsm.Proofs.Assembly.Quiet
import MicroAsm.Proofs.Expr
import MicroAsm.Proofs.Text.Hex
import MicroAsm.Proofs.Word

/-!
# Lines as they are written

Names and numbers written as operands are scanned and read back as these operands, so a line with a
mnemonic and such operands puts the code of the instruction into the segment and does nothing else.
The same holds for a directive with one number.
-/

namespace MicroAsm

/-! ### Words -/

/-- A word of capital letters that is no directive. -/
def IsPlainName (s : String) : Prop :=
  s.toList ≠ [] ∧ s.toList.all Char.isUpper = true ∧ TokenKind.keyword? s = none

instance : DecidablePred IsPlainName :=
  fun _ => inferInstanceAs (Decidable (_ ∧ _))

/-- Capital letters are scanned as one word. -/
lemma scans_capitals {s : String} (hne : s.toList ≠ []) (h : s.toList.all Char.isUpper = true) :
    Scanner.Scans s.toList [((TokenKind.keyword? s).getD .identifier, s)] := by
  have hkind : Lexeme.kindOfName s.toList = (TokenKind.keyword? s).getD .identifier := by
    rw [Lexeme.kindOfName, String.ofList_toList]
  have hvalue : Lexeme.value (Lexeme.kindOfName s.toList) s.toList = s := by
    rw [hkind, TokenKind.keyword?.eq_def]
    split <;> simp [Lexeme.value]
  have hscans := Scanner.scans_lexeme (Lexeme.lexes_name hne h)
  rwa [hvalue, hkind] at hscans

/-- An operand of an instruction as it is written. -/
inductive Written where
  | name (s : String)
  | number (s : String) (n : UInt16)

namespace Written

def text : Written → String
  | name s => s
  | number s _ => s

def word : Written → TokenKind × String
  | name s => (.identifier, s)
  | number s _ => (.number, s)

def operand : Written → Operand
  | name s => .register s
  | number _ n => .value n.toNat

/-- The text is one word, and the right one. -/
def Plain : Written → Prop
  | name s => IsPlainName s
  | number s n => Lexes .number s.toList ∧ Numeral.value? s.toList = some (n.toNat : Int)

/-- The operand can be read where the kind is asked for. -/
def Fits : OperandKind → Written → Prop
  | .register, name _ | .pair, name _ => True
  | .byte, number _ n => n.toNat < 256
  | .word, number _ _ | .address, number _ _ | .restartCode, number _ _ => True
  | _, _ => False

lemma Plain.scans {w : Written} (h : w.Plain) : Scanner.Scans w.text.toList [w.word] := by
  cases w with
  | name s =>
    have hscans := scans_capitals h.1 h.2.1
    rwa [h.2.2] at hscans
  | number s n =>
    have hvalue : Lexeme.value .number s.toList = s := String.ofList_toList
    have hscans := Scanner.scans_lexeme h.1
    rwa [hvalue] at hscans

/-- The words of operands with commas between them. -/
def words : List Written → List (TokenKind × String)
  | [] => []
  | [w] => [w.word]
  | w :: ws => w.word :: (.comma, ",") :: words ws

lemma scans_words {ws : List Written} (hne : ws ≠ []) (h : ∀ w ∈ ws, w.Plain) :
    Scanner.Scans (",".intercalate (ws.map text)).toList (words ws) := by
  induction ws with
  | nil => exact absurd rfl hne
  | cons w ws ih =>
    rw [List.forall_mem_cons] at h
    cases ws with
    | nil => simpa [words] using h.1.scans
    | cons w' ws =>
      have hrest := (ih (by simp) h.2).comma
      rw [List.map_cons, List.map_cons, String.intercalate_cons_cons]
      simpa [words] using h.1.scans.append (by decide) hrest

/-- A line with a mnemonic and operands. -/
def spell (mnemonic : String) (ws : List Written) : String :=
  match ws with
  | [] => mnemonic
  | ws => mnemonic ++ " " ++ ",".intercalate (ws.map text)

lemma scans_spell {mnemonic : String} {ws : List Written} (hname : IsPlainName mnemonic)
    (h : ∀ w ∈ ws, w.Plain) :
    Scanner.Scans (spell mnemonic ws).toList ((.identifier, mnemonic) :: words ws) := by
  have hfirst := scans_capitals hname.1 hname.2.1
  rw [hname.2.2] at hfirst
  cases ws with
  | nil => exact hfirst
  | cons w ws =>
    have hrest := (scans_words (List.cons_ne_nil w ws) h).blank
    simpa [spell] using hfirst.append (by decide) hrest

end Written

/-! ### Reading -/

/-- On every line the argument comes to the operand, without a complaint and without waiting. -/
def Argument.Means (argument : Argument) (operand : Operand) : Prop :=
  ∀ symbols here, ∃ node, argument.settle symbols here = { node, operand }

/-- The value is one number. -/
def Value.IsNumber (v : Value) (n : UInt16) : Prop :=
  v.expr = ⟨[⟨false, .number n.toNat⟩]⟩

lemma Value.IsNumber.eval {v : Value} {n : UInt16} (h : v.IsNumber n) (symbols : SymbolTable)
    (here : UInt16) : v.expr.eval symbols here = .ok (n.toNat : Int) := by
  have hterms : v.expr.terms = [⟨false, .number n.toNat⟩] := congrArg Expr.terms h
  exact Expr.eval_of_terms hterms rfl

lemma checkRange_toNat {n : UInt16} {bits : Nat} (h : n.toNat < 1 <<< bits) (location : Location) :
    checkRange bits n.toNat location = (n, []) := by
  rw [checkRange, if_pos (fits_toNat h), wordOfInt_toNat]

/-- A number that fits is settled at once. -/
lemma Value.IsNumber.settle {v : Value} {n : UInt16} (h : v.IsNumber n) (kind : OperandKind)
    (hlt : n.toNat < 1 <<< kind.width.bits) (symbols : SymbolTable) (here : UInt16) :
    v.settle symbols here kind = { node := v.node here kind (some n), word := n } := by
  simp only [Value.settle, h.eval, checkRange_toNat hlt]

namespace Reader

variable {stop t : Token} {rest : List Token}

lemma readValue_number {n : UInt16} (hkind : t.kind = .number)
    (hnumber : Numeral.value? t.value.toList = some (n.toNat : Int))
    (hrest : ∀ op ∈ rest.head?, sign? op = none) :
    ∃ v : Value, v.IsNumber n ∧ readValue stop (t :: rest) = .ok (v, rest) := by
  have hsign : sign? t = none := by rw [sign?, hkind]
  have hterm : readTerm t = .ok (.number n.toNat) := by
    rw [readTerm, hkind]
    simp only [Token.number?, hkind, if_true, hnumber]
  refine ⟨⟨⟨[⟨false, .number n.toNat⟩]⟩, t.value, t.location⟩, rfl, ?_⟩
  have hterms : readTerms stop false (t :: rest) =
      .ok ([⟨false, .number n.toNat⟩], t.value, rest) := by
    cases rest with
    | nil =>
      rw [readTerms, hterm]
      rfl
    | cons op rest =>
      rw [readTerms, hterm, hrest op rfl]
  simp only [readValue, List.head?_cons, Option.bind_some, hsign, hterms]
  rfl

/-- A name is read as a register or a pair. -/
lemma readArgument_name {kind : OperandKind} {s : String} (hfits : (Written.name s).Fits kind)
    (hword : t.word = (Written.name s).word) :
    ∃ argument, readArgument stop kind (t :: rest) = .ok (argument, rest) ∧
      argument.Means (.register s) := by
  obtain ⟨hkind, rfl⟩ := Prod.ext_iff.mp hword
  refine ⟨.register kind t, ?_, ?_⟩
  · cases kind with
    | register | pair => exact if_pos hkind
    | byte | word | address | restartCode => exact hfits.elim
  · intro symbols here
    exact ⟨_, rfl⟩

/-- A number is read as a value of the kind that is asked for. -/
lemma readArgument_number {kind : OperandKind} {s : String} {n : UInt16}
    (hplain : (Written.number s n).Plain) (hfits : (Written.number s n).Fits kind)
    (hword : t.word = (Written.number s n).word) (hrest : ∀ op ∈ rest.head?, sign? op = none) :
    ∃ argument, readArgument stop kind (t :: rest) = .ok (argument, rest) ∧
      argument.Means (.value n.toNat) := by
  obtain ⟨hkind, rfl⟩ := Prod.ext_iff.mp hword
  obtain ⟨v, hnumber, hread⟩ := @readValue_number stop t rest n hkind hplain.2 hrest
  refine ⟨.value kind v, ?_, ?_⟩
  · cases kind with
    | register | pair => exact hfits.elim
    | byte | word | address | restartCode =>
      simp only [readArgument, hread]
      rfl
  · intro symbols here
    cases kind with
    | register | pair => exact hfits.elim
    | byte =>
      have hlt : n.toNat < 256 := hfits
      simp only [Argument.settle, hnumber.settle .byte hlt]
      exact ⟨_, rfl⟩
    | word =>
      simp only [Argument.settle, hnumber.settle .word n.toNat_lt]
      exact ⟨_, rfl⟩
    | address =>
      simp only [Argument.settle, hnumber.settle .address n.toNat_lt]
      exact ⟨_, rfl⟩
    | restartCode =>
      simp only [Argument.settle, settleRestart, hnumber.eval]
      exact ⟨_, rfl⟩

/-- What a written operand is read as. -/
lemma readArgument_written {kind : OperandKind} {w : Written} (hplain : w.Plain)
    (hfits : w.Fits kind) (hword : t.word = w.word) (hrest : ∀ op ∈ rest.head?, sign? op = none) :
    ∃ argument, readArgument stop kind (t :: rest) = .ok (argument, rest) ∧
      argument.Means w.operand := by
  cases w with
  | name s => exact readArgument_name hfits hword
  | number s n => exact readArgument_number hplain hfits hword hrest

/-- What written operands are read as. -/
lemma readArguments_written {kinds : List OperandKind} {ws : List Written} {ts : List Token}
    (hplain : ∀ w ∈ ws, w.Plain) (hfits : List.Forall₂ (fun kind w => w.Fits kind) kinds ws)
    (hwords : ts.map Token.word = Written.words ws) :
    ∃ arguments, readArguments stop kinds ts = (arguments, .ok []) ∧
      List.Forall₂ Argument.Means arguments (ws.map Written.operand) := by
  induction hfits generalizing ts with
  | nil =>
    obtain rfl := List.map_eq_nil_iff.mp hwords
    exact ⟨[], rfl, .nil⟩
  | @cons kind w kinds ws hfit hfits ih =>
    rw [List.forall_mem_cons] at hplain
    cases hfits with
    | nil =>
      obtain ⟨t, ts, rfl, hword, hts⟩ := List.map_eq_cons_iff.mp hwords
      obtain rfl := List.map_eq_nil_iff.mp hts
      obtain ⟨argument, hread, hmeans⟩ :=
        @readArgument_written stop t [] kind w hplain.1 hfit hword (by simp)
      exact ⟨[argument], by rw [readArguments, hread], .cons hmeans .nil⟩
    | @cons kind' w' kinds ws hfit' hfits =>
      obtain ⟨t, ts, rfl, hword, hts⟩ := List.map_eq_cons_iff.mp hwords
      obtain ⟨comma, ts, rfl, hcomma, hts⟩ := List.map_eq_cons_iff.mp hts
      have hkind : comma.kind = .comma := congrArg Prod.fst hcomma
      obtain ⟨argument, hread, hmeans⟩ :=
        @readArgument_written stop t (comma :: ts) kind w hplain.1 hfit hword
          (by rintro op hop; cases hop; rw [sign?, hkind])
      obtain ⟨arguments, hreads, hmeanss⟩ := ih hplain.2 hts
      refine ⟨argument :: arguments, ?_, .cons hmeans hmeanss⟩
      rw [readArguments.eq_3 _ _ _ _ (by simp), hread]
      simp only [hkind, if_true, hreads]

/-- A list of data may end with its first item. -/
lemma readItems_of_readItem {width : Width} {ts : List Token} {item : Item}
    (h : readItem stop width ts = .ok (item, [])) : readItems stop width ts = ([item], .ok []) := by
  rw [readItems]
  split
  · rename_i hread
    cases h.symm.trans hread
  · rename_i hread
    cases h.symm.trans hread
  · rename_i hread
    cases h.symm.trans hread
    rfl

/-- Without a colon or an assignment behind the first word there is no label. -/
lemma readLabel_eq_none {ts : List Token}
    (h : t.kind ≠ .identifier ∨ ∀ u ∈ ts.head?, u.kind = .identifier ∨ u.kind = .number) :
    readLabel (t :: ts) = (none, t :: ts) := by
  cases ts with
  | nil => rfl
  | cons u ts =>
    rw [readLabel]
    rcases h with h | h
    · rw [if_neg h]
    · rcases h u rfl with h | h <;> simp [h]

end Reader

lemma Written.kind_of_words {ws : List Written} {word : TokenKind × String}
    (h : word ∈ (Written.words ws).head?) : word.1 = .identifier ∨ word.1 = .number := by
  have hword : ∀ w : Written, w.word.1 = .identifier ∨ w.word.1 = .number := by
    intro w
    cases w with
    | name s => exact Or.inl rfl
    | number s n => exact Or.inr rfl
  match ws with
  | [] => cases h
  | [w] =>
    cases h
    exact hword w
  | w :: _ :: _ =>
    cases h
    exact hword w

/-- A mnemonic with operands is read as the instruction. -/
lemma SourceLine.read_instruction {cpu : Cpu} {line : SourceLine} {i : Instruction}
    {ws : List Written} (hwords : line.HasWords ((.identifier, i.mnemonic) :: Written.words ws))
    (hlookup : cpu.lookup i.mnemonic = .supported i) (hplain : ∀ w ∈ ws, w.Plain)
    (hfits : List.Forall₂ (fun kind w => w.Fits kind) i.family.operands ws) :
    ∃ location arguments, line.read cpu = .accepted none (.instruction i location arguments) none ∧
      List.Forall₂ Argument.Means arguments (ws.map Written.operand) := by
  obtain ⟨t, ts, hbody, hword, hts⟩ := List.map_eq_cons_iff.mp hwords
  have hkind : t.kind = .identifier := congrArg Prod.fst hword
  have hvalue : t.value = i.mnemonic := congrArg Prod.snd hword
  have hlabel : Reader.readLabel line.body = (none, t :: ts) := by
    rw [hbody]
    refine Reader.readLabel_eq_none (Or.inr ?_)
    intro u hu
    have hmem : u.word ∈ (Written.words ws).head? := by
      rw [← hts, List.head?_map, Option.mem_def.mp hu]
      rfl
    exact Written.kind_of_words hmem
  obtain ⟨arguments, hread, hmeans⟩ :=
    @Reader.readArguments_written line.stop i.family.operands ws ts hplain hfits hts
  refine ⟨t.location, arguments, ?_, hmeans⟩
  simp only [SourceLine.read, hlabel, Reader.readStatement, hkind, hvalue, hlookup,
    Reader.readInstruction, hread, Reader.expectEnd, Reader.atEnd, if_true]

namespace Assembly

variable {a : Assembly} {line : SourceLine}

lemma settle_of_means {arguments : List Argument} {operands : List Operand}
    (h : List.Forall₂ Argument.Means arguments operands) (symbols : SymbolTable) (here : UInt16) :
    (arguments.map (Argument.settle symbols here)).map Settled.operand = operands ∧
      ∀ s ∈ arguments.map (Argument.settle symbols here),
        s.usable = true ∧ s.messages = [] ∧ s.waiting = none := by
  induction h with
  | nil => simp
  | cons hmeans _ ih =>
    obtain ⟨node, hnode⟩ := hmeans symbols here
    simp only [List.map_cons, hnode, List.forall_mem_cons]
    exact ⟨by rw [ih.1], ⟨trivial, trivial, trivial⟩, ih.2⟩

/-- What arguments with known operands put into the code. -/
lemma emission_of_means {i : Instruction} {arguments : List Argument} {operands : List Operand}
    {bytes : List UInt8} (h : List.Forall₂ Argument.Means arguments operands)
    (hencode : i.encode operands = .ok bytes) (location : Location) (symbols : SymbolTable)
    (here : UInt16) :
    ∃ os, (∀ o ∈ os, OperandNode.deferred o = none) ∧
      i.emission location (arguments.map (Argument.settle symbols here)) =
        ⟨os, bytes, [], true⟩ := by
  obtain ⟨hoperands, hsettled⟩ := settle_of_means h symbols here
  have husable : (arguments.map (Argument.settle symbols here)).all Settled.usable = true :=
    List.all_eq_true.mpr fun s hs => (hsettled s hs).1
  have hmessages : (arguments.map (Argument.settle symbols here)).flatMap Settled.messages = [] :=
    List.flatMap_eq_nil_iff.mpr fun s hs => (hsettled s hs).2.1
  rw [Instruction.emission, if_pos husable, hoperands, hencode, hmessages]
  refine ⟨_, ?_, rfl⟩
  intro o ho
  obtain ⟨s, hs, rfl⟩ := List.mem_map.mp ho
  simp [(hsettled s hs).2.2]

/-- A line with an instruction puts its code into the segment and does nothing else. -/
lemma step_instruction {i : Instruction} {ws : List Written} {bytes : List UInt8}
    (hwords : line.HasWords ((.identifier, i.mnemonic) :: Written.words ws))
    (hlookup : a.cpu.lookup i.mnemonic = .supported i) (hplain : ∀ w ∈ ws, w.Plain)
    (hfits : List.Forall₂ (fun kind w => w.Fits kind) i.family.operands ws)
    (hencode : i.encode (ws.map Written.operand) = .ok bytes)
    (hend : a.code.endAddress + bytes.length ≤ 0x10000) :
    Quiet a (a.step line) ∧ (a.step line).code = a.code.append bytes := by
  obtain ⟨t, ts, hbody, -⟩ := List.map_eq_cons_iff.mp hwords
  obtain ⟨location, arguments, hread, hmeans⟩ := line.read_instruction hwords hlookup hplain hfits
  obtain ⟨os, hsettled, hemission⟩ :=
    emission_of_means hmeans hencode location a.symbols a.code.locationCounter
  have hexecute : a.execute a.code.locationCounter none (.instruction i location arguments) =
      (a.put ⟨os, bytes, [], true⟩ location, i.node location, os) := by
    simp only [execute, defineLabel, hemission]
  exact step_put hbody hread hexecute rfl rfl hsettled hend

end Assembly

/-! ### Directives -/

namespace SourceLine

variable {line : SourceLine} {s : String} {n : UInt16}

/-- The tokens of a directive with a number. -/
lemma exists_of_directive {kind : TokenKind} {name : String}
    (hwords : line.HasWords [(kind, name), (.number, s)]) :
    ∃ t u, line.body = [t, u] ∧ t.kind = kind ∧ u.word = (.number, s) := by
  obtain ⟨t, ts, hbody, hword, hts⟩ := List.map_eq_cons_iff.mp hwords
  obtain ⟨u, us, rfl, hword', hus⟩ := List.map_eq_cons_iff.mp hts
  obtain rfl := List.map_eq_nil_iff.mp hus
  exact ⟨t, u, hbody, congrArg Prod.fst hword, hword'⟩

lemma readValue_of_word {stop u : Token} (hword : u.word = (.number, s))
    (hnumber : Numeral.value? s.toList = some (n.toNat : Int)) :
    ∃ v : Value, v.IsNumber n ∧ Reader.readValue stop [u] = .ok (v, []) := by
  obtain ⟨hkind, rfl⟩ := Prod.ext_iff.mp hword
  exact Reader.readValue_number hkind hnumber (by simp)

/-- A data directive with a number is read as this number. -/
lemma read_data (cpu : Cpu) (hwords : line.HasWords [(.db, "DB"), (.number, s)])
    (hnumber : Numeral.value? s.toList = some (n.toNat : Int)) :
    ∃ location v, v.IsNumber n ∧
      line.read cpu = .accepted none (.data .byte location [.value v]) none := by
  obtain ⟨t, u, hbody, hkind, hword⟩ := exists_of_directive hwords
  obtain ⟨v, hv, hread⟩ := @readValue_of_word s n line.stop u hword hnumber
  have hlabel : Reader.readLabel line.body = (none, [t, u]) := by
    rw [hbody]
    exact Reader.readLabel_eq_none (Or.inl (by simp [hkind]))
  have hitem : Reader.readItem line.stop .byte [u] = .ok (.value v, []) := by
    have hstring : Reader.isStringItem .byte [u] = false := by
      simp [Reader.isStringItem, show u.kind = .number from congrArg Prod.fst hword]
    simp [Reader.readItem, hstring, hread, Except.map]
  have hitems := Reader.readItems_of_readItem hitem
  refine ⟨t.location, v, hv, ?_⟩
  simp only [SourceLine.read, hlabel, Reader.readStatement, hkind, Reader.readData, hitems,
    Reader.expectEnd, Reader.atEnd, if_true]

/-- A move of the location counter is read with its target. -/
lemma read_org (cpu : Cpu) (hwords : line.HasWords [(.org, "ORG"), (.number, s)])
    (hnumber : Numeral.value? s.toList = some (n.toNat : Int)) :
    ∃ location v, v.IsNumber n ∧ line.read cpu = .accepted none (.org location v) none := by
  obtain ⟨t, u, hbody, hkind, hword⟩ := exists_of_directive hwords
  obtain ⟨v, hv, hread⟩ := @readValue_of_word s n line.stop u hword hnumber
  have hlabel : Reader.readLabel line.body = (none, [t, u]) := by
    rw [hbody]
    exact Reader.readLabel_eq_none (Or.inl (by simp [hkind]))
  have honly : Reader.readOnlyValue line.stop [u] = .ok (v, []) := by
    rw [Reader.readOnlyValue, hread]
    rfl
  refine ⟨t.location, v, hv, ?_⟩
  simp only [SourceLine.read, hlabel, Reader.readStatement, hkind, honly]

end SourceLine

namespace Assembly

variable {a : Assembly} {line : SourceLine} {s : String} {n : UInt16}

/-- A data directive with a number below 256 puts one byte into the segment and does nothing
else. -/
lemma step_data (hwords : line.HasWords [(.db, "DB"), (.number, s)])
    (hnumber : Numeral.value? s.toList = some (n.toNat : Int)) (hlt : n.toNat < 256)
    (hend : a.code.endAddress + 1 ≤ 0x10000) :
    Quiet a (a.step line) ∧ (a.step line).code = a.code.append [n.toUInt8] := by
  obtain ⟨t, u, hbody, -⟩ := SourceLine.exists_of_directive hwords
  obtain ⟨location, v, hv, hread⟩ := line.read_data a.cpu hwords hnumber
  have hemissions : Item.emissions a.symbols a.code.locationCounter .byte 0 [.value v] =
      ⟨[{ node := v.node a.code.locationCounter .byte (some n) }], [n.toUInt8], [], true⟩ := by
    simp only [Item.emissions, Item.emission, Width.operandKind, hv.settle .byte hlt]
    rfl
  have hexecute : a.execute a.code.locationCounter none (.data .byte location [.value v]) =
      (a.put ⟨[{ node := v.node a.code.locationCounter .byte (some n) }], [n.toUInt8], [], true⟩
        location, Width.byte.directive location,
        [{ node := v.node a.code.locationCounter .byte (some n) }]) := by
    simp only [execute, defineLabel, hemissions]
  exact step_put hbody hread hexecute rfl rfl (by simp) hend

/-- A move of the location counter gives an empty segment its address and does nothing else. -/
lemma step_origin (hwords : line.HasWords [(.org, "ORG"), (.number, s)])
    (hnumber : Numeral.value? s.toList = some (n.toNat : Int)) (hsize : a.code.size = 0) :
    Quiet a (a.step line) ∧ (a.step line).code = { a.code with offset := n } := by
  obtain ⟨t, u, hbody, -⟩ := SourceLine.exists_of_directive hwords
  obtain ⟨location, v, hv, hread⟩ := line.read_org a.cpu hwords hnumber
  have hvalue : v.evaluate a.symbols a.code.locationCounter = (some n, []) := by
    have hfits : fits 16 n.toNat = true := fits_toNat n.toNat_lt
    simp only [Value.evaluate, hv.eval, hfits, if_true, wordOfInt_toNat]
  exact step_org hbody hread hvalue (moveTo_of_size_eq_zero v.location hsize)

end Assembly

end MicroAsm
