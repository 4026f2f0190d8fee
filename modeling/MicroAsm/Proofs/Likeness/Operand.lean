import MicroAsm.Proofs.Likeness.Basic
import MicroAsm.Proofs.Symbol

/-!
# Operands that are alike

Like values come to the same words under like symbols, and like operands to like nodes, the same
bytes and like complaints. What is not the same is only ever a name or a place.
-/

namespace MicroAsm

open List (Forall₂)

variable {L : Likeness}

/-! ### Symbols -/

namespace SymbolTable.Alike

variable {t t' : SymbolTable}

lemma lookup (h : t.Alike L t') (key : String) :
    Option.Rel (Symbol.Alike L) (t.entries.lookup key) (t'.entries.lookup key) := by
  obtain ⟨entries⟩ := t
  obtain ⟨entries'⟩ := t'
  change Forall₂ _ entries entries' at h
  induction h with
  | nil => exact .none
  | @cons entry entry' rest rest' hentry _ ih =>
    obtain ⟨key', s⟩ := entry
    obtain ⟨_, s'⟩ := entry'
    obtain ⟨rfl, hsymbol⟩ := hentry
    simp only [List.lookup_cons]
    split
    · exact .some hsymbol
    · exact ih

lemma get? (h : t.Alike L t') {name name' : String} (hname : L.SameName name name') :
    Option.Rel (Symbol.Alike L) (t.get? name) (t'.get? name') := by
  rw [SymbolTable.get?, SymbolTable.get?, hname.upper]
  exact h.lookup _

lemma insert (h : t.Alike L t') {s s' : Symbol} (hs : s.Alike L s') :
    (t.insert s).Alike L (t'.insert s') := by
  obtain ⟨entries⟩ := t
  obtain ⟨entries'⟩ := t'
  rw [SymbolTable.insert, SymbolTable.insert, ← hs.name.upper]
  change Forall₂ _ entries entries' at h
  change Forall₂ _ (place _ s entries) (place _ s' entries')
  induction h with
  | nil => exact .cons ⟨rfl, hs⟩ .nil
  | @cons entry entry' rest rest' hentry hrest ih =>
    simp only [place, ← hentry.1]
    split
    · exact .cons ⟨rfl, hs⟩ hrest
    · split
      · exact .cons ⟨rfl, hs⟩ (.cons hentry hrest)
      · exact .cons hentry ih

end SymbolTable.Alike

/-- Complaints about like names. -/
def SymbolError.Alike (L : Likeness) (e e' : SymbolError) : Prop :=
  L.SameText e.text e'.text

namespace SymbolTable

variable {t t' : SymbolTable} {name name' : String}

lemma add_alike (h : t.Alike L t') (hname : L.SameName name name') (value : UInt16)
    (kind : SymbolKind) :
    Corresponds (SymbolError.Alike L) (SymbolTable.Alike L) (t.add name value kind)
      (t'.add name' value kind) := by
  rw [add, add]
  cases hsymbol : t.get? name with
  | none =>
    rw [(h.get? hname).of_none hsymbol]
    exact .ok (h.insert ⟨hname, rfl, rfl⟩)
  | some s =>
    obtain ⟨s', hsymbol', -⟩ := (h.get? hname).of_some hsymbol
    rw [hsymbol']
    exact .error ((Likeness.SameText.refl _).append hname.text)

lemma assign_alike (h : t.Alike L t') (hname : L.SameName name name') (value : UInt16) :
    Corresponds (SymbolError.Alike L) (SymbolTable.Alike L) (t.assign name value)
      (t'.assign name' value) := by
  rw [assign, assign]
  cases hsymbol : t.get? name with
  | none =>
    rw [(h.get? hname).of_none hsymbol]
    exact .ok (h.insert ⟨hname, rfl, rfl⟩)
  | some s =>
    obtain ⟨s', hsymbol', hs⟩ := (h.get? hname).of_some hsymbol
    simp only [hsymbol', ← hs.kind]
    split
    · exact .ok (h.insert ⟨hs.name, rfl, rfl⟩)
    · exact .error ((Likeness.SameText.refl _).append hname.text)

end SymbolTable

/-! ### Expressions -/

variable {symbols symbols' : SymbolTable} {here : UInt16}

lemma Term.eval_alike (hsymbols : symbols.Alike L symbols') {t t' : Term} (h : t.Alike L t') :
    Corresponds L.SameName Eq (t.eval symbols here) (t'.eval symbols' here) := by
  cases h with
  | number n | locationCounter | char c => exact .ok rfl
  | @symbol name name' hname =>
    rw [eval, eval]
    cases hsymbol : symbols.get? name with
    | none =>
      rw [(hsymbols.get? hname).of_none hsymbol]
      exact .error hname
    | some s =>
      obtain ⟨s', hsymbol', hs⟩ := (hsymbols.get? hname).of_some hsymbol
      rw [hsymbol']
      exact .ok (by rw [hs.value])

namespace Expr.Alike

variable {e e' : Expr}

/-- Like expressions have the same value, or need like names. -/
lemma eval (h : e.Alike L e') (hsymbols : symbols.Alike L symbols') (here : UInt16) :
    Corresponds L.SameName Eq (e.eval symbols here) (e'.eval symbols' here) := by
  obtain ⟨terms⟩ := e
  obtain ⟨terms'⟩ := e'
  change Forall₂ _ terms terms' at h
  rw [Expr.eval, Expr.eval]
  generalize (0 : Int) = sum
  induction h generalizing sum with
  | nil => exact .ok rfl
  | @cons t t' terms terms' ht _ ih =>
    rw [List.foldlM_cons, List.foldlM_cons]
    refine Corresponds.bind (P := Eq) ?_ ?_
    · refine (Term.eval_alike hsymbols ht.term).map ?_
      rintro v _ rfl
      rw [ht.negative]
    · rintro n _ rfl
      exact ih n

/-- What shows of the shape of an expression. -/
lemma shape (h : e.Alike L e') :
    e.literal? = e'.literal? ∧ e.isLocationCounter = e'.isLocationCounter ∧
      e.symbol?.isSome = e'.symbol?.isSome := by
  obtain ⟨terms⟩ := e
  obtain ⟨terms'⟩ := e'
  change Forall₂ _ terms terms' at h
  cases h with
  | nil => exact ⟨rfl, rfl, rfl⟩
  | @cons t t' rest rest' ht hrest =>
    obtain ⟨negative, term⟩ := t
    obtain ⟨negative', term'⟩ := t'
    obtain ⟨hnegative, hterm⟩ := ht
    change negative = negative' at hnegative
    change term.Alike L term' at hterm
    cases hrest with
    | nil => cases hterm <;> cases hnegative <;> cases negative <;> exact ⟨rfl, rfl, rfl⟩
    | cons _ _ => simp [literal?, isLocationCounter, symbol?]

lemma nodeKind (h : e.Alike L e') (here : UInt16) (kind : OperandKind) (value : Option UInt16) :
    (e.nodeKind here kind value).Alike L (e'.nodeKind here kind value) := by
  obtain ⟨hliteral, hcounter, hsymbol⟩ := h.shape
  simp only [Expr.nodeKind, ← hliteral, ← hcounter, ← hsymbol]
  split
  · exact .same _
  · split
    · exact .same _
    · split
      · exact .same _
      · exact .expression h

end Expr.Alike

/-! ### Complaints -/

lemma outOfRange_alike (bits : Nat) (v : Int) {l l' : Location} (hplace : L.place l l') :
    (outOfRange bits v l).Alike L (outOfRange bits v l') :=
  ⟨rfl, hplace, .refl _⟩

lemma undefinedSymbol_alike {name name' : String} (hname : L.SameName name name')
    {l l' : Location} (hplace : L.place l l') :
    (undefinedSymbol name l).Alike L (undefinedSymbol name' l') :=
  ⟨rfl, hplace, (Likeness.SameText.refl _).append hname.text⟩

lemma checkRange_alike (bits : Nat) (v : Int) {l l' : Location} (hplace : L.place l l') :
    (checkRange bits v l).1 = (checkRange bits v l').1 ∧
      Forall₂ (Message.Alike L) (checkRange bits v l).2 (checkRange bits v l').2 := by
  rw [checkRange, checkRange]
  split
  · exact ⟨rfl, .nil⟩
  · exact ⟨rfl, .cons (outOfRange_alike bits v hplace) .nil⟩

/-! ### Values -/

namespace Value.Alike

variable {v v' : Value}

lemma node (h : v.Alike L v') (here : UInt16) (kind : OperandKind) (value : Option UInt16) :
    (v.node here kind value).Alike L (v'.node here kind value) :=
  ⟨h.expr.nodeKind here kind value, h.text, h.place⟩

lemma evaluate (h : v.Alike L v') (hsymbols : symbols.Alike L symbols') (here : UInt16) :
    (v.evaluate symbols here).1 = (v'.evaluate symbols' here).1 ∧
      Forall₂ (Message.Alike L) (v.evaluate symbols here).2 (v'.evaluate symbols' here).2 := by
  rw [Value.evaluate, Value.evaluate]
  cases heval : v.expr.eval symbols here with
  | error name =>
    obtain ⟨name', heval', hname⟩ := (h.expr.eval hsymbols here).of_error heval
    rw [heval']
    exact ⟨rfl, .cons (undefinedSymbol_alike hname h.place) .nil⟩
  | ok n =>
    obtain ⟨_, heval', rfl⟩ := (h.expr.eval hsymbols here).of_ok heval
    simp only [heval']
    split
    · exact ⟨rfl, .nil⟩
    · exact ⟨rfl, .cons (outOfRange_alike 16 n h.place) .nil⟩

end Value.Alike

structure SettledValue.Alike (L : Likeness) (s s' : SettledValue) : Prop where
  node : s.node.Alike L s'.node
  word : s.word = s'.word
  waiting : Option.Rel (Expr.Alike L) s.waiting s'.waiting
  messages : Forall₂ (Message.Alike L) s.messages s'.messages

lemma Value.Alike.settle {v v' : Value} (h : v.Alike L v') (hsymbols : symbols.Alike L symbols')
    (here : UInt16) (kind : OperandKind) :
    (v.settle symbols here kind).Alike L (v'.settle symbols' here kind) := by
  rw [Value.settle, Value.settle]
  cases heval : v.expr.eval symbols here with
  | error name =>
    obtain ⟨name', heval', -⟩ := (h.expr.eval hsymbols here).of_error heval
    rw [heval']
    exact ⟨h.node here kind none, rfl, .some h.expr, .nil⟩
  | ok n =>
    obtain ⟨_, heval', rfl⟩ := (h.expr.eval hsymbols here).of_ok heval
    obtain ⟨hword, hmessages⟩ := checkRange_alike kind.width.bits n h.place
    rw [heval']
    simp only [← hword]
    exact ⟨h.node here kind _, rfl, .none, hmessages⟩

/-! ### Operands of instructions -/

inductive Operand.Alike (L : Likeness) : Operand → Operand → Prop
  | register {name name' : String} (h : L.SameName name name') :
    Alike L (.register name) (.register name')
  | value (v : Int) : Alike L (.value v) (.value v)

structure Settled.Alike (L : Likeness) (s s' : Settled) : Prop where
  node : s.node.Alike L s'.node
  operand : s.operand.Alike L s'.operand
  waiting : Option.Rel (fun w w' => w.1 = w'.1 ∧ w.2.Alike L w'.2) s.waiting s'.waiting
  usable : s.usable = s'.usable
  messages : Forall₂ (Message.Alike L) s.messages s'.messages

lemma settleRegister_alike (kind : OperandKind) {t t' : Token} (h : t.Alike L t') :
    (settleRegister kind t).Alike L (settleRegister kind t') := by
  have hregister : registerCode? t.value = registerCode? t'.value := h.name.codeIn? _
  have hpair : pairCode? t.value = pairCode? t'.value := by
    rw [pairCode?, pairCode?, h.name.codeIn?]
  simp only [settleRegister, hregister, hpair]
  exact ⟨⟨.same _, h.name.text, h.place⟩, .register h.name, .none, rfl, .nil⟩

lemma settleRestart_alike (hsymbols : symbols.Alike L symbols') (here : UInt16) {v v' : Value}
    (h : v.Alike L v') :
    (settleRestart symbols here v).Alike L (settleRestart symbols' here v') := by
  rw [settleRestart, settleRestart]
  cases heval : v.expr.eval symbols here with
  | error name =>
    obtain ⟨name', heval', hname⟩ := (h.expr.eval hsymbols here).of_error heval
    rw [heval']
    exact ⟨⟨.same _, h.text, h.place⟩, .value 0, .none, rfl,
      .cons (undefinedSymbol_alike hname h.place) .nil⟩
  | ok n =>
    obtain ⟨_, heval', rfl⟩ := (h.expr.eval hsymbols here).of_ok heval
    rw [heval']
    exact ⟨⟨.same _, h.text, h.place⟩, .value n, .none, rfl, .nil⟩

lemma Argument.Alike.settle {a a' : Argument} (h : a.Alike L a')
    (hsymbols : symbols.Alike L symbols') (here : UInt16) :
    (a.settle symbols here).Alike L (a'.settle symbols' here) := by
  cases h with
  | register kind ht => exact settleRegister_alike kind ht
  | value kind hv =>
    cases kind with
    | restartCode => exact settleRestart_alike hsymbols here hv
    | register | pair | byte | word | address =>
      have hs := fun kind => hv.settle hsymbols here kind
      simp only [Argument.settle, (hs _).word]
      exact ⟨(hs _).node, .value _, (hs _).waiting.map fun _ _ he => ⟨rfl, he⟩, rfl,
        (hs _).messages⟩

namespace Operand.Alike

variable {o o' : Operand} {family : Family} {position : Nat}

lemma registerCode (h : o.Alike L o') (fault : String → EncodingFault) :
    o.registerCode family position fault = o'.registerCode family position fault := by
  cases h with
  | register hname =>
    simp only [Operand.registerCode, registerCode?, hname.codeIn?, hname.upper]
  | value v => rfl

lemma pairCode (h : o.Alike L o') (pairs : PairSet) :
    o.pairCode family position pairs = o'.pairCode family position pairs := by
  cases h with
  | register hname => simp only [Operand.pairCode, PairSet.code?, hname.codeIn?, hname.upper]
  | value v => rfl

lemma word (h : o.Alike L o') (bits : Nat) :
    o.word family position bits = o'.word family position bits := by
  cases h <;> rfl

lemma restartCode (h : o.Alike L o') :
    o.restartCode family position = o'.restartCode family position := by
  cases h <;> rfl

end Operand.Alike

/-- Names in letters of any case are encoded the same. -/
lemma Instruction.encode_alike (i : Instruction) {os os' : List Operand}
    (h : Forall₂ (Operand.Alike L) os os') : i.encode os = i.encode os' := by
  cases h with
  | nil => rfl
  | cons ho hrest =>
    cases hrest with
    | nil =>
      cases hfamily : i.family <;>
        simp only [encode, hfamily, ho.registerCode, ho.pairCode, ho.word, ho.restartCode]
    | cons ho' hrest =>
      cases hrest with
      | nil =>
        cases hfamily : i.family <;>
          simp only [encode, hfamily, ho.registerCode, ho.pairCode, ho'.registerCode, ho'.word]
      | cons _ _ => cases hfamily : i.family <;> simp only [encode, hfamily]

/-! ### Emissions -/

structure Emission.Alike (L : Likeness) (e e' : Emission) : Prop where
  operands : Forall₂ (OperandNode.Alike L) e.operands e'.operands
  bytes : e.bytes = e'.bytes
  messages : Forall₂ (Message.Alike L) e.messages e'.messages
  emits : e.emits = e'.emits

lemma NodeKind.Alike.invalidated {kind kind' : NodeKind} (h : kind.Alike L kind') :
    kind.invalidated.Alike L kind'.invalidated := by
  cases h with
  | same kind => exact .same _
  | expression he => exact .expression he

lemma invalidate_alike (position : Option Nat) {os os' : List OperandNode}
    (h : Forall₂ (OperandNode.Alike L) os os') :
    Forall₂ (OperandNode.Alike L) (invalidate position os) (invalidate position os') := by
  cases position with
  | none => exact h
  | some i =>
    simp only [invalidate]
    induction h generalizing i with
    | nil =>
      rw [List.modify_nil]
      exact .nil
    | cons ho hrest ih =>
      cases i with
      | zero =>
        exact .cons ⟨⟨ho.node.kind.invalidated, ho.node.text, ho.node.place⟩, ho.deferred⟩ hrest
      | succ i => exact .cons ho (ih i)

lemma EncodingError.location_alike (e : EncodingError) {os os' : List Settled}
    (h : Forall₂ (Settled.Alike L) os os') {l l' : Location} (hplace : L.place l l') :
    L.place (e.location os l) (e.location os' l') := by
  rw [location, location]
  cases e.operand with
  | none => exact hplace
  | some i =>
    have hi := rel_getElem? h i
    simp only [Option.bind_some]
    cases hs : os[i]? with
    | none =>
      rw [hi.of_none hs]
      exact hplace
    | some s =>
      obtain ⟨s', hs', halike⟩ := hi.of_some hs
      rw [hs']
      exact halike.node.place

lemma Instruction.emission_alike (i : Instruction) {l l' : Location} (hplace : L.place l l')
    {os os' : List Settled} (h : Forall₂ (Settled.Alike L) os os') :
    (i.emission l os).Alike L (i.emission l' os') := by
  have hmessages : Forall₂ (Message.Alike L) (os.flatMap Settled.messages)
      (os'.flatMap Settled.messages) := List.rel_flatMap h fun _ _ hs => hs.messages
  have hnodes : Forall₂ (OperandNode.Alike L) (os.map fun o => ⟨o.node, none⟩)
      (os'.map fun o => ⟨o.node, none⟩) := List.rel_map (fun _ _ hs => ⟨hs.node, .none⟩) h
  have hoperands : Forall₂ (Operand.Alike L) (os.map Settled.operand) (os'.map Settled.operand) :=
    List.rel_map (fun _ _ hs => hs.operand) h
  have husable : os.all Settled.usable = os'.all Settled.usable := by
    clear hmessages hnodes hoperands
    induction h with
    | nil => rfl
    | cons hs _ ih => rw [List.all_cons, List.all_cons, hs.usable, ih]
  rw [emission, emission, ← husable, ← i.encode_alike hoperands]
  split
  · split
    · refine ⟨List.rel_map (fun _ _ hs => ⟨hs.node, hs.waiting.map ?_⟩) h, rfl, hmessages, rfl⟩
      exact fun _ _ hw => ⟨rfl, hw.1, hw.2⟩
    · rename_i e _
      refine ⟨invalidate_alike _ hnodes, rfl, List.rel_append hmessages (.cons ?_ .nil), rfl⟩
      exact ⟨rfl, e.location_alike h hplace, .refl _⟩
  · exact ⟨hnodes, rfl, hmessages, rfl⟩

lemma stringEmission_alike {t t' : Token} (h : t.Alike L t') (text : String) (cs : List Char) :
    (stringEmission t text cs).Alike L (stringEmission t' text cs) := by
  induction cs generalizing text with
  | nil => exact ⟨.nil, rfl, .nil, rfl⟩
  | cons c cs ih =>
    obtain ⟨hword, hmessages⟩ := checkRange_alike 8 c.toNat h.place
    have hrest := ih ""
    simp only [stringEmission, ← hword]
    exact ⟨.cons ⟨⟨.same _, .refl _, h.place⟩, .none⟩ hrest.operands, by rw [hrest.bytes],
      List.rel_append hmessages hrest.messages, rfl⟩

lemma Item.Alike.emission {item item' : Item} (h : item.Alike L item')
    (hsymbols : symbols.Alike L symbols') (here : UInt16) (width : Width) (offset : Nat) :
    (item.emission symbols here width offset).Alike L
      (item'.emission symbols' here width offset) := by
  cases h with
  | @string t t' ht hvalue =>
    have hbody : stringBody t = stringBody t' := by rw [stringBody, stringBody, hvalue]
    rw [Item.emission, Item.emission, ← hvalue, ← hbody]
    exact stringEmission_alike ht _ _
  | value hv =>
    have hs := hv.settle hsymbols here width.operandKind
    simp only [Item.emission, hs.word]
    exact ⟨.cons ⟨hs.node, hs.waiting.map fun _ _ he => ⟨rfl, rfl, he⟩⟩ .nil, rfl, hs.messages, rfl⟩

lemma Item.emissions_alike {items items' : List Item} (h : Forall₂ (Item.Alike L) items items')
    (hsymbols : symbols.Alike L symbols') (here : UInt16) (width : Width) (offset : Nat) :
    (Item.emissions symbols here width offset items).Alike L
      (Item.emissions symbols' here width offset items') := by
  induction h generalizing offset with
  | nil => exact ⟨.nil, rfl, .nil, rfl⟩
  | @cons item item' items items' hitem _ ih =>
    have hfirst := hitem.emission hsymbols here width offset
    have hrest := ih (offset + (item.emission symbols here width offset).bytes.length)
    simp only [emissions, ← hfirst.bytes]
    exact ⟨List.rel_append hfirst.operands hrest.operands, by rw [hrest.bytes],
      List.rel_append hfirst.messages hrest.messages, rfl⟩

end MicroAsm
