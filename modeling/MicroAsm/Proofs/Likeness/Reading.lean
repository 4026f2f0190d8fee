import MicroAsm.Proofs.Likeness.Basic
import MicroAsm.Proofs.Statement.Bare

/-!
# Reading lines that are alike

Every reader gives like results for like tokens, or fails on both in the same way: it asks for the
kinds of tokens, and for the values of those that are no names. So like lines are read alike.
-/

namespace MicroAsm

open List (Forall₂)

variable {L : Likeness}

lemma Token.Alike.shown {t t' : Token} (h : t.Alike L t') : L.SameText t.shown t'.shown := by
  intro hspelled
  rw [Token.shown, Token.shown, h.kind, h.name.text hspelled]

namespace Reader

/-- Something that was read and the tokens after it, both alike. -/
def RestAlike (L : Likeness) {α : Type} (P : α → α → Prop) (r r' : α × List Token) : Prop :=
  P r.1 r'.1 ∧ Forall₂ (Token.Alike L) r.2 r'.2

variable {stop stop' : Token} {ts ts' : List Token}

/-! ### Values -/

lemma alike_current (hstop : stop.Alike L stop') (h : Forall₂ (Token.Alike L) ts ts') :
    (current stop ts).Alike L (current stop' ts') := by
  cases h with
  | nil => exact hstop
  | cons h _ => exact h

lemma alike_missing (hstop : stop.Alike L stop') (h : Forall₂ (Token.Alike L) ts ts')
    (what : String) : (missing stop ts what).Alike L (missing stop' ts' what) := by
  have hcurrent := alike_current hstop h
  exact ⟨hcurrent.place,
    fun hspelled => congrArg (SyntaxFault.expected what) (hcurrent.shown hspelled)⟩

lemma atEnd_alike (h : Forall₂ (Token.Alike L) ts ts') : atEnd ts = atEnd ts' := by
  cases h with
  | nil => rfl
  | cons h _ => rw [atEnd, atEnd, h.kind]

lemma expectEnd_alike (hstop : stop.Alike L stop') (h : Forall₂ (Token.Alike L) ts ts') :
    Corresponds (Failure.Alike L) Eq (expectEnd stop ts) (expectEnd stop' ts') := by
  rw [expectEnd, expectEnd, atEnd_alike h]
  split
  · exact .ok rfl
  · exact .error (alike_missing hstop h _)

lemma readTerm_alike {t t' : Token} (h : t.Alike L t') :
    Corresponds (Failure.Alike L) (Term.Alike L) (readTerm t) (readTerm t') := by
  have hvalue : Failure.Alike L ⟨t.location, .expected "Value" t.shown⟩
      ⟨t'.location, .expected "Value" t'.shown⟩ :=
    ⟨h.place, fun hspelled => congrArg (SyntaxFault.expected _) (h.shown hspelled)⟩
  by_cases hname : t.kind = .identifier
  · simp only [readTerm, ← h.kind, hname]
    exact .ok (.symbol h.name)
  · -- All other tokens have the same value.
    have heq := h.value hname
    have hnumber : t.number? = t'.number? := by rw [Token.number?, Token.number?, h.kind, heq]
    simp only [readTerm, ← h.kind, ← heq, ← hnumber]
    split
    · split
      · exact .ok (.number _)
      · exact .error ⟨h.place, fun _ => rfl⟩
    · contradiction
    · exact .ok .locationCounter
    · split
      · exact .ok (.char _)
      · exact .error hvalue
    · exact .error hvalue

lemma sign?_alike {t t' : Token} (h : t.Alike L t') : sign? t = sign? t' := by
  rw [sign?, sign?, h.kind]

/-- Terms with their text and the tokens after them, all of them alike. -/
def TermsAlike (L : Likeness) (r r' : List SignedTerm × String × List Token) : Prop :=
  Forall₂ (SignedTerm.Alike L) r.1 r'.1 ∧ L.SameText r.2.1 r'.2.1 ∧
    Forall₂ (Token.Alike L) r.2.2 r'.2.2

lemma readTerms_alike (hstop : stop.Alike L stop') (negative : Bool)
    (h : Forall₂ (Token.Alike L) ts ts') :
    Corresponds (Failure.Alike L) (TermsAlike L) (readTerms stop negative ts)
      (readTerms stop' negative ts') := by
  fun_induction readTerms stop negative ts generalizing ts' with
  | case1 negative =>
    cases h
    exact .error (alike_missing hstop .nil _)
  | case2 negative t =>
    obtain _ | ⟨ht, ⟨⟩⟩ := h
    refine (readTerm_alike ht).map fun term term' hterm => ?_
    exact ⟨.cons ⟨rfl, hterm⟩ .nil, ht.name.text, .nil⟩
  | case3 negative t op rest f hread =>
    obtain _ | ⟨ht, _ | ⟨hop, hrest⟩⟩ := h
    obtain ⟨f', hread', hf⟩ := (readTerm_alike ht).of_error hread
    simp only [readTerms, hread']
    exact .error hf
  | case4 negative t op rest term hsign hread =>
    obtain _ | ⟨ht, _ | ⟨hop, hrest⟩⟩ := h
    obtain ⟨term', hread', hterm⟩ := (readTerm_alike ht).of_ok hread
    simp only [readTerms, hread', ← sign?_alike hop, hsign]
    exact .ok ⟨.cons ⟨rfl, hterm⟩ .nil, ht.name.text, .cons hop hrest⟩
  | case5 negative t op rest term next hsign hread ih =>
    obtain _ | ⟨ht, _ | ⟨hop, hrest⟩⟩ := h
    obtain ⟨term', hread', hterm⟩ := (readTerm_alike ht).of_ok hread
    simp only [readTerms, hread', ← sign?_alike hop, hsign]
    refine (ih hrest).map ?_
    rintro r r' ⟨hterms, htext, hleft⟩
    exact ⟨.cons ⟨rfl, hterm⟩ hterms, (ht.name.text.append hop.name.text).append htext, hleft⟩

lemma readValue_alike (hstop : stop.Alike L stop') (h : Forall₂ (Token.Alike L) ts ts') :
    Corresponds (Failure.Alike L) (RestAlike L (Value.Alike L)) (readValue stop ts)
      (readValue stop' ts') := by
  have hcurrent := alike_current hstop h
  have hsign : ts.head?.bind sign? = ts'.head?.bind sign? := by
    cases h with
    | nil => rfl
    | cons ht _ => exact sign?_alike ht
  have htail : Forall₂ (Token.Alike L) ts.tail ts'.tail := by
    cases h with
    | nil => exact .nil
    | cons _ hrest => exact hrest
  rw [readValue, readValue, ← hsign]
  cases ts.head?.bind sign? with
  | some negative =>
    refine (readTerms_alike hstop negative htail).map ?_
    rintro r r' ⟨hterms, htext, hleft⟩
    exact ⟨⟨hterms, hcurrent.name.text.append htext, hcurrent.place⟩, hleft⟩
  | none =>
    refine (readTerms_alike hstop false h).map ?_
    rintro r r' ⟨hterms, htext, hleft⟩
    exact ⟨⟨hterms, htext, hcurrent.place⟩, hleft⟩

lemma readOnlyValue_alike (hstop : stop.Alike L stop') (h : Forall₂ (Token.Alike L) ts ts') :
    Corresponds (Failure.Alike L) (RestAlike L (Value.Alike L)) (readOnlyValue stop ts)
      (readOnlyValue stop' ts') := by
  refine (readValue_alike hstop h).bind fun r r' hr => ?_
  exact (expectEnd_alike hstop hr.2).bind fun _ _ _ => .ok hr

/-! ### Items and operands -/

/-- What is read as a string has its value. -/
lemma isStringItem_alike (h : Forall₂ (Token.Alike L) ts ts') (width : Width) :
    isStringItem width ts = isStringItem width ts' ∧
      (isStringItem width ts = true → (current stop ts).value = (current stop' ts').value) := by
  cases width with
  | word => exact ⟨rfl, fun hstring => by cases hstring⟩
  | byte =>
    cases h with
    | nil => exact ⟨rfl, fun hstring => by cases hstring⟩
    | @cons t t' rest rest' ht hrest =>
      by_cases hkind : t.kind = .string
      · have hvalue := ht.value (by simp [hkind])
        refine ⟨?_, fun _ => hvalue⟩
        cases hrest with
        | nil => simp only [isStringItem, ht.kind, hvalue]
        | cons hu _ => simp only [isStringItem, ht.kind, hvalue, hu.kind]
      · have hkind' : t'.kind ≠ .string := ht.kind ▸ hkind
        refine ⟨?_, fun hstring => absurd hstring ?_⟩
        · simp [isStringItem, hkind, hkind']
        · simp [isStringItem, hkind]

lemma readItem_alike (hstop : stop.Alike L stop') (h : Forall₂ (Token.Alike L) ts ts')
    (width : Width) :
    Corresponds (Failure.Alike L) (RestAlike L (Item.Alike L)) (readItem stop width ts)
      (readItem stop' width ts') := by
  obtain ⟨hstring, hvalue⟩ := @isStringItem_alike L stop stop' ts ts' h width
  rw [readItem, readItem, ← hstring]
  split
  · rename_i htrue
    refine .ok ⟨.string (alike_current hstop h) (hvalue htrue), ?_⟩
    cases h with
    | nil => exact .nil
    | cons _ hrest => exact hrest
  · exact (readValue_alike hstop h).map fun r r' hr => ⟨.value hr.1, hr.2⟩

lemma readItems_alike (hstop : stop.Alike L stop') (h : Forall₂ (Token.Alike L) ts ts')
    (width : Width) :
    Forall₂ (Item.Alike L) (readItems stop width ts).1 (readItems stop' width ts').1 ∧
      Corresponds (Failure.Alike L) (Forall₂ (Token.Alike L)) (readItems stop width ts).2
        (readItems stop' width ts').2 := by
  fun_induction readItems stop width ts generalizing ts' with
  | case1 ts f hread =>
    obtain ⟨f', hread', hf⟩ := (readItem_alike hstop h width).of_error hread
    rw [readItems_eq, hread']
    exact ⟨.nil, .error hf⟩
  | case2 ts item comma rest hread hcomma hlt items result heq ih =>
    obtain ⟨⟨item', _⟩, hread', hitem, _ | ⟨hcomma', hrest⟩⟩ :=
      (readItem_alike hstop h width).of_ok hread
    have hih := ih hrest
    rw [heq] at hih
    simp only [readItems_eq stop' ts', hread', ← hcomma'.kind, hcomma, if_true]
    exact ⟨.cons hitem hih.1, hih.2⟩
  | case3 ts item comma rest hread hcomma =>
    obtain ⟨⟨item', _⟩, hread', hitem, _ | ⟨hcomma', hrest⟩⟩ :=
      (readItem_alike hstop h width).of_ok hread
    simp only [readItems_eq stop' ts', hread', ← hcomma'.kind, if_neg hcomma]
    exact ⟨.cons hitem .nil, .ok (.cons hcomma' hrest)⟩
  | case4 ts item hread =>
    obtain ⟨⟨item', _⟩, hread', hitem, ⟨⟩⟩ := (readItem_alike hstop h width).of_ok hread
    rw [readItems_eq, hread']
    exact ⟨.cons hitem .nil, .ok .nil⟩

lemma readArgument_alike (hstop : stop.Alike L stop') (h : Forall₂ (Token.Alike L) ts ts')
    (kind : OperandKind) :
    Corresponds (Failure.Alike L) (RestAlike L (Argument.Alike L)) (readArgument stop kind ts)
      (readArgument stop' kind ts') := by
  cases kind with
  | register | pair =>
    cases h with
    | nil => exact .error (alike_missing hstop .nil _)
    | cons ht hrest =>
      simp only [readArgument, ← ht.kind]
      split
      · exact .ok ⟨.register _ ht, hrest⟩
      · exact .error (alike_missing hstop (.cons ht hrest) _)
  | byte | word | address | restartCode =>
    exact (readValue_alike hstop h).map fun r r' hr => ⟨.value _ hr.1, hr.2⟩

lemma readArguments_alike (hstop : stop.Alike L stop') (h : Forall₂ (Token.Alike L) ts ts')
    (kinds : List OperandKind) :
    Forall₂ (Argument.Alike L) (readArguments stop kinds ts).1 (readArguments stop' kinds ts').1 ∧
      Corresponds (Failure.Alike L) (Forall₂ (Token.Alike L)) (readArguments stop kinds ts).2
        (readArguments stop' kinds ts').2 := by
  fun_induction readArguments stop kinds ts generalizing ts' with
  | case1 ts => exact ⟨.nil, .ok h⟩
  | case2 kind ts f hread =>
    obtain ⟨f', hread', hf⟩ := (readArgument_alike hstop h kind).of_error hread
    rw [readArguments, hread']
    exact ⟨.nil, .error hf⟩
  | case3 kind ts argument rest hread =>
    obtain ⟨r', hread', hargument, hrest⟩ := (readArgument_alike hstop h kind).of_ok hread
    rw [readArguments, hread']
    exact ⟨.cons hargument .nil, .ok hrest⟩
  | case4 kind kinds ts hkinds f hread =>
    obtain ⟨f', hread', hf⟩ := (readArgument_alike hstop h kind).of_error hread
    rw [readArguments.eq_3 _ _ _ _ hkinds, hread']
    exact ⟨.nil, .error hf⟩
  | case5 kind kinds ts hkinds argument comma rest hread hcomma arguments result heq ih =>
    obtain ⟨⟨argument', _⟩, hread', hargument, _ | ⟨hcomma', hrest⟩⟩ :=
      (readArgument_alike hstop h kind).of_ok hread
    have hih := ih hrest
    rw [heq] at hih
    simp only [readArguments.eq_3 _ _ _ _ hkinds, hread', ← hcomma'.kind, hcomma, if_true]
    exact ⟨.cons hargument hih.1, hih.2⟩
  | case6 kind kinds ts hkinds argument comma rest hread hcomma =>
    obtain ⟨⟨argument', _⟩, hread', hargument, _ | ⟨hcomma', hrest⟩⟩ :=
      (readArgument_alike hstop h kind).of_ok hread
    simp only [readArguments.eq_3 _ _ _ _ hkinds, hread', ← hcomma'.kind, if_neg hcomma]
    exact ⟨.cons hargument .nil, .error (alike_missing hstop (.cons hcomma' hrest) _)⟩
  | case7 kind kinds ts hkinds argument hread =>
    obtain ⟨⟨argument', _⟩, hread', hargument, ⟨⟩⟩ :=
      (readArgument_alike hstop h kind).of_ok hread
    rw [readArguments.eq_3 _ _ _ _ hkinds, hread']
    exact ⟨.cons hargument .nil, .error (alike_missing hstop .nil _)⟩

/-! ### Statements -/

/-- What was read of statements that could not be read. -/
def BrokenAlike (L : Likeness) (r r' : Fragment × Failure) : Prop :=
  r.1.Alike L r'.1 ∧ r.2.Alike L r'.2

/-- Both statements were read alike, or what was read of them is alike. -/
def StatementAlike (L : Likeness) : StatementResult → StatementResult → Prop :=
  Corresponds (BrokenAlike L) (RestAlike L (Statement.Alike L))

variable {l l' : Location}

/-- Statements that were read alike are both over, or both are not. -/
lemma expectEnd_statementAlike (hstop : stop.Alike L stop') (h : Forall₂ (Token.Alike L) ts ts')
    {statement statement' : Statement} {fragment fragment' : Fragment}
    (hstatement : statement.Alike L statement') (hfragment : fragment.Alike L fragment') :
    StatementAlike L
      (match expectEnd stop ts with
        | .ok () => .ok (statement, ts)
        | .error f => .error (fragment, f))
      (match expectEnd stop' ts' with
        | .ok () => .ok (statement', ts')
        | .error f => .error (fragment', f)) := by
  cases hend : expectEnd stop ts with
  | error f =>
    obtain ⟨f', hend', hf⟩ := (expectEnd_alike hstop h).of_error hend
    rw [hend']
    exact .error ⟨hfragment, hf⟩
  | ok _ =>
    obtain ⟨_, hend', -⟩ := (expectEnd_alike hstop h).of_ok hend
    rw [hend']
    exact .ok ⟨hstatement, h⟩

/-- A directive with one expression. -/
lemma directive_statementAlike (hstop : stop.Alike L stop') (h : Forall₂ (Token.Alike L) ts ts')
    {statement statement' : Value → Statement} {fragment fragment' : Fragment}
    (hstatement : ∀ v v', Value.Alike L v v' → (statement v).Alike L (statement' v'))
    (hfragment : fragment.Alike L fragment') :
    StatementAlike L
      (match readOnlyValue stop ts with
        | .ok (v, rest) => .ok (statement v, rest)
        | .error f => .error (fragment, f))
      (match readOnlyValue stop' ts' with
        | .ok (v, rest) => .ok (statement' v, rest)
        | .error f => .error (fragment', f)) := by
  cases hread : readOnlyValue stop ts with
  | error f =>
    obtain ⟨f', hread', hf⟩ := (readOnlyValue_alike hstop h).of_error hread
    rw [hread']
    exact .error ⟨hfragment, hf⟩
  | ok r =>
    obtain ⟨r', hread', hr⟩ := (readOnlyValue_alike hstop h).of_ok hread
    rw [hread']
    exact .ok ⟨hstatement _ _ hr.1, hr.2⟩

lemma readCpu_alike (hstop : stop.Alike L stop') (h : Forall₂ (Token.Alike L) ts ts')
    (hplace : L.place l l') : StatementAlike L (readCpu stop l ts) (readCpu stop' l' ts') := by
  cases h with
  | nil => exact .error ⟨.nothing, alike_missing hstop .nil _⟩
  | cons ht hrest =>
    simp only [readCpu, ← ht.kind]
    split
    · exact expectEnd_statementAlike hstop hrest (.cpu hplace ht) .nothing
    · exact .error ⟨.nothing, alike_missing hstop (.cons ht hrest) _⟩

lemma readData_alike (hstop : stop.Alike L stop') (h : Forall₂ (Token.Alike L) ts ts')
    (width : Width) (hplace : L.place l l') :
    StatementAlike L (readData stop width l ts) (readData stop' width l' ts') := by
  obtain ⟨hitems, hresult⟩ := readItems_alike hstop h width
  rw [readData, readData]
  cases hread : (readItems stop width ts).2 with
  | error f =>
    obtain ⟨f', hread', hf⟩ := hresult.of_error hread
    simp only [hread, hread']
    exact .error ⟨.data width hplace hitems, hf⟩
  | ok rest =>
    obtain ⟨rest', hread', hrest⟩ := hresult.of_ok hread
    simp only [hread, hread']
    exact expectEnd_statementAlike hstop hrest (.data width hplace hitems)
      (.data width hplace hitems)

lemma readInstruction_alike (hstop : stop.Alike L stop') (h : Forall₂ (Token.Alike L) ts ts')
    (i : Instruction) (hplace : L.place l l') :
    StatementAlike L (readInstruction stop i l ts) (readInstruction stop' i l' ts') := by
  obtain ⟨harguments, hresult⟩ := readArguments_alike hstop h i.family.operands
  rw [readInstruction, readInstruction]
  cases hread : (readArguments stop i.family.operands ts).2 with
  | error f =>
    obtain ⟨f', hread', hf⟩ := hresult.of_error hread
    simp only [hread, hread']
    exact .error ⟨.instruction i hplace harguments, hf⟩
  | ok rest =>
    obtain ⟨rest', hread', hrest⟩ := hresult.of_ok hread
    simp only [hread, hread']
    exact expectEnd_statementAlike hstop hrest (.instruction i hplace harguments)
      (.instruction i hplace harguments)

lemma readStatement_alike (cpu : Cpu) (hstop : stop.Alike L stop')
    (h : Forall₂ (Token.Alike L) ts ts') :
    StatementAlike L (readStatement cpu stop ts) (readStatement cpu stop' ts') := by
  cases h with
  | nil => exact .ok ⟨.empty hstop.place, .nil⟩
  | @cons t t' rest rest' ht hrest =>
    have hall : Forall₂ (Token.Alike L) (t :: rest) (t' :: rest') := .cons ht hrest
    have hopcode : StatementAlike L (.error (.nothing, missing stop (t :: rest) "Opcode"))
        (.error (.nothing, missing stop' (t' :: rest') "Opcode")) :=
      .error ⟨.nothing, alike_missing hstop hall _⟩
    simp only [readStatement, ← ht.kind]
    split
    · exact .ok ⟨.empty ht.place, hall⟩
    · exact directive_statementAlike hstop hrest (fun _ _ hv => .assign _ ht.place hv)
        (.assign _ ht.place)
    · exact directive_statementAlike hstop hrest (fun _ _ hv => .assign _ ht.place hv)
        (.assign _ ht.place)
    · exact directive_statementAlike hstop hrest (fun _ _ hv => .org ht.place hv) (.org ht.place)
    · exact readCpu_alike hstop hrest ht.place
    · exact expectEnd_statementAlike hstop hrest (.endUnit ht.place) .nothing
    · exact readData_alike hstop hrest _ ht.place
    · exact readData_alike hstop hrest _ ht.place
    · rw [← ht.name.lookup cpu]
      split
      · exact readInstruction_alike hstop hrest _ ht.place
      · exact hopcode
      · refine .error ⟨.nothing, ht.place, fun hspelled => ?_⟩
        exact congrArg SyntaxFault.unknownMnemonic (ht.name.text hspelled)
    · exact hopcode

lemma readLabel_alike (h : Forall₂ (Token.Alike L) ts ts') :
    Option.Rel (Token.Alike L) (readLabel ts).1 (readLabel ts').1 ∧
      Forall₂ (Token.Alike L) (readLabel ts).2 (readLabel ts').2 := by
  cases h with
  | nil => exact ⟨.none, .nil⟩
  | cons ht hrest =>
    cases hrest with
    | nil => exact ⟨.none, .cons ht .nil⟩
    | cons hu hrest =>
      simp only [readLabel, ← ht.kind, ← hu.kind]
      split
      · split
        · exact ⟨.some ht, hrest⟩
        · exact ⟨.some ht, .cons hu hrest⟩
        · exact ⟨.some ht, .cons hu hrest⟩
        · exact ⟨.none, .cons ht (.cons hu hrest)⟩
      · exact ⟨.none, .cons ht (.cons hu hrest)⟩

end Reader

/-- Lines that are alike are read alike. -/
lemma SourceLine.read_alike (cpu : Cpu) {line line' : SourceLine} (h : line.Alike L line') :
    (line.read cpu).Alike L (line'.read cpu) := by
  obtain ⟨hlabel, hrest⟩ := Reader.readLabel_alike h.body
  have hread := Reader.readStatement_alike cpu h.stop hrest
  rw [read, read]
  cases hstatement : Reader.readStatement cpu line.stop (Reader.readLabel line.body).2 with
  | error e =>
    obtain ⟨e', hstatement', he⟩ := hread.of_error hstatement
    simp only [hstatement, hstatement']
    exact .rejected hlabel he.1 he.2
  | ok r =>
    obtain ⟨⟨statement', _⟩, hstatement', hstatementAlike, hleft⟩ := hread.of_ok hstatement
    obtain ⟨statement, _ | ⟨t, _ | ⟨u, rest⟩⟩⟩ := r
    · obtain ⟨⟩ := hleft
      simp only [hstatement, hstatement']
      exact .accepted hlabel hstatementAlike .none
    · obtain _ | ⟨ht, ⟨⟩⟩ := hleft
      simp only [hstatement, hstatement']
      exact .accepted hlabel hstatementAlike (.some ht)
    · obtain _ | ⟨ht, _ | ⟨hu, hleft⟩⟩ := hleft
      simp only [hstatement, hstatement']
      exact .rejected hlabel .nothing (Reader.alike_missing h.stop (.cons hu hleft) _)

end MicroAsm
