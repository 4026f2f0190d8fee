import MicroAsm.Proofs.Statement.Failing
import MicroAsm.Proofs.Statement.Reading
import MicroAsm.Proofs.Text.Row
import MicroAsm.Proofs.Token.Lossless

/-!
# What is read comes from the source

The places and the names in what is read of a line are those of its tokens, and so are the place and
the text of the failure of a line that cannot be read. A token stays on its line, so none of these
texts has a line break in it.
-/

namespace MicroAsm

/-! ### Tokens -/

/-- A token that does not end a line stays on its line. -/
lemma Scanner.oneRow_nextToken {s : Scanner} (h : s.nextToken.1.kind.endsLine = false) :
    Text.OneRow s.nextToken.1.value := by
  have hvalue : s.nextToken.1.value = Lexeme.value s.nextToken.1.kind
      (s.skipGap.rest.take (Lexeme.measure s.skipGap.rest).2) := rfl
  have hkind : s.nextToken.1.kind = (Lexeme.measure s.skipGap.rest).1 := rfl
  have hline : ∀ c ∈ s.skipGap.rest.take (Lexeme.measure s.skipGap.rest).2,
      Lexeme.onLine c = true := by
    rcases Lexeme.measure_cases s.skipGap.rest with
      ⟨-, heq⟩ | ⟨lexeme, rest, -, heq, -⟩ | ⟨c, rest, hrest, hc, heq⟩
    · rw [hkind, heq] at h
      cases h
    · rw [hkind, heq] at h
      cases h
    · rw [heq, hrest]
      exact Lexeme.onLine_ofFirst hc rest
  have hnewline : '\n' ∉ s.skipGap.rest.take (Lexeme.measure s.skipGap.rest).2 := by
    intro hmem
    cases hline _ hmem
  rw [hvalue, Lexeme.value.eq_def, Text.OneRow]
  split
  · rw [String.toList_ofList]
    exact fun hmem => hnewline (List.mem_of_mem_tail hmem)
  · rename_i heq
    rw [heq] at h
    cases h
  · rw [String.toList_ofList]
    exact hnewline

/-- The tokens that do not end a line stay on theirs. -/
lemma Scanner.oneRow_allTokens (s : Scanner) :
    ∀ t ∈ s.allTokens, t.kind.endsLine = false → Text.OneRow t.value := by
  refine tokens_rec (P := fun s => ∀ t ∈ s.allTokens, t.kind.endsLine = false →
    Text.OneRow t.value) ?_ ?_ s
  · intro s hkind
    rw [allTokens, tokens_of_eq hkind, List.nil_append, List.forall_mem_singleton]
    exact oneRow_nextToken
  · intro s hkind ih
    rw [allTokens, tokens_of_ne hkind, List.cons_append, List.forall_mem_cons]
    exact ⟨oneRow_nextToken, ih⟩

section

variable {S : Location → Prop}

/-- A word of the source: its place is one of the given ones, and it stays on its line. -/
def Token.Word (S : Location → Prop) (t : Token) : Prop :=
  S t.location ∧ Text.OneRow t.value

/-- The end of a line at one of the given places. -/
def Token.Stop (S : Location → Prop) (t : Token) : Prop :=
  S t.location ∧ t.kind.endsLine = true

/-- The tokens of a line are at the given places. -/
structure SourceLine.Within (S : Location → Prop) (line : SourceLine) : Prop where
  body : ∀ t ∈ line.body, t.Word S
  stop : line.stop.Stop S

lemma TokenKind.oneRow_name (kind : TokenKind) : Text.OneRow kind.name := by
  cases kind <;> decide

lemma Token.Word.shown {t : Token} (h : t.Word S) : Text.OneRow t.shown := by
  rw [Token.shown]
  split
  · exact TokenKind.oneRow_name _
  · exact h.2

lemma Token.Stop.shown {t : Token} (h : t.Stop S) : Text.OneRow t.shown := by
  rw [Token.shown, if_pos h.2]
  exact TokenKind.oneRow_name _

/-! ### Statements -/

/-- The name that a term needs stays on one row. -/
def Term.OneRow : Term → Prop
  | symbol name => Text.OneRow name
  | _ => True

/-- The names in an expression stay on one row. -/
def Expr.OneRow (e : Expr) : Prop :=
  ∀ t ∈ e.terms, t.term.OneRow

/-- The name that an expression lacks is one of its own. -/
lemma Expr.OneRow.of_eval {e : Expr} (h : e.OneRow) {symbols : SymbolTable} {here : UInt16}
    {name : String} (heval : e.eval symbols here = .error name) : Text.OneRow name := by
  obtain ⟨terms⟩ := e
  simp only [eval] at heval
  generalize (0 : Int) = sum at heval
  induction terms generalizing sum with
  | nil => cases heval
  | cons t terms ih =>
    obtain ⟨hterm, hterms⟩ := List.forall_mem_cons.mp h
    rw [List.foldlM_cons] at heval
    cases hsum : accumulate symbols here sum t with
    | ok n =>
      rw [hsum] at heval
      exact ih hterms n heval
    | error name' =>
      rw [hsum] at heval
      cases heval
      rw [accumulate] at hsum
      cases hname : t.term with
      | symbol name' =>
        rw [hname] at hterm hsum
        cases hget : symbols.get? name' with
        | some s =>
          rw [Term.eval, hget] at hsum
          cases hsum
        | none =>
          rw [Term.eval, hget] at hsum
          cases hsum
          exact hterm
      | _ =>
        rw [hname] at hsum
        cases hsum

/-- The place and the names of a value are from the source. -/
def Value.Within (S : Location → Prop) (v : Value) : Prop :=
  S v.location ∧ v.expr.OneRow

def Item.Within (S : Location → Prop) : Item → Prop
  | string t => t.Word S
  | value v => v.Within S

def Argument.Within (S : Location → Prop) : Argument → Prop
  | register _ t => t.Word S
  | value _ v => v.Within S

/-- The places and the names of a statement are from the source, as far as messages show them. -/
def Statement.Within (S : Location → Prop) : Statement → Prop
  | empty _ | endUnit _ => True
  | cpu _ name => name.Word S
  | org _ origin => origin.Within S
  | assign _ location v => S location ∧ v.Within S
  | data _ location items => S location ∧ ∀ item ∈ items, item.Within S
  | instruction i location arguments =>
    Text.OneRow i.mnemonic ∧ S location ∧ ∀ argument ∈ arguments, argument.Within S

/-- The places and the names of what was read of a statement are from the source. -/
def Fragment.Within (S : Location → Prop) : Fragment → Prop
  | nothing | org _ | assign _ _ => True
  | data _ _ items => ∀ item ∈ items, item.Within S
  | instruction _ _ arguments => ∀ argument ∈ arguments, argument.Within S

/-- The place and the text of a failure are from the source. -/
def Failure.Within (S : Location → Prop) (f : Failure) : Prop :=
  S f.location ∧ Text.OneRow f.fault.text

def LineReading.Within (S : Location → Prop) : LineReading → Prop
  | accepted label statement _ => (∀ t ∈ label, t.Word S) ∧ statement.Within S
  | rejected label fragment failure =>
    (∀ t ∈ label, t.Word S) ∧ fragment.Within S ∧ failure.Within S

/-! ### Reading -/

namespace Reader

/-- What a reader takes off a line meets a condition, the tokens it leaves are words of the source,
and its failure is from there too. -/
def Reads {α : Type} (S : Location → Prop) (P : α → Prop) :
    Except Failure (α × List Token) → Prop :=
  Yields (fun r => P r.1 ∧ ∀ t ∈ r.2, t.Word S) (Failure.Within S)

variable {stop : Token} {ts : List Token}

lemma oneRow_expectedText {what found : String} (hwhat : Text.OneRow what)
    (hfound : Text.OneRow found) : Text.OneRow (expectedText what found) := by
  have hstart := Text.OneRow.append (s := "Expected ") (by decide) hwhat
  rw [expectedText]
  split
  · exact hstart
  · exact (hstart.append (by decide)).append hfound

lemma within_missing (hstop : stop.Stop S) (hts : ∀ t ∈ ts, t.Word S) {what : String}
    (hwhat : Text.OneRow what) : (missing stop ts what).Within S := by
  cases ts with
  | nil => exact ⟨hstop.1, oneRow_expectedText hwhat hstop.shown⟩
  | cons t ts =>
    have ht := hts t List.mem_cons_self
    exact ⟨ht.1, oneRow_expectedText hwhat ht.shown⟩

lemma yields_expectEnd_within (hstop : stop.Stop S) (hts : ∀ t ∈ ts, t.Word S) :
    Yields (fun _ => True) (Failure.Within S) (expectEnd stop ts) := by
  rw [expectEnd]
  split
  · trivial
  · exact within_missing hstop hts (by decide)

lemma yields_readTerm {t : Token} (ht : t.Word S) :
    Yields Term.OneRow (Failure.Within S) (readTerm t) := by
  have hvalue : Failure.Within S ⟨t.location, .expected "Value" t.shown⟩ :=
    ⟨ht.1, oneRow_expectedText (by decide) ht.shown⟩
  simp only [readTerm]
  split
  · split
    · trivial
    · exact ⟨ht.1, Text.OneRow.append (s := "Invalid number: ") (by decide) ht.2⟩
  · exact ht.2
  · trivial
  · split
    · trivial
    · exact hvalue
  · exact hvalue

lemma yields_readTerms (hstop : stop.Stop S) (negative : Bool) (hts : ∀ t ∈ ts, t.Word S) :
    Yields (fun r => (∀ t ∈ r.1, t.term.OneRow) ∧ ∀ t ∈ r.2.2, t.Word S) (Failure.Within S)
      (readTerms stop negative ts) := by
  fun_induction readTerms stop negative ts with
  | case1 negative => exact within_missing hstop hts (by decide)
  | case2 negative t =>
    refine (yields_readTerm (hts t List.mem_cons_self)).map ?_
    intro term hterm
    exact ⟨by simpa using hterm, by simp⟩
  | case3 negative t op rest f hterm =>
    exact (yields_readTerm (hts t List.mem_cons_self)).of_error hterm
  | case4 negative t op rest term hsign hterm =>
    have hterm' := (yields_readTerm (hts t List.mem_cons_self)).of_ok hterm
    exact ⟨by simpa using hterm', fun u hu => hts u (List.mem_cons_of_mem _ hu)⟩
  | case5 negative t op rest term next hsign hterm ih =>
    have hterm' := (yields_readTerm (hts t List.mem_cons_self)).of_ok hterm
    refine (ih fun u hu => hts u (List.mem_cons_of_mem _ (List.mem_cons_of_mem _ hu))).map ?_
    rintro ⟨terms, text, rest⟩ ⟨hterms, hrest⟩
    exact ⟨List.forall_mem_cons.mpr ⟨hterm', hterms⟩, hrest⟩

lemma current_location (hstop : stop.Stop S) (hts : ∀ t ∈ ts, t.Word S) :
    S (current stop ts).location := by
  cases ts with
  | nil => exact hstop.1
  | cons t ts => exact (hts t List.mem_cons_self).1

lemma reads_readValue (hstop : stop.Stop S) (hts : ∀ t ∈ ts, t.Word S) :
    Reads S (Value.Within S) (readValue stop ts) := by
  have hlocation := current_location hstop hts
  have htail : ∀ t ∈ ts.tail, t.Word S := fun t ht => hts t (List.mem_of_mem_tail ht)
  rw [readValue]
  split
  · refine (yields_readTerms hstop _ htail).map ?_
    rintro ⟨terms, text, rest⟩ ⟨hterms, hrest⟩
    exact ⟨⟨hlocation, hterms⟩, hrest⟩
  · refine (yields_readTerms hstop false hts).map ?_
    rintro ⟨terms, text, rest⟩ ⟨hterms, hrest⟩
    exact ⟨⟨hlocation, hterms⟩, hrest⟩

lemma reads_readOnlyValue (hstop : stop.Stop S) (hts : ∀ t ∈ ts, t.Word S) :
    Reads S (Value.Within S) (readOnlyValue stop ts) := by
  refine (reads_readValue hstop hts).bind ?_
  rintro ⟨v, rest⟩ hv
  exact (yields_expectEnd_within hstop hv.2).bind fun _ _ => hv

lemma reads_readItem (hstop : stop.Stop S) (width : Width) (hts : ∀ t ∈ ts, t.Word S) :
    Reads S (Item.Within S) (readItem stop width ts) := by
  rw [readItem]
  split
  · rename_i hstring
    cases ts with
    | nil => cases width <;> cases hstring
    | cons t ts => exact List.forall_mem_cons.mp hts
  · exact (reads_readValue hstop hts).map fun _ h => h

lemma reads_readItems (hstop : stop.Stop S) (width : Width) (hts : ∀ t ∈ ts, t.Word S) :
    (∀ item ∈ (readItems stop width ts).1, item.Within S) ∧
      Yields (fun rest => ∀ t ∈ rest, t.Word S) (Failure.Within S)
        (readItems stop width ts).2 := by
  fun_induction readItems stop width ts with
  | case1 ts f hread => exact ⟨by simp, (reads_readItem hstop width hts).of_error hread⟩
  | case2 ts item comma rest hread hcomma hlt items result heq ih =>
    obtain ⟨hitem, hrest⟩ := (reads_readItem hstop width hts).of_ok hread
    have hmore := ih (List.forall_mem_cons.mp hrest).2
    rw [heq] at hmore
    exact ⟨List.forall_mem_cons.mpr ⟨hitem, hmore.1⟩, hmore.2⟩
  | case3 ts item comma rest hread hcomma =>
    obtain ⟨hitem, hrest⟩ := (reads_readItem hstop width hts).of_ok hread
    exact ⟨by simpa using hitem, hrest⟩
  | case4 ts item hread =>
    obtain ⟨hitem, hrest⟩ := (reads_readItem hstop width hts).of_ok hread
    exact ⟨by simpa using hitem, hrest⟩

lemma oneRow_kind (kind : OperandKind) : Text.OneRow kind.name := by
  cases kind <;> decide

lemma reads_readArgument (hstop : stop.Stop S) (kind : OperandKind) (hts : ∀ t ∈ ts, t.Word S) :
    Reads S (Argument.Within S) (readArgument stop kind ts) := by
  cases kind with
  | register | pair =>
    cases ts with
    | nil => exact within_missing hstop hts (oneRow_kind _)
    | cons t ts =>
      simp only [readArgument]
      split
      · exact List.forall_mem_cons.mp hts
      · exact within_missing hstop hts (oneRow_kind _)
  | byte | word | address | restartCode => exact (reads_readValue hstop hts).map fun _ h => h

lemma reads_readArguments (hstop : stop.Stop S) (kinds : List OperandKind)
    (hts : ∀ t ∈ ts, t.Word S) :
    (∀ argument ∈ (readArguments stop kinds ts).1, argument.Within S) ∧
      Yields (fun rest => ∀ t ∈ rest, t.Word S) (Failure.Within S)
        (readArguments stop kinds ts).2 := by
  fun_induction readArguments stop kinds ts with
  | case1 ts => exact ⟨by simp, hts⟩
  | case2 kind ts f hread => exact ⟨by simp, (reads_readArgument hstop kind hts).of_error hread⟩
  | case3 kind ts argument rest hread =>
    obtain ⟨hargument, hrest⟩ := (reads_readArgument hstop kind hts).of_ok hread
    exact ⟨by simpa using hargument, hrest⟩
  | case4 kind kinds ts hkinds f hread =>
    exact ⟨by simp, (reads_readArgument hstop kind hts).of_error hread⟩
  | case5 kind kinds ts hkinds argument comma rest hread hcomma arguments result heq ih =>
    obtain ⟨hargument, hrest⟩ := (reads_readArgument hstop kind hts).of_ok hread
    have hmore := ih (List.forall_mem_cons.mp hrest).2
    rw [heq] at hmore
    exact ⟨List.forall_mem_cons.mpr ⟨hargument, hmore.1⟩, hmore.2⟩
  | case6 kind kinds ts hkinds argument comma rest hread hcomma =>
    obtain ⟨hargument, hrest⟩ := (reads_readArgument hstop kind hts).of_ok hread
    exact ⟨by simpa using hargument, within_missing hstop hrest (by decide)⟩
  | case7 kind kinds ts hkinds argument hread =>
    obtain ⟨hargument, hrest⟩ := (reads_readArgument hstop kind hts).of_ok hread
    exact ⟨by simpa using hargument, within_missing hstop hrest (by decide)⟩

/-- A statement that was read has to be over. -/
lemma yields_over (hstop : stop.Stop S) (hts : ∀ t ∈ ts, t.Word S) {statement : Statement}
    {fragment : Fragment} (hstatement : statement.Within S) (hfragment : fragment.Within S) :
    Yields (fun r => r.1.Within S ∧ ∀ t ∈ r.2, t.Word S)
      (fun e => e.1.Within S ∧ Failure.Within S e.2)
      (match expectEnd stop ts with
      | .ok () => .ok (statement, ts)
      | .error f => .error (fragment, f) : StatementResult) := by
  have hend := yields_expectEnd_within hstop hts
  cases hexpect : expectEnd stop ts with
  | ok _ => exact ⟨hstatement, hts⟩
  | error f => exact ⟨hfragment, hend.of_error hexpect⟩

/-- A statement, or a fragment and a failure, that are from the source. -/
def ReadsStatement (S : Location → Prop) : StatementResult → Prop :=
  Yields (fun r => r.1.Within S ∧ ∀ t ∈ r.2, t.Word S)
    (fun e => e.1.Within S ∧ Failure.Within S e.2)

lemma reads_readCpu (hstop : stop.Stop S) (location : Location) (hts : ∀ t ∈ ts, t.Word S) :
    ReadsStatement S (readCpu stop location ts) := by
  have hmissing : (missing stop ts TokenKind.identifier.name).Within S :=
    within_missing hstop hts (by decide)
  cases ts with
  | nil => exact ⟨trivial, hmissing⟩
  | cons t ts =>
    rw [List.forall_mem_cons] at hts
    simp only [readCpu]
    split
    · exact yields_over hstop hts.2 hts.1 trivial
    · exact ⟨trivial, hmissing⟩

lemma reads_readData (hstop : stop.Stop S) (width : Width) {location : Location}
    (hlocation : S location) (hts : ∀ t ∈ ts, t.Word S) :
    ReadsStatement S (readData stop width location ts) := by
  obtain ⟨hitems, hresult⟩ := reads_readItems hstop width hts
  simp only [readData]
  cases hread : (readItems stop width ts).2 with
  | error f => exact ⟨hitems, hresult.of_error hread⟩
  | ok rest => exact yields_over hstop (hresult.of_ok hread) ⟨hlocation, hitems⟩ hitems

lemma reads_readInstruction (hstop : stop.Stop S) {i : Instruction}
    (hmnemonic : Text.OneRow i.mnemonic) {location : Location} (hlocation : S location)
    (hts : ∀ t ∈ ts, t.Word S) : ReadsStatement S (readInstruction stop i location ts) := by
  obtain ⟨harguments, hresult⟩ := reads_readArguments hstop i.family.operands hts
  simp only [readInstruction]
  cases hread : (readArguments stop i.family.operands ts).2 with
  | error f => exact ⟨harguments, hresult.of_error hread⟩
  | ok rest =>
    exact yields_over hstop (hresult.of_ok hread) ⟨hmnemonic, hlocation, harguments⟩ harguments

/-- A directive with one expression. -/
lemma reads_directive (hstop : stop.Stop S) (hts : ∀ t ∈ ts, t.Word S)
    {statement : Value → Statement} {fragment : Fragment}
    (hstatement : ∀ v, v.Within S → (statement v).Within S) (hfragment : fragment.Within S) :
    ReadsStatement S
      (match readOnlyValue stop ts with
      | .ok (v, rest) => .ok (statement v, rest)
      | .error f => .error (fragment, f) : StatementResult) := by
  have hvalue := reads_readOnlyValue hstop hts
  cases hread : readOnlyValue stop ts with
  | ok result =>
    obtain ⟨hv, hrest⟩ := hvalue.of_ok hread
    exact ⟨hstatement _ hv, hrest⟩
  | error f => exact ⟨hfragment, hvalue.of_error hread⟩

lemma oneRow_mnemonic {cpu : Cpu} {i : Instruction} (h : i ∈ cpu.instructions) :
    Text.OneRow i.mnemonic := by
  have hall : ∀ i ∈ cpu.instructions, Text.OneRow i.mnemonic := by
    cases cpu <;> decide
  exact hall i h

lemma reads_readStatement (cpu : Cpu) (hstop : stop.Stop S) (hts : ∀ t ∈ ts, t.Word S) :
    ReadsStatement S (readStatement cpu stop ts) := by
  have hopcode : (missing stop ts "Opcode").Within S := within_missing hstop hts (by decide)
  cases ts with
  | nil => exact ⟨trivial, by simp⟩
  | cons t ts =>
    obtain ⟨ht, hrest⟩ := List.forall_mem_cons.mp hts
    simp only [readStatement]
    split
    · exact ⟨trivial, hts⟩
    · exact reads_directive hstop hrest (fun v hv => ⟨ht.1, hv⟩) trivial
    · exact reads_directive hstop hrest (fun v hv => ⟨ht.1, hv⟩) trivial
    · exact reads_directive hstop hrest (fun v hv => hv) trivial
    · exact reads_readCpu hstop _ hrest
    · exact yields_over hstop hrest trivial trivial
    · exact reads_readData hstop _ ht.1 hrest
    · exact reads_readData hstop _ ht.1 hrest
    · split
      · rename_i i hlookup
        exact reads_readInstruction hstop (oneRow_mnemonic (Cpu.mem_of_lookup hlookup)) ht.1 hrest
      · exact ⟨trivial, hopcode⟩
      · exact ⟨trivial, ht.1, Text.OneRow.append (s := "Unknown mnemonic: ") (by decide) ht.2⟩
    · exact ⟨trivial, hopcode⟩

lemma word_of_readLabel (hts : ∀ t ∈ ts, t.Word S) : ∀ t ∈ (readLabel ts).1, t.Word S := by
  fun_cases readLabel ts with
  | case1 u v rest hkind hcolon => simpa using hts u List.mem_cons_self
  | case2 u v rest hkind hequ => simpa using hts u List.mem_cons_self
  | case3 u v rest hkind hset => simpa using hts u List.mem_cons_self
  | _ => simp

end Reader

/-- What is read of a line comes from the line. -/
lemma SourceLine.Within.read {line : SourceLine} (h : line.Within S) (cpu : Cpu) :
    (line.read cpu).Within S := by
  have hlabel := Reader.word_of_readLabel h.body
  have hts : ∀ t ∈ (Reader.readLabel line.body).2, t.Word S :=
    fun t ht => h.body t ((Reader.readLabel_suffix line.body).subset ht)
  have hread := Reader.reads_readStatement cpu h.stop hts
  simp only [SourceLine.read]
  split
  · rename_i hstatement
    obtain ⟨hfragment, hfailure⟩ := hread.of_error hstatement
    exact ⟨hlabel, hfragment, hfailure⟩
  · rename_i hstatement
    exact ⟨hlabel, (hread.of_ok hstatement).1⟩
  · rename_i hstatement
    exact ⟨hlabel, (hread.of_ok hstatement).1⟩
  · rename_i t rest _ hstatement
    obtain ⟨-, hrest⟩ := hread.of_ok hstatement
    have hmissing := Reader.within_missing h.stop (List.forall_mem_cons.mp hrest).2
      (TokenKind.oneRow_name .endOfLine)
    exact ⟨hlabel, trivial, hmissing⟩

end

end MicroAsm
