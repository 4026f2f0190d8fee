import MicroAsm.Proofs.Instruction.Decoding
import MicroAsm.Proofs.Statement.Comments
import MicroAsm.Proofs.Statement.Grammar
import MicroAsm.Proofs.Statement.Spelling
import MicroAsm.Proofs.Token.Gluing

/-!
# The text of a statement

What is read of a statement keeps the lexemes of its tokens: behind the word that the statement
starts with they make up the texts of its operands, with commas between these. So a statement that
is written out again with one blank behind its first word is scanned into the same words, and read
as the same statement.
-/

namespace MicroAsm

/-! ### Texts -/

/-- A word and texts behind it, with one blank behind the word and none behind commas. -/
def spellOut (head : String) : List String → String
  | [] => head
  | texts => head ++ " " ++ ",".intercalate texts

def Item.text : Item → String
  | string t => t.value
  | value v => v.text

def Argument.text : Argument → String
  | register _ t => t.value
  | value _ v => v.text

namespace Statement

/-- The word that the statement starts with. -/
def head : Statement → String
  | empty _ => ""
  | cpu _ _ => "CPU"
  | endUnit _ => "END"
  | org _ _ => "ORG"
  | assign how _ _ => how.keyword
  | data .byte _ _ => "DB"
  | data .word _ _ => "DW"
  | instruction i _ _ => i.mnemonic

def operandTexts : Statement → List String
  | empty _ | endUnit _ => []
  | cpu _ name => [name.value]
  | org _ v | assign _ _ v => [v.text]
  | data _ _ items => items.map Item.text
  | instruction _ _ arguments => arguments.map Argument.text

def text (s : Statement) : String :=
  spellOut s.head s.operandTexts

/-- The line says nothing but its label and its comment. -/
def isEmpty : Statement → Bool
  | empty _ => true
  | _ => false

end Statement

/-! ### Tokens of texts -/

namespace Token

/-- Kind and value of a token, a name in capital letters. -/
def capital (t : Token) : TokenKind × String :=
  (t.kind, if t.kind = .identifier then Text.upper t.value else t.value)

/-- The tokens without gaps are the text. -/
structure Writes (ts : List Token) (text : String) : Prop where
  ne_nil : ts ≠ []
  glues : Glues ts
  glue_eq : glue ts = text

/-- The tokens without gaps are the texts with commas between them. -/
inductive WritesAll : List Token → List String → Prop
  | nil : WritesAll [] []
  | last {ts : List Token} {text : String} (h : Writes ts text) : WritesAll ts [text]
  | cons {ts us : List Token} {comma : Token} {text : String} {texts : List String}
    (h : Writes ts text) (hcomma : comma.kind = .comma) (hne : texts ≠ [])
    (hrest : WritesAll us texts) : WritesAll (ts ++ comma :: us) (text :: texts)

variable {t : Token} {ts : List Token} {text : String} {texts : List String}

lemma Writes.singleton (h : t.kind.inOperands = true) : Writes [t] t.value :=
  ⟨List.cons_ne_nil _ _, .singleton h, by simp⟩

lemma Writes.cons_mark (h : Writes ts text) (hmark : t.kind.isMark = true) :
    Writes (t :: ts) (t.value ++ text) :=
  ⟨List.cons_ne_nil _ _, h.glues.cons_mark hmark, by rw [glue_cons, h.glue_eq]⟩

/-- Tokens that are scanned have lexemes that are not empty. -/
lemma Writes.ne_empty (h : Writes ts text) (hts : ∀ t ∈ ts, t.Rescans) : text ≠ "" := by
  obtain ⟨t, ts, rfl⟩ := List.exists_cons_of_ne_nil h.ne_nil
  have hkind := TokenKind.isLexeme_of_inOperands (h.glues.inOperands t List.mem_cons_self)
  have hvalue := ((hts t List.mem_cons_self).lexes hkind).ne_nil
  rw [← h.glue_eq, glue_cons]
  intro heq
  have hlist := congrArg String.toList heq
  rw [String.toList_append, String.toList_empty, List.append_eq_nil_iff] at hlist
  exact hvalue hlist.1

namespace WritesAll

lemma glues (h : WritesAll ts texts) : Glues ts := by
  induction h with
  | nil => exact ⟨List.forall_mem_nil _, .nil⟩
  | last h => exact h.glues
  | cons h hcomma _ _ ih => exact h.glues.append_mark (by rw [hcomma]; rfl) ih

lemma ne_empty (h : WritesAll ts texts) (hts : ∀ t ∈ ts, t.Rescans) :
    ∀ text ∈ texts, text ≠ "" := by
  induction h with
  | nil => exact List.forall_mem_nil _
  | last h => exact List.forall_mem_singleton.mpr (h.ne_empty hts)
  | cons h _ _ _ ih =>
    rw [List.forall_mem_append, List.forall_mem_cons] at hts
    exact List.forall_mem_cons.mpr ⟨h.ne_empty hts.1, ih hts.2.2⟩

/-- A comma is written as one. -/
lemma glue_eq (h : WritesAll ts texts) (hts : ∀ t ∈ ts, t.Rescans) :
    glue ts = ",".intercalate texts := by
  induction h with
  | nil => rfl
  | last h => rw [h.glue_eq, String.intercalate_singleton]
  | @cons ts us comma text texts h hcomma hne _ ih =>
    rw [List.forall_mem_append, List.forall_mem_cons] at hts
    have hvalue : comma.value = "," := by
      obtain ⟨c, hc, hvalue⟩ := hts.2.1.mark (by rw [hcomma]; rfl)
      rw [hcomma, Lexeme.punctuation?.eq_def] at hc
      split at hc <;> cases hc
      exact String.toList_inj.mp hvalue
    obtain ⟨text', texts, rfl⟩ := List.exists_cons_of_ne_nil hne
    rw [glue_append, glue_cons, h.glue_eq, hvalue, ih hts.2.2, String.intercalate_cons_cons,
      String.append_assoc]

end WritesAll

end Token

/-! ### Readers -/

namespace Reader

open Token (Writes WritesAll)

variable {stop : Token} {ts rest : List Token}

lemma inOperands_of_readTerm {t : Token} {term : Term} (h : readTerm t = .ok term) :
    t.kind.inOperands = true := by
  rw [readTerm] at h
  split at h
  case h_1 hkind | h_2 hkind | h_3 hkind | h_4 hkind => rw [hkind]; rfl
  case h_5 => cases h

lemma isMark_of_sign? {op : Token} {negative : Bool} (h : sign? op = some negative) :
    op.kind.isMark = true := by
  rw [sign?] at h
  split at h
  case h_1 hkind | h_2 hkind => rw [hkind]; rfl
  case h_3 => cases h

lemma writes_readTerms {negative : Bool} {terms : List SignedTerm} {text : String}
    (h : readTerms stop negative ts = .ok (terms, text, rest)) :
    ∃ used, ts = used ++ rest ∧ Writes used text := by
  fun_induction readTerms stop negative ts generalizing terms text rest with
  | case1 => cases h
  | case2 negative t =>
    obtain ⟨term, hterm, heq⟩ := map_eq_ok_iff.mp h
    cases heq
    exact ⟨[t], rfl, .singleton (inOperands_of_readTerm hterm)⟩
  | case3 => cases h
  | case4 negative t op rest' term hsign hterm =>
    cases h
    exact ⟨[t], rfl, .singleton (inOperands_of_readTerm hterm)⟩
  | case5 negative t op rest' term next hsign hterm ih =>
    obtain ⟨⟨terms', text', rest''⟩, hrest, heq⟩ := map_eq_ok_iff.mp h
    cases heq
    obtain ⟨used, rfl, hwrites⟩ := ih hrest
    have hmark := isMark_of_sign? hsign
    refine ⟨t :: op :: used, rfl, List.cons_ne_nil _ _, ?_, ?_⟩
    · exact (Token.Glues.singleton (inOperands_of_readTerm hterm)).append_mark hmark hwrites.glues
    · rw [Token.glue_cons, Token.glue_cons, hwrites.glue_eq, String.append_assoc]

lemma writes_readValue {v : Value} (h : readValue stop ts = .ok (v, rest)) :
    ∃ used, ts = used ++ rest ∧ Writes used v.text := by
  rw [readValue] at h
  split at h
  · rename_i negative hsign
    obtain ⟨⟨terms, text, rest'⟩, hread, heq⟩ := map_eq_ok_iff.mp h
    cases heq
    obtain ⟨op, hop, hnegative⟩ := Option.bind_eq_some_iff.mp hsign
    obtain ⟨us, rfl⟩ := List.head?_eq_some_iff.mp hop
    obtain ⟨used, hused, hwrites⟩ := writes_readTerms hread
    exact ⟨op :: used, congrArg (op :: ·) hused, hwrites.cons_mark (isMark_of_sign? hnegative)⟩
  · obtain ⟨⟨terms, text, rest'⟩, hread, heq⟩ := map_eq_ok_iff.mp h
    cases heq
    exact writes_readTerms hread

lemma writes_readOnlyValue {v : Value} (h : readOnlyValue stop ts = .ok (v, rest)) :
    ∃ used, ts = used ++ rest ∧ Writes used v.text := by
  obtain ⟨⟨v', rest'⟩, hread, h⟩ := bind_eq_ok_iff.mp h
  obtain ⟨u, -, h⟩ := bind_eq_ok_iff.mp h
  cases h
  exact writes_readValue hread

lemma writes_readItem {width : Width} {item : Item}
    (h : readItem stop width ts = .ok (item, rest)) :
    ∃ used, ts = used ++ rest ∧ Writes used item.text := by
  rw [readItem] at h
  split at h
  · rename_i hstring
    cases h
    rw [isStringItem.eq_def] at hstring
    split at hstring
    · rename_i t us
      simp only [Bool.and_eq_true, decide_eq_true_eq] at hstring
      exact ⟨[t], rfl, .singleton (by rw [hstring.1.1]; rfl)⟩
    · cases hstring
  · obtain ⟨⟨v, rest'⟩, hread, heq⟩ := map_eq_ok_iff.mp h
    cases heq
    exact writes_readValue hread

lemma writes_readItems {width : Width} {items : List Item}
    (h : readItems stop width ts = (items, .ok rest)) :
    items ≠ [] ∧ ∃ used, ts = used ++ rest ∧ WritesAll used (items.map Item.text) := by
  fun_induction readItems stop width ts generalizing items rest with
  | case1 => cases h
  | case2 ts item comma rest' hread hcomma hlt items' result heq ih =>
    cases h
    obtain ⟨used, rfl, hwrites⟩ := writes_readItem hread
    obtain ⟨hne, used', rfl, hrest⟩ := ih heq
    refine ⟨List.cons_ne_nil _ _, used ++ comma :: used', by simp, ?_⟩
    exact .cons hwrites hcomma (List.map_eq_nil_iff.not.mpr hne) hrest
  | case3 ts item comma rest' hread hcomma =>
    cases h
    obtain ⟨used, rfl, hwrites⟩ := writes_readItem hread
    exact ⟨List.cons_ne_nil _ _, used, rfl, .last hwrites⟩
  | case4 ts item hread =>
    cases h
    obtain ⟨used, rfl, hwrites⟩ := writes_readItem hread
    exact ⟨List.cons_ne_nil _ _, used, rfl, .last hwrites⟩

lemma writes_readArgument {kind : OperandKind} {argument : Argument}
    (h : readArgument stop kind ts = .ok (argument, rest)) :
    ∃ used, ts = used ++ rest ∧ Writes used argument.text := by
  have hvalue : ∀ v, readValue stop ts = .ok (v, rest) → argument = .value kind v →
      ∃ used, ts = used ++ rest ∧ Writes used argument.text := by
    rintro v hread rfl
    exact writes_readValue hread
  cases kind with
  | register | pair =>
    cases ts with
    | nil => cases h
    | cons t ts =>
      simp only [readArgument] at h
      split at h
      · rename_i hkind
        cases h
        exact ⟨[t], rfl, .singleton (by rw [hkind]; rfl)⟩
      · cases h
  | byte | word | address | restartCode =>
    obtain ⟨⟨v, rest'⟩, hread, heq⟩ := map_eq_ok_iff.mp h
    cases heq
    exact hvalue v hread rfl

lemma writes_readArguments {kinds : List OperandKind} {arguments : List Argument}
    (h : readArguments stop kinds ts = (arguments, .ok rest)) :
    (kinds ≠ [] → arguments ≠ []) ∧
      ∃ used, ts = used ++ rest ∧ WritesAll used (arguments.map Argument.text) := by
  fun_induction readArguments stop kinds ts generalizing arguments rest with
  | case1 ts =>
    cases h
    exact ⟨fun hne => (hne rfl).elim, [], rfl, .nil⟩
  | case2 => cases h
  | case3 kind ts argument rest' hread =>
    cases h
    obtain ⟨used, rfl, hwrites⟩ := writes_readArgument hread
    exact ⟨fun _ => List.cons_ne_nil _ _, used, rfl, .last hwrites⟩
  | case4 => cases h
  | case5 kind kinds ts hkinds argument comma rest' hread hcomma arguments' result heq ih =>
    cases h
    obtain ⟨used, rfl, hwrites⟩ := writes_readArgument hread
    obtain ⟨hne, used', rfl, hrest⟩ := ih heq
    refine ⟨fun _ => List.cons_ne_nil _ _, used ++ comma :: used', by simp, ?_⟩
    exact .cons hwrites hcomma (List.map_eq_nil_iff.not.mpr (hne hkinds)) hrest
  | case6 => cases h
  | case7 => cases h

end Reader

/-! ### Statements -/

lemma TokenKind.eq_name_of_keyword? {s : String} {kind : TokenKind}
    (h : keyword? s = some kind) : s = kind.name := by
  rw [keyword?.eq_def] at h
  split at h <;> cases h <;> rfl

/-- The statement is written with these tokens: the word that it starts with, and those of its
operands. -/
structure Statement.HasTokens (s : Statement) (t : Token) (ts : List Token) : Prop where
  isEmpty : s.isEmpty = false
  capital : t.capital = ((TokenKind.keyword? s.head).getD .identifier, s.head)
  ne_nil : s.head.toList ≠ []
  isUpper : s.head.toList.all Char.isUpper = true
  operands : Token.WritesAll ts s.operandTexts

/-- A directive starts with the word for it. -/
lemma Statement.HasTokens.directive {s : Statement} {t : Token} {ts : List Token}
    (ht : t.Rescans) (hkind : t.kind.isKeyword = true) (hempty : s.isEmpty = false)
    (hhead : s.head = t.kind.name) (hoperands : Token.WritesAll ts s.operandTexts) :
    s.HasTokens t ts := by
  have hkeyword := ht.keyword hkind
  have hvalue := TokenKind.eq_name_of_keyword? hkeyword
  have hne : t.kind ≠ .identifier := by
    intro heq
    rw [heq] at hkind
    cases hkind
  have hcapital : t.kind.name.toList ≠ [] ∧ t.kind.name.toList.all Char.isUpper = true := by
    cases hk : t.kind <;> first | decide | (rw [hk] at hkind; cases hkind)
  refine ⟨hempty, ?_, hhead ▸ hcapital.1, hhead ▸ hcapital.2, hoperands⟩
  rw [Token.capital, if_neg hne, hhead, ← hvalue, hkeyword]
  rfl

namespace Reader

open Token (Writes WritesAll)

variable {stop t : Token} {ts rest : List Token}

lemma hasTokens_of_value {s : Statement} {fragment : Fragment} {make : Value → Statement}
    (hmake : ∀ v used, Writes used v.text → (make v).HasTokens t used)
    (h : (match readOnlyValue stop ts with
      | .ok (v, rest) => .ok (make v, rest)
      | .error f => .error (fragment, f) : StatementResult) = .ok (s, rest)) :
    ∃ used, ts = used ++ rest ∧ s.HasTokens t used := by
  split at h
  · rename_i v rest' hread
    cases h
    obtain ⟨used, hused, hwrites⟩ := writes_readOnlyValue hread
    exact ⟨used, hused, hmake v used hwrites⟩
  · cases h

lemma hasTokens_of_readCpu {s : Statement} (ht : t.Rescans) (hkind : t.kind = .cpu)
    (h : readCpu stop t.location ts = .ok (s, rest)) :
    ∃ used, ts = used ++ rest ∧ s.HasTokens t used := by
  cases ts with
  | nil => cases h
  | cons name ts =>
    simp only [readCpu] at h
    split at h
    · rename_i hname
      have hoperand : name.kind.inOperands = true := by
        rcases hname with hname | hname <;> rw [hname] <;> rfl
      split at h
      · cases h
        exact ⟨[name], rfl, .directive ht (by rw [hkind]; rfl) rfl (by rw [hkind]; rfl)
          (.last (.singleton hoperand))⟩
      · cases h
    · cases h

lemma hasTokens_of_readData {width : Width} {s : Statement}
    (hmake : ∀ items used, WritesAll used (items.map Item.text) →
      (Statement.data width t.location items).HasTokens t used)
    (h : readData stop width t.location ts = .ok (s, rest)) :
    ∃ used, ts = used ++ rest ∧ s.HasTokens t used := by
  simp only [readData] at h
  split at h
  · cases h
  · rename_i rest' hread
    split at h
    · cases h
      obtain ⟨-, used, hused, hwrites⟩ := writes_readItems (Prod.ext rfl hread)
      exact ⟨used, hused, hmake _ used hwrites⟩
    · cases h

lemma hasTokens_of_readInstruction {i : Instruction} {s : Statement}
    (hmake : ∀ arguments used, WritesAll used (arguments.map Argument.text) →
      (Statement.instruction i t.location arguments).HasTokens t used)
    (h : readInstruction stop i t.location ts = .ok (s, rest)) :
    ∃ used, ts = used ++ rest ∧ s.HasTokens t used := by
  simp only [readInstruction] at h
  split at h
  · cases h
  · rename_i rest' hread
    split at h
    · cases h
      obtain ⟨-, used, hused, hwrites⟩ := writes_readArguments (Prod.ext rfl hread)
      exact ⟨used, hused, hmake _ used hwrites⟩
    · cases h

/-- A statement that was read is written with the tokens that were taken off. -/
lemma hasTokens_of_readStatement {cpu : Cpu} {s : Statement} (ht : t.Rescans)
    (h : readStatement cpu stop (t :: ts) = .ok (s, rest)) (hempty : s.isEmpty = false) :
    ∃ used, ts = used ++ rest ∧ s.HasTokens t used := by
  simp only [readStatement] at h
  split at h
  case h_1 =>
    cases h
    cases hempty
  case h_2 hkind | h_3 hkind | h_4 hkind =>
    refine hasTokens_of_value (fun v used hwrites => ?_) h
    exact .directive ht (by rw [hkind]; rfl) rfl (by rw [hkind]; rfl) (.last hwrites)
  case h_5 hkind =>
    exact hasTokens_of_readCpu ht hkind h
  case h_6 hkind =>
    split at h
    · cases h
      exact ⟨[], rfl, .directive ht (by rw [hkind]; rfl) rfl (by rw [hkind]; rfl) .nil⟩
    · cases h
  case h_7 hkind | h_8 hkind =>
    refine hasTokens_of_readData (fun items used hwrites => ?_) h
    exact .directive ht (by rw [hkind]; rfl) rfl (by rw [hkind]; rfl) hwrites
  case h_9 hkind =>
    split at h
    · rename_i i hlookup
      obtain ⟨hi, hname⟩ := Cpu.lookup_eq_supported_iff.mp hlookup
      obtain ⟨hne, hupper, hkeyword⟩ := isPlainName_mnemonic hi
      refine hasTokens_of_readInstruction (fun arguments used hwrites => ?_) h
      refine ⟨rfl, ?_, hne, hupper, hwrites⟩
      rw [Token.capital, if_pos hkind, hkind, hname, Statement.head, hkeyword]
      rfl
    · cases h
    · cases h
  case h_10 => cases h

end Reader

/-! ### Scanning a statement -/

namespace Statement.HasTokens

variable {s : Statement} {t : Token} {ts : List Token}

lemma scans_text (h : s.HasTokens t ts) (hts : ∀ t ∈ ts, t.Rescans) :
    Scanner.Scans s.text.toList (t.capital :: ts.map Token.word) := by
  have hfirst := scans_capitals h.ne_nil h.isUpper
  rw [← h.capital] at hfirst
  have hglue := Token.scans_glue h.operands.glues hts
  rw [h.operands.glue_eq hts] at hglue
  have hoperands := h.operands
  rw [text, spellOut.eq_def]
  split
  · rename_i hnone
    rw [hnone] at hoperands
    cases hoperands
    exact hfirst
  · have hrest := hfirst.append (by decide) hglue.blank
    simpa using hrest

lemma inOperands (h : s.HasTokens t ts) : ∀ u ∈ ts, u.kind.inOperands = true :=
  h.operands.glues.inOperands

lemma isLexeme (h : s.HasTokens t ts) : t.kind.isLexeme = true := by
  have hkind : t.kind = (TokenKind.keyword? s.head).getD .identifier := congrArg Prod.fst h.capital
  rw [hkind, TokenKind.keyword?.eq_def]
  split <;> rfl

end Statement.HasTokens

/-- A text is scanned into the words that it spells. -/
lemma Scanner.Scans.words_ofText {text : String} {words : List (TokenKind × String)}
    (h : Scanner.Scans text.toList words) :
    (Scanner.ofText text).tokens.1.map Token.word = words := by
  have hstops : Stops [] := by
    rintro c ⟨⟩
  obtain ⟨ts, s', hs', hwords, htokens⟩ := h (.ofText text) [] hstops (List.append_nil _).symm
  rw [htokens, Scanner.tokens_of_rest_eq_nil hs', List.append_nil, hwords]

/-- A text of words is one physical line. -/
lemma SourceLine.exists_ofText {text : String} {words : List (TokenKind × String)}
    (h : (Scanner.ofText text).tokens.1.map Token.word = words)
    (hwords : ∀ word ∈ words, word.1 ≠ .endOfLine) :
    ∃ line, ofText text = [line] ∧ line.HasWords words := by
  have hsplit : ∀ (last : Token) (ts : List Token), (∀ t ∈ ts, t.kind ≠ .endOfLine) →
      split last ts = (⟨ts, last⟩, []) := by
    intro last ts hts
    induction ts with
    | nil => rfl
    | cons t ts ih =>
      rw [List.forall_mem_cons] at hts
      rw [split, ih hts.2]
      simp only [if_neg hts.1]
  have hkinds : ∀ t ∈ (Scanner.ofText text).tokens.1, t.kind ≠ .endOfLine := by
    intro t ht
    exact hwords t.word (h ▸ List.mem_map_of_mem ht)
  refine ⟨⟨(Scanner.ofText text).tokens.1, (Scanner.ofText text).tokens.2.1⟩, ?_, h⟩
  simp only [ofText, hsplit _ _ hkinds]

/-! ### Reading a statement again -/

namespace Reader

variable {cpu : Cpu} {stop stop' t : Token} {ts rest : List Token} {s : Statement}

/-- On a bare line neither the token that ends it nor a comment has a say in a statement. -/
lemma readStatement_of_stop {comment : Option Token}
    (hcomment : ∀ c ∈ comment, c.kind = .comment ∧ c.location = .none)
    (hstop : stop.location = .none) (hstop' : stop'.location = .none)
    (h : readStatement cpu stop (ts ++ comment.toList) = .ok (s, comment.toList)) :
    readStatement cpu stop' ts = .ok (s, []) := by
  have hback : ∀ {c stop : Token}, c.kind = .comment → c.location = .none →
      readStatement cpu stop (ts ++ [c]) = .ok (s, [c]) →
      readStatement cpu stop' ts = .ok (s, []) := by
    intro c stop hc hplace hread
    have hleaves := leaves_readStatement stop hc (hstop'.trans hplace.symm) cpu ts
    rw [hread] at hleaves
    generalize readStatement cpu stop' ts = result at hleaves
    cases hleaves with
    | @ok r _ hr =>
      obtain ⟨s', left⟩ := r
      obtain ⟨rfl, hleft⟩ := Prod.mk.inj hr
      have hnil : left = [] := List.self_eq_append_left.mp hleft
      rw [hnil]
  cases comment with
  | none =>
    -- Any comment will do in the place of the end of the line.
    let c : Token := ⟨.comment, "", .none⟩
    rw [Option.toList_none, List.append_nil] at h
    obtain ⟨_, hread, rfl⟩ := (leaves_readStatement (c := c) stop rfl hstop cpu ts).of_ok h
    exact hback rfl rfl hread
  | some c => exact hback (hcomment c rfl).1 (hcomment c rfl).2 h

/-- A mnemonic is the same instruction in capital letters. -/
lemma readStatement_capital {r : Statement × List Token}
    (h : readStatement cpu stop (t :: ts) = .ok r) :
    readStatement cpu stop ({ t with value := t.capital.2 } :: ts) = .ok r := by
  by_cases hkind : t.kind = .identifier
  · simp only [readStatement, hkind, Token.capital, if_true] at h ⊢
    cases hlookup : cpu.lookup t.value with
    | supported i =>
      obtain ⟨hi, hname⟩ := Cpu.lookup_eq_supported_iff.mp hlookup
      rw [hlookup] at h
      rw [hname, lookup_mnemonic hi]
      exact h
    | otherCpu cpu' =>
      rw [hlookup] at h
      cases h
    | unknown =>
      rw [hlookup] at h
      cases h
  · rw [Token.capital, if_neg hkind]
    exact h

/-- No operand makes a label of the word in front of it. -/
lemma readLabel_of_inOperands (h : ∀ u ∈ ts, u.kind.inOperands = true) :
    readLabel (t :: ts) = (none, t :: ts) := by
  cases ts with
  | nil => rfl
  | cons u ts =>
    have hu := h u List.mem_cons_self
    rw [readLabel]
    split
    · split
      case h_1 hkind | h_2 hkind | h_3 hkind =>
        rw [hkind] at hu
        cases hu
      case h_4 => rfl
    · rfl

end Reader

/-! ### Statements of lines -/

namespace SourceLine

variable {cpu : Cpu} {line : SourceLine} {label comment : Option Token} {s : Statement}

/-- The tokens of the statement on a line: those without the label and the comment. -/
def statementTokens (line : SourceLine) : List Token :=
  (Reader.readLabel line.body).2.filter (·.kind ≠ .comment)

/-- The words of the statement on a line, its mnemonic in capital letters. -/
def statementWords (line : SourceLine) : List (TokenKind × String) :=
  match line.statementTokens with
  | [] => []
  | t :: ts => t.capital :: ts.map Token.word

/-- The tokens of a line that was accepted are those of its label, those of its statement, and its
comment. -/
lemma hasTokens_of_read (hline : ∀ t ∈ line.body, t.Rescans)
    (h : line.read cpu = .accepted label s comment) (hempty : s.isEmpty = false) :
    ∃ t ts, (Reader.readLabel line.body).2 = t :: ts ++ comment.toList ∧
      line.statementTokens = t :: ts ∧ s.HasTokens t ts ∧ (∀ c ∈ comment, c.kind = .comment) ∧
      Reader.readStatement cpu line.stop (t :: ts ++ comment.toList) = .ok (s, comment.toList) := by
  have hends := Reader.ends_readStatement cpu line.stop (Reader.readLabel line.body).2
  have hread : Reader.readStatement cpu line.stop (Reader.readLabel line.body).2 =
      .ok (s, comment.toList) ∧ ∀ c ∈ comment, c.kind = .comment := by
    simp only [read] at h
    split at h
    · cases h
    · rename_i hread
      cases h
      exact ⟨hread, by rintro c ⟨⟩⟩
    · rename_i hread
      cases h
      refine ⟨hread, ?_⟩
      rintro c ⟨⟩
      exact of_decide_eq_true (hends.of_ok hread)
    · cases h
  obtain ⟨hread, hcomment⟩ := hread
  have hsuffix := (Reader.readLabel_suffix line.body).subset
  cases hbody : (Reader.readLabel line.body).2 with
  | nil =>
    rw [hbody, Reader.readStatement] at hread
    obtain ⟨rfl, -⟩ := Prod.mk.inj (Except.ok.inj hread)
    cases hempty
  | cons t ts =>
    rw [hbody] at hread hsuffix
    have ht := hline t (hsuffix List.mem_cons_self)
    obtain ⟨used, rfl, htokens⟩ := Reader.hasTokens_of_readStatement ht hread hempty
    refine ⟨t, used, rfl, ?_, htokens, hcomment, hread⟩
    have hcomments : comment.toList.filter (·.kind ≠ .comment) = [] := by
      rw [List.filter_eq_nil_iff]
      intro c hc
      simp [hcomment c (Option.mem_toList.mp hc)]
    have hwords : (t :: used).filter (·.kind ≠ .comment) = t :: used := by
      rw [List.filter_eq_self, List.forall_mem_cons]
      have hne : ∀ {u : Token}, u.kind.isLexeme = true → decide (u.kind ≠ .comment) = true := by
        intro u hu
        refine decide_eq_true fun heq => ?_
        rw [heq] at hu
        cases hu
      exact ⟨hne htokens.isLexeme,
        fun u hu => hne (TokenKind.isLexeme_of_inOperands (htokens.inOperands u hu))⟩
    rw [statementTokens, hbody, ← List.cons_append, List.filter_append, hwords, hcomments,
      List.append_nil]

section

variable (hline : ∀ t ∈ line.body, t.Rescans) (h : line.read cpu = .accepted label s comment)
  (hempty : s.isEmpty = false)

include hline h hempty

/-- The operands of a statement that was read have texts. -/
lemma ne_empty_of_read : ∀ text ∈ s.operandTexts, text ≠ "" := by
  obtain ⟨t, ts, hbody, -, hstatement, -, -⟩ := hasTokens_of_read hline h hempty
  refine hstatement.operands.ne_empty fun u hu => hline u ?_
  refine (Reader.readLabel_suffix line.body).subset ?_
  rw [hbody]
  exact List.mem_append_left _ (List.mem_cons_of_mem _ hu)

/-- The text of a statement is scanned into the words of the statement. -/
lemma words_text : (Scanner.ofText s.text).tokens.1.map Token.word = line.statementWords := by
  obtain ⟨t, ts, hbody, htokens, hstatement, -, -⟩ := hasTokens_of_read hline h hempty
  rw [statementWords, htokens]
  refine (hstatement.scans_text fun u hu => hline u ?_).words_ofText
  refine (Reader.readLabel_suffix line.body).subset ?_
  rw [hbody]
  exact List.mem_append_left _ (List.mem_cons_of_mem _ hu)

lemma onLine_statementWords : ∀ word ∈ line.statementWords, word.1 ≠ .endOfLine := by
  obtain ⟨t, ts, -, htokens, hstatement, -, -⟩ := hasTokens_of_read hline h hempty
  have hne : ∀ {kind : TokenKind}, kind.isLexeme = true → kind ≠ .endOfLine := by
    rintro kind hkind rfl
    cases hkind
  rw [statementWords, htokens, List.forall_mem_cons, List.forall_mem_map]
  exact ⟨hne hstatement.isLexeme,
    fun u hu => hne (TokenKind.isLexeme_of_inOperands (hstatement.inOperands u hu))⟩

/-- A line with the words of a statement says the same. -/
lemma read_again {again : SourceLine} (hwords : again.HasWords line.statementWords) :
    ∃ s', again.read cpu = .accepted none s' none ∧ s'.bare = s.bare := by
  obtain ⟨t, ts, -, htokens, hstatement, hcomment, hread⟩ := hasTokens_of_read hline h hempty
  rw [HasWords, statementWords, htokens] at hwords
  -- Without places the tokens are those of the statement, but for the capital letters.
  have hbare : ∀ us : List Token, us.map Token.bare = (us.map Token.word).map fun w =>
      ⟨w.1, w.2, .none⟩ := by
    intro us
    rw [List.map_map]
    rfl
  have hbody : again.bare.body = { t.bare with value := t.bare.capital.2 } :: ts.map Token.bare := by
    have hbody : again.bare.body = again.body.map Token.bare := rfl
    rw [hbody, hbare, hwords, hbare ts]
    rfl
  have hagain : Reader.readStatement cpu again.bare.stop again.bare.body = .ok (s.bare, []) := by
    have hplaces := Reader.readStatement_bare line.stop (t :: ts ++ comment.toList) cpu
    rw [hread, Reader.bareResult, mapBoth, Reader.bareRest, List.map_append,
      ← Option.toList_map] at hplaces
    rw [hbody]
    refine Reader.readStatement_capital (Reader.readStatement_of_stop ?_ rfl rfl hplaces)
    intro c hc
    obtain ⟨c', hc', rfl⟩ := Option.map_eq_some_iff.mp hc
    exact ⟨hcomment c' hc', rfl⟩
  have hlabel : Reader.readLabel again.bare.body = (none, again.bare.body) := by
    rw [hbody]
    refine Reader.readLabel_of_inOperands ?_
    rw [List.forall_mem_map]
    exact hstatement.inOperands
  have hresult : (again.read cpu).bare = .accepted none s.bare none := by
    rw [← read_bare]
    simp only [read, hlabel, hagain]
  cases hread' : again.read cpu with
  | rejected label' fragment failure =>
    rw [hread'] at hresult
    cases hresult
  | accepted label' s' comment' =>
    rw [hread', LineReading.bare, LineReading.accepted.injEq, Option.map_eq_none_iff,
      Option.map_eq_none_iff] at hresult
    obtain ⟨rfl, hs', rfl⟩ := hresult
    exact ⟨s', rfl, hs'⟩

end

end SourceLine

end MicroAsm
