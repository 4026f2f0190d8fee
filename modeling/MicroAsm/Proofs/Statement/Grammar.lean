import MicroAsm.Proofs.Assembly.Rejection
import MicroAsm.Proofs.Statement.Bare
import MicroAsm.Proofs.Token.Numerals

/-!
# The grammar of a line

Which tokens a line may have, said without a reader: a line is accepted if and only if its tokens
can be derived. Apart from the tokens only the processor counts, since it decides which mnemonics
there are. What else is known when the line is read, the symbols, the code and the messages, does
not matter.
-/

namespace MicroAsm

namespace Grammar

/-- `term := number below 2^63 | identifier | "$" | string of one character` -/
inductive Term : Token → Prop where
  | number {t : Token} {n : Nat} (hkind : t.kind = .number) (hvalue : t.magnitude? = some n)
      (hlt : n < 2 ^ 63) : Term t
  | identifier {t : Token} (hkind : t.kind = .identifier) : Term t
  | locationCounter {t : Token} (hkind : t.kind = .dollar) : Term t
  /-- The quotes are two of the three characters. -/
  | string {t : Token} (hkind : t.kind = .string) (hlength : t.value.length = 3) : Term t

/-- `sign := "+" | "-"` -/
def Sign (t : Token) : Prop :=
  t.kind = .plus ∨ t.kind = .minus

/-- `sum := term (sign term)*` -/
inductive Sum : List Token → Prop where
  | term {t : Token} (h : Term t) : Sum [t]
  | cons {t op : Token} {ts : List Token} (h : Term t) (hsign : Sign op) (hrest : Sum ts) :
      Sum (t :: op :: ts)

/-- `expr := [sign] sum` -/
inductive Expr : List Token → Prop where
  | plain {ts : List Token} (h : Sum ts) : Expr ts
  | signed {op : Token} {ts : List Token} (hsign : Sign op) (h : Sum ts) : Expr (op :: ts)

/-- `item := string | expr`, but only bytes take strings, and a string of one character is an
expression. -/
inductive Item : Width → List Token → Prop where
  | string {t : Token} (hkind : t.kind = .string) (hlength : t.value.length ≠ 3) : Item .byte [t]
  | expr {width : Width} {ts : List Token} (h : Expr ts) : Item width ts

/-- `items := item ("," item)*`. So a comma or the end of the statement comes behind a string. -/
inductive Items (width : Width) : List Token → Prop where
  | last {ts : List Token} (h : Item width ts) : Items width ts
  | cons {ts us : List Token} {comma : Token} (h : Item width ts) (hcomma : comma.kind = .comma)
      (hrest : Items width us) : Items width (ts ++ comma :: us)

/-- An operand of the given kind: a register may have any name, and a value is an expression. -/
inductive Operand : OperandKind → List Token → Prop where
  | register {t : Token} (hkind : t.kind = .identifier) : Operand .register [t]
  | pair {t : Token} (hkind : t.kind = .identifier) : Operand .pair [t]
  | value {kind : OperandKind} {ts : List Token} (hregister : kind ≠ .register)
      (hpair : kind ≠ .pair) (h : Expr ts) : Operand kind ts

/-- Operands of the given kinds with commas between them. -/
inductive Operands : List OperandKind → List Token → Prop where
  | nil : Operands [] []
  | last {kind : OperandKind} {ts : List Token} (h : Operand kind ts) : Operands [kind] ts
  | cons {kind kind' : OperandKind} {kinds : List OperandKind} {ts us : List Token}
      {comma : Token} (h : Operand kind ts) (hcomma : comma.kind = .comma)
      (hrest : Operands (kind' :: kinds) us) :
      Operands (kind :: kind' :: kinds) (ts ++ comma :: us)

/-- What a line says, between its label and its comment. -/
inductive Statement (cpu : Cpu) : List Token → Prop where
  | empty : Statement cpu []
  | cpu {t name : Token} (hkind : t.kind = .cpu)
      (hname : name.kind = .identifier ∨ name.kind = .number) : Statement cpu [t, name]
  | endUnit {t : Token} (hkind : t.kind = .endUnit) : Statement cpu [t]
  | directive {t : Token} {ts : List Token} (hkind : t.kind = .org ∨ t.kind = .equ ∨ t.kind = .set)
      (h : Expr ts) : Statement cpu (t :: ts)
  | db {t : Token} {ts : List Token} (hkind : t.kind = .db) (h : Items .byte ts) :
      Statement cpu (t :: ts)
  | dw {t : Token} {ts : List Token} (hkind : t.kind = .dw) (h : Items .word ts) :
      Statement cpu (t :: ts)
  | instruction {t : Token} {ts : List Token} {i : Instruction} (hkind : t.kind = .identifier)
      (hi : i ∈ cpu.instructions) (hname : Text.upper t.value = i.mnemonic)
      (h : Operands i.family.operands ts) : Statement cpu (t :: ts)

/-- The tokens start with a name that has a colon, an EQU or a SET behind it. -/
def OpensLabel (ts : List Token) : Prop :=
  ∃ t u us, ts = t :: u :: us ∧ t.kind = .identifier ∧
    (u.kind = .colon ∨ u.kind = .equ ∨ u.kind = .set)

/-- The label of a line, in front of the rest of the line. A name in front of a colon, an EQU or a
SET is always a label. -/
inductive Label : (label rest : List Token) → Prop where
  | none {rest : List Token} (h : ¬OpensLabel rest) : Label [] rest
  | colon {t u : Token} {rest : List Token} (hname : t.kind = .identifier)
      (hcolon : u.kind = .colon) : Label [t, u] rest
  | assignment {t u : Token} {rest : List Token} (hname : t.kind = .identifier)
      (hkind : u.kind = .equ ∨ u.kind = .set) : Label [t] (u :: rest)

/-- A comment, or none. -/
inductive Comment : List Token → Prop where
  | none : Comment []
  | comment {t : Token} (hkind : t.kind = .comment) : Comment [t]

/-- `line := [label] statement [comment]` -/
inductive Line (cpu : Cpu) : List Token → Prop where
  | line {label statement comment : List Token} (hlabel : Label label (statement ++ comment))
      (hstatement : Statement cpu statement) (hcomment : Comment comment) :
      Line cpu (label ++ statement ++ comment)

end Grammar

/-- A number token is a numeral, as the scanner finds them. -/
def Token.WellFormed (t : Token) : Prop :=
  t.kind = .number → Numeral.Proper t.value.toList

namespace Reader

variable {stop : Token} {ts used rest : List Token}

/-! ### Expressions -/

lemma readTerm_ok_iff {t : Token} (hwell : t.WellFormed) :
    (∃ term, readTerm t = .ok term) ↔ Grammar.Term t := by
  constructor
  · rintro ⟨term, h⟩
    rw [readTerm] at h
    split at h
    · rename_i hkind
      split at h
      · rename_i n hnumber
        obtain ⟨n', hvalue, hlt⟩ := (Token.isSome_number?_iff hkind (hwell hkind)).mp
          (by rw [hnumber]; rfl)
        exact .number hkind hvalue hlt
      · cases h
    · rename_i hkind
      exact .identifier hkind
    · rename_i hkind
      exact .locationCounter hkind
    · rename_i hkind
      split at h
      · rename_i hchars
        refine .string hkind ?_
        rw [← String.length_toList, hchars]
        rfl
      · cases h
    · cases h
  · intro h
    rw [readTerm]
    cases h with
    | number hkind hvalue hlt =>
      have hsome := (Token.isSome_number?_iff hkind (hwell hkind)).mpr ⟨_, hvalue, hlt⟩
      obtain ⟨n, hnumber⟩ := Option.isSome_iff_exists.mp hsome
      simp [hkind, hnumber]
    | identifier hkind => simp [hkind]
    | locationCounter hkind => simp [hkind]
    | string hkind hlength =>
      rw [← String.length_toList] at hlength
      obtain ⟨q, c, q', hchars⟩ := List.length_eq_three.mp hlength
      simp [hkind, hchars]

lemma sign?_isSome_iff {t : Token} : (sign? t).isSome = true ↔ Grammar.Sign t := by
  rw [sign?, Grammar.Sign]
  cases t.kind <;> simp

lemma sum_of_readTerms {negative : Bool} {terms : List SignedTerm} {text : String}
    (hwell : ∀ t ∈ ts, t.WellFormed)
    (h : readTerms stop negative ts = .ok (terms, text, rest)) :
    ∃ used, ts = used ++ rest ∧ Grammar.Sum used := by
  fun_induction readTerms stop negative ts generalizing terms text rest with
  | case1 => cases h
  | case2 negative t =>
    obtain ⟨term, hterm, heq⟩ := map_eq_ok_iff.mp h
    cases heq
    rw [List.forall_mem_singleton] at hwell
    exact ⟨[t], rfl, .term ((readTerm_ok_iff hwell).mp ⟨term, hterm⟩)⟩
  | case3 => cases h
  | case4 negative t op rest' term hsign hterm =>
    cases h
    rw [List.forall_mem_cons] at hwell
    exact ⟨[t], rfl, .term ((readTerm_ok_iff hwell.1).mp ⟨term, hterm⟩)⟩
  | case5 negative t op rest' term next hsign hterm ih =>
    obtain ⟨⟨terms', text', rest''⟩, hrest, heq⟩ := map_eq_ok_iff.mp h
    cases heq
    rw [List.forall_mem_cons, List.forall_mem_cons] at hwell
    obtain ⟨used, rfl, hsum⟩ := ih hwell.2.2 hrest
    refine ⟨t :: op :: used, rfl, .cons ((readTerm_ok_iff hwell.1).mp ⟨term, hterm⟩) ?_ hsum⟩
    rw [← sign?_isSome_iff, hsign]
    rfl

/-- Terms end where no sign follows. -/
lemma exists_readTerms (hsum : Grammar.Sum used) (hwell : ∀ t ∈ used, t.WellFormed)
    (hrest : rest.head?.bind sign? = none) (negative : Bool) :
    ∃ terms text, readTerms stop negative (used ++ rest) = .ok (terms, text, rest) := by
  induction hsum generalizing negative with
  | term h =>
    rw [List.forall_mem_singleton] at hwell
    obtain ⟨term, hterm⟩ := (readTerm_ok_iff hwell).mpr h
    cases rest with
    | nil => exact ⟨_, _, by rw [List.append_nil, readTerms, hterm]; rfl⟩
    | cons op rest =>
      have hsign : sign? op = none := hrest
      exact ⟨_, _, by rw [List.singleton_append, readTerms, hterm, hsign]⟩
  | @cons t op ts h hsign _ ih =>
    rw [List.forall_mem_cons, List.forall_mem_cons] at hwell
    obtain ⟨term, hterm⟩ := (readTerm_ok_iff hwell.1).mpr h
    obtain ⟨next, hnext⟩ := Option.isSome_iff_exists.mp (sign?_isSome_iff.mpr hsign)
    obtain ⟨terms, text, hread⟩ := ih hwell.2.2 next
    refine ⟨⟨negative, term⟩ :: terms, t.value ++ op.value ++ text, ?_⟩
    rw [List.cons_append, List.cons_append, readTerms, hterm, hnext]
    simp only [hread]
    rfl

/-- What comes behind an expression: a comma, a comment or nothing. -/
def Closes (ts : List Token) : Prop :=
  ∀ t ∈ ts.head?, t.kind = .comma ∨ t.kind = .comment

lemma Closes.of_atEnd (h : atEnd ts = true) : Closes ts := by
  intro t ht
  obtain ⟨us, rfl⟩ := List.head?_eq_some_iff.mp ht
  exact Or.inr (of_decide_eq_true h)

lemma Closes.of_comma {comma : Token} (h : comma.kind = .comma) (ts : List Token) :
    Closes (comma :: ts) := by
  rintro t ⟨⟩
  exact Or.inl h

lemma Closes.sign? (h : Closes ts) : ts.head?.bind sign? = none := by
  rw [Option.bind_eq_none_iff]
  intro t ht
  rw [Reader.sign?]
  rcases h t ht with hkind | hkind <;> rw [hkind]

lemma expr_of_readValue {v : Value} (hwell : ∀ t ∈ ts, t.WellFormed)
    (h : readValue stop ts = .ok (v, rest)) : ∃ used, ts = used ++ rest ∧ Grammar.Expr used := by
  rw [readValue] at h
  split at h
  · rename_i negative hsign
    obtain ⟨⟨terms, text, rest'⟩, hread, heq⟩ := map_eq_ok_iff.mp h
    cases heq
    obtain ⟨op, hop, hnegative⟩ := Option.bind_eq_some_iff.mp hsign
    obtain ⟨us, rfl⟩ := List.head?_eq_some_iff.mp hop
    rw [List.forall_mem_cons] at hwell
    obtain ⟨used, hused, hsum⟩ := sum_of_readTerms hwell.2 hread
    refine ⟨op :: used, congrArg (op :: ·) hused, .signed (sign?_isSome_iff.mp ?_) hsum⟩
    rw [hnegative]
    rfl
  · obtain ⟨⟨terms, text, rest'⟩, hread, heq⟩ := map_eq_ok_iff.mp h
    cases heq
    obtain ⟨used, hused, hsum⟩ := sum_of_readTerms hwell hread
    exact ⟨used, hused, .plain hsum⟩

/-- A term is no sign. -/
lemma sign?_of_term {t : Token} (h : Grammar.Term t) : sign? t = none := by
  rw [sign?]
  cases h with
  | number hkind _ _ | identifier hkind | locationCounter hkind | string hkind _ => rw [hkind]

lemma exists_readValue (h : Grammar.Expr used) (hwell : ∀ t ∈ used, t.WellFormed)
    (hrest : Closes rest) : ∃ v, readValue stop (used ++ rest) = .ok (v, rest) := by
  cases h with
  | plain hsum =>
    obtain ⟨terms, text, hread⟩ := @exists_readTerms stop used rest hsum hwell hrest.sign? false
    have hsign : (used ++ rest).head?.bind sign? = none := by
      cases hsum with
      | term h => exact sign?_of_term h
      | cons h _ _ => exact sign?_of_term h
    exact ⟨_, by rw [readValue, hsign, hread]; rfl⟩
  | @signed op ts hsign hsum =>
    rw [List.forall_mem_cons] at hwell
    obtain ⟨negative, hnegative⟩ := Option.isSome_iff_exists.mp (sign?_isSome_iff.mpr hsign)
    obtain ⟨terms, text, hread⟩ :=
      @exists_readTerms stop ts rest hsum hwell.2 hrest.sign? negative
    have hhead : (op :: ts ++ rest).head?.bind sign? = some negative := hnegative
    rw [readValue, hhead]
    simp only [List.cons_append, List.tail_cons, hread]
    exact ⟨_, rfl⟩

/-! ### Data -/

lemma item_of_readItem {width : Width} {item : Item} (hwell : ∀ t ∈ ts, t.WellFormed)
    (h : readItem stop width ts = .ok (item, rest)) :
    ∃ used, ts = used ++ rest ∧ Grammar.Item width used := by
  rw [readItem] at h
  split at h
  · rename_i hstring
    cases h
    rw [isStringItem.eq_def] at hstring
    split at hstring
    · rename_i t us
      simp only [Bool.and_eq_true, decide_eq_true_eq, bne_iff_ne] at hstring
      exact ⟨[t], rfl, .string hstring.1.1 hstring.1.2⟩
    · cases hstring
  · obtain ⟨⟨v, rest'⟩, hread, heq⟩ := map_eq_ok_iff.mp h
    cases heq
    obtain ⟨used, hused, hexpr⟩ := expr_of_readValue hwell hread
    exact ⟨used, hused, .expr hexpr⟩

/-- No expression starts with a string of more or less than one character. -/
lemma isStringItem_of_expr (h : Grammar.Expr used) (width : Width) (rest : List Token) :
    isStringItem width (used ++ rest) = false := by
  have hfirst : ∀ {t : Token} {ts : List Token}, Grammar.Term t →
      isStringItem width (t :: ts) = false := by
    intro t ts hterm
    rw [isStringItem.eq_def]
    split
    · rename_i heq
      cases heq
      cases hterm with
      | number hkind _ _ | identifier hkind | locationCounter hkind => simp [hkind]
      | string _ hlength => simp [hlength]
    · rfl
  cases h with
  | plain hsum =>
    cases hsum with
    | term h => exact hfirst h
    | cons h _ _ => exact hfirst h
  | signed hsign _ =>
    rw [isStringItem.eq_def]
    split
    · rename_i heq
      cases heq
      rcases hsign with hkind | hkind <;> simp [hkind]
    · rfl

lemma exists_readItem {width : Width} (h : Grammar.Item width used)
    (hwell : ∀ t ∈ used, t.WellFormed) (hrest : Closes rest) :
    ∃ item, readItem stop width (used ++ rest) = .ok (item, rest) := by
  cases h with
  | @string t hkind hlength =>
    have hstring : isStringItem .byte ([t] ++ rest) = true := by
      cases rest with
      | nil => simp [isStringItem, hkind, hlength]
      | cons u rest =>
        have hnext := hrest u rfl
        simp [isStringItem, hkind, hlength, hnext]
    exact ⟨_, by rw [readItem, if_pos hstring]; rfl⟩
  | expr h =>
    obtain ⟨v, hread⟩ := @exists_readValue stop used rest h hwell hrest
    have hstring := isStringItem_of_expr h width rest
    refine ⟨.value v, ?_⟩
    rw [readItem, if_neg (by simp [hstring]), hread]
    rfl

lemma items_of_readItems {width : Width} (hwell : ∀ t ∈ ts, t.WellFormed)
    (h : (readItems stop width ts).2 = .ok rest) :
    ∃ used, ts = used ++ rest ∧ Grammar.Items width used := by
  fun_induction readItems stop width ts generalizing rest with
  | case1 => cases h
  | case2 ts item comma rest' hread hcomma hlt items result hrest ih =>
    obtain ⟨used, rfl, hitem⟩ := item_of_readItem hwell hread
    rw [List.forall_mem_append, List.forall_mem_cons] at hwell
    obtain ⟨used', rfl, hitems⟩ := ih hwell.2.2 (by rw [hrest]; exact h)
    exact ⟨used ++ comma :: used', by simp, .cons hitem hcomma hitems⟩
  | case3 ts item comma rest' hread hcomma =>
    cases h
    obtain ⟨used, hused, hitem⟩ := item_of_readItem hwell hread
    exact ⟨used, hused, .last hitem⟩
  | case4 ts item hread =>
    cases h
    obtain ⟨used, hused, hitem⟩ := item_of_readItem hwell hread
    exact ⟨used, hused, .last hitem⟩

lemma readItems_of_items {width : Width} (h : Grammar.Items width used)
    (hwell : ∀ t ∈ used, t.WellFormed) (hend : atEnd rest = true) :
    (readItems stop width (used ++ rest)).2 = .ok rest := by
  induction h with
  | @last ts h =>
    obtain ⟨item, hread⟩ := @exists_readItem stop ts rest width h hwell (.of_atEnd hend)
    rw [readItems_eq, hread]
    cases rest with
    | nil => rfl
    | cons t rest =>
      have hkind : t.kind = .comment := of_decide_eq_true hend
      simp only [hkind]
      rfl
  | @cons ts us comma h hcomma _ ih =>
    rw [List.forall_mem_append, List.forall_mem_cons] at hwell
    obtain ⟨item, hread⟩ := @exists_readItem stop ts (comma :: (us ++ rest)) width h hwell.1
      (.of_comma hcomma _)
    rw [List.append_assoc, List.cons_append, readItems_eq, hread]
    simp only [hcomma, if_true]
    exact ih hwell.2.2

/-! ### Operands -/

lemma operand_of_readArgument {kind : OperandKind} {argument : Argument}
    (hwell : ∀ t ∈ ts, t.WellFormed) (h : readArgument stop kind ts = .ok (argument, rest)) :
    ∃ used, ts = used ++ rest ∧ Grammar.Operand kind used := by
  have hname : ∀ {kind : OperandKind} {t : Token} {us : List Token},
      (if t.kind = .identifier then .ok (.register kind t, us)
        else .error (missing stop (t :: us) kind.name) : Except Failure (Argument × List Token)) =
          .ok (argument, rest) → t.kind = .identifier ∧ us = rest := by
    intro kind t us h
    split at h
    · rename_i hkind
      cases h
      exact ⟨hkind, rfl⟩
    · cases h
  cases kind with
  | register =>
    cases ts with
    | nil => cases h
    | cons t us =>
      obtain ⟨hkind, rfl⟩ := hname h
      exact ⟨[t], rfl, .register hkind⟩
  | pair =>
    cases ts with
    | nil => cases h
    | cons t us =>
      obtain ⟨hkind, rfl⟩ := hname h
      exact ⟨[t], rfl, .pair hkind⟩
  | byte | word | address | restartCode =>
    obtain ⟨⟨v, rest'⟩, hread, heq⟩ := map_eq_ok_iff.mp h
    cases heq
    obtain ⟨used, hused, hexpr⟩ := expr_of_readValue hwell hread
    exact ⟨used, hused, .value (by simp) (by simp) hexpr⟩

lemma exists_readArgument {kind : OperandKind} (h : Grammar.Operand kind used)
    (hwell : ∀ t ∈ used, t.WellFormed) (hrest : Closes rest) :
    ∃ argument, readArgument stop kind (used ++ rest) = .ok (argument, rest) := by
  cases h with
  | @register t hkind => exact ⟨.register .register t, if_pos hkind⟩
  | @pair t hkind => exact ⟨.register .pair t, if_pos hkind⟩
  | value hregister hpair h =>
    obtain ⟨v, hread⟩ := @exists_readValue stop used rest h hwell hrest
    refine ⟨.value kind v, ?_⟩
    rw [readArgument, hread]
    · rfl
    · exact hregister
    · exact hpair

lemma operands_of_readArguments {kinds : List OperandKind} (hwell : ∀ t ∈ ts, t.WellFormed)
    (h : (readArguments stop kinds ts).2 = .ok rest) :
    ∃ used, ts = used ++ rest ∧ Grammar.Operands kinds used := by
  induction kinds generalizing ts with
  | nil =>
    cases h
    exact ⟨[], rfl, .nil⟩
  | cons kind kinds ih =>
    cases kinds with
    | nil =>
      rw [readArguments] at h
      split at h
      · cases h
      · rename_i hread
        cases h
        obtain ⟨used, hused, hoperand⟩ := operand_of_readArgument hwell hread
        exact ⟨used, hused, .last hoperand⟩
    | cons kind' kinds =>
      rw [readArguments.eq_3 _ _ _ _ (by simp)] at h
      split at h
      · cases h
      · rename_i argument comma rest' hread
        obtain ⟨used, rfl, hoperand⟩ := operand_of_readArgument hwell hread
        rw [List.forall_mem_append, List.forall_mem_cons] at hwell
        split at h
        · rename_i hcomma
          obtain ⟨used', rfl, hoperands⟩ := ih hwell.2.2 h
          exact ⟨used ++ comma :: used', by simp, .cons hoperand hcomma hoperands⟩
        · cases h
      · cases h

lemma readArguments_of_operands {kinds : List OperandKind} (h : Grammar.Operands kinds used)
    (hwell : ∀ t ∈ used, t.WellFormed) (hend : atEnd rest = true) :
    (readArguments stop kinds (used ++ rest)).2 = .ok rest := by
  induction h with
  | nil => rfl
  | @last kind ts h =>
    obtain ⟨argument, hread⟩ := @exists_readArgument stop ts rest kind h hwell (.of_atEnd hend)
    rw [readArguments, hread]
  | @cons kind kind' kinds ts us comma h hcomma _ ih =>
    rw [List.forall_mem_append, List.forall_mem_cons] at hwell
    obtain ⟨argument, hread⟩ := @exists_readArgument stop ts (comma :: (us ++ rest)) kind h
      hwell.1 (.of_comma hcomma _)
    rw [List.append_assoc, List.cons_append, readArguments.eq_3 _ _ _ _ (by simp), hread]
    simp only [hcomma, if_true]
    exact ih hwell.2.2

/-! ### Statements -/

lemma expectEnd_of_atEnd (h : atEnd ts = true) : expectEnd stop ts = .ok () :=
  if_pos h

lemma expr_of_readOnlyValue {v : Value} (hwell : ∀ t ∈ ts, t.WellFormed)
    (h : readOnlyValue stop ts = .ok (v, rest)) :
    ∃ used, ts = used ++ rest ∧ Grammar.Expr used := by
  obtain ⟨⟨v', rest'⟩, hread, h⟩ := bind_eq_ok_iff.mp h
  obtain ⟨u, -, h⟩ := bind_eq_ok_iff.mp h
  cases h
  exact expr_of_readValue hwell hread

lemma exists_readOnlyValue (h : Grammar.Expr used) (hwell : ∀ t ∈ used, t.WellFormed)
    (hend : atEnd rest = true) : ∃ v, readOnlyValue stop (used ++ rest) = .ok (v, rest) := by
  obtain ⟨v, hread⟩ := @exists_readValue stop used rest h hwell (.of_atEnd hend)
  refine ⟨v, bind_eq_ok_iff.mpr ⟨(v, rest), hread, ?_⟩⟩
  exact bind_eq_ok_iff.mpr ⟨(), expectEnd_of_atEnd hend, rfl⟩

lemma name_of_readCpu {location : Location} {statement : Statement}
    (h : readCpu stop location ts = .ok (statement, rest)) :
    ∃ name, ts = name :: rest ∧ (name.kind = .identifier ∨ name.kind = .number) := by
  cases ts with
  | nil => cases h
  | cons name ts =>
    simp only [readCpu] at h
    split at h
    · rename_i hname
      split at h
      · cases h
        exact ⟨name, rfl, hname⟩
      · cases h
    · cases h

lemma items_of_readData {width : Width} {location : Location} {statement : Statement}
    (hwell : ∀ t ∈ ts, t.WellFormed)
    (h : readData stop width location ts = .ok (statement, rest)) :
    ∃ used, ts = used ++ rest ∧ Grammar.Items width used := by
  simp only [readData] at h
  split at h
  · cases h
  · rename_i rest' hread
    split at h
    · cases h
      exact items_of_readItems hwell hread
    · cases h

lemma exists_readData {width : Width} {location : Location} (h : Grammar.Items width used)
    (hwell : ∀ t ∈ used, t.WellFormed) (hend : atEnd rest = true) :
    ∃ statement, readData stop width location (used ++ rest) = .ok (statement, rest) := by
  have hread := @readItems_of_items stop used rest width h hwell hend
  simp only [readData, hread, expectEnd_of_atEnd hend]
  exact ⟨_, rfl⟩

lemma operands_of_readInstruction {i : Instruction} {location : Location} {statement : Statement}
    (hwell : ∀ t ∈ ts, t.WellFormed)
    (h : readInstruction stop i location ts = .ok (statement, rest)) :
    ∃ used, ts = used ++ rest ∧ Grammar.Operands i.family.operands used := by
  simp only [readInstruction] at h
  split at h
  · cases h
  · rename_i rest' hread
    split at h
    · cases h
      exact operands_of_readArguments hwell hread
    · cases h

lemma exists_readInstruction {i : Instruction} {location : Location}
    (h : Grammar.Operands i.family.operands used) (hwell : ∀ t ∈ used, t.WellFormed)
    (hend : atEnd rest = true) :
    ∃ statement, readInstruction stop i location (used ++ rest) = .ok (statement, rest) := by
  have hread := @readArguments_of_operands stop used rest i.family.operands h hwell hend
  simp only [readInstruction, hread, expectEnd_of_atEnd hend]
  exact ⟨_, rfl⟩

end Reader

/-- A processor supports a mnemonic in letters of any case. -/
lemma Cpu.lookup_eq_supported_iff {cpu : Cpu} {name : String} {i : Instruction} :
    cpu.lookup name = .supported i ↔ i ∈ cpu.instructions ∧ Text.upper name = i.mnemonic := by
  constructor
  · intro h
    refine ⟨Cpu.mem_of_lookup h, ?_⟩
    rw [lookup] at h
    split at h
    · rename_i i' hfound
      cases h
      have hfirst : cpu.instructions.find? (·.mnemonic == Text.upper name) = some i := hfound
      have hname := List.find?_some hfirst
      exact (beq_iff_eq.mp hname).symm
    · split at h <;> cases h
  · rintro ⟨hi, hname⟩
    rw [lookup, instruction?_of_mem hi hname]

namespace Reader

variable {stop : Token} {ts used rest : List Token}

lemma statement_of_directive {cpu : Cpu} {t : Token} {statement : Statement}
    {make : Value → Statement} {fragment : Fragment} (hwell : ∀ t ∈ ts, t.WellFormed)
    (hkind : t.kind = .org ∨ t.kind = .equ ∨ t.kind = .set)
    (h : (match readOnlyValue stop ts with
      | .ok (v, rest) => .ok (make v, rest)
      | .error f => .error (fragment, f) : StatementResult) = .ok (statement, rest)) :
    ∃ used, t :: ts = used ++ rest ∧ Grammar.Statement cpu used := by
  split at h
  · rename_i v rest' hread
    cases h
    obtain ⟨used, hused, hexpr⟩ := expr_of_readOnlyValue hwell hread
    exact ⟨t :: used, congrArg (t :: ·) hused, .directive hkind hexpr⟩
  · cases h

/-- A statement that was read is one of the grammar. -/
lemma statement_of_readStatement {cpu : Cpu} {statement : Statement}
    (hwell : ∀ t ∈ ts, t.WellFormed)
    (h : readStatement cpu stop ts = .ok (statement, rest)) :
    ∃ used, ts = used ++ rest ∧ Grammar.Statement cpu used := by
  cases ts with
  | nil =>
    cases h
    exact ⟨[], rfl, .empty⟩
  | cons t ts =>
    rw [List.forall_mem_cons] at hwell
    simp only [readStatement] at h
    split at h
    · cases h
      exact ⟨[], rfl, .empty⟩
    · rename_i hkind
      exact statement_of_directive hwell.2 (Or.inr (Or.inl hkind)) h
    · rename_i hkind
      exact statement_of_directive hwell.2 (Or.inr (Or.inr hkind)) h
    · rename_i hkind
      exact statement_of_directive hwell.2 (Or.inl hkind) h
    · rename_i hkind
      obtain ⟨name, rfl, hname⟩ := name_of_readCpu h
      exact ⟨[t, name], rfl, .cpu hkind hname⟩
    · rename_i hkind
      split at h
      · cases h
        exact ⟨[t], rfl, .endUnit hkind⟩
      · cases h
    · rename_i hkind
      obtain ⟨used, hused, hitems⟩ := items_of_readData hwell.2 h
      exact ⟨t :: used, congrArg (t :: ·) hused, .db hkind hitems⟩
    · rename_i hkind
      obtain ⟨used, hused, hitems⟩ := items_of_readData hwell.2 h
      exact ⟨t :: used, congrArg (t :: ·) hused, .dw hkind hitems⟩
    · rename_i hkind
      split at h
      · rename_i i hlookup
        obtain ⟨used, hused, hoperands⟩ := operands_of_readInstruction hwell.2 h
        obtain ⟨hi, hname⟩ := Cpu.lookup_eq_supported_iff.mp hlookup
        exact ⟨t :: used, congrArg (t :: ·) hused, .instruction hkind hi hname hoperands⟩
      · cases h
      · cases h
    · cases h

/-- A statement of the grammar is read up to the comment. -/
lemma exists_readStatement {cpu : Cpu} (h : Grammar.Statement cpu used)
    (hwell : ∀ t ∈ used, t.WellFormed) (hend : atEnd rest = true) :
    ∃ statement, readStatement cpu stop (used ++ rest) = .ok (statement, rest) := by
  cases h with
  | empty =>
    cases rest with
    | nil => exact ⟨_, rfl⟩
    | cons t rest =>
      have hkind : t.kind = .comment := of_decide_eq_true hend
      exact ⟨_, by simp only [List.nil_append, readStatement, hkind]; rfl⟩
  | @cpu t name hkind hname =>
    simp only [List.cons_append, List.nil_append, readStatement, hkind, readCpu, if_pos hname,
      expectEnd_of_atEnd hend]
    exact ⟨_, rfl⟩
  | @endUnit t hkind =>
    simp only [List.cons_append, List.nil_append, readStatement, hkind, expectEnd_of_atEnd hend]
    exact ⟨_, rfl⟩
  | @directive t ts hkind h =>
    rw [List.forall_mem_cons] at hwell
    obtain ⟨v, hread⟩ := @exists_readOnlyValue stop ts rest h hwell.2 hend
    rcases hkind with hkind | hkind | hkind
    all_goals
      simp only [List.cons_append, readStatement, hkind, hread]
      exact ⟨_, rfl⟩
  | @db t ts hkind h =>
    rw [List.forall_mem_cons] at hwell
    simp only [List.cons_append, readStatement, hkind]
    exact exists_readData h hwell.2 hend
  | @dw t ts hkind h =>
    rw [List.forall_mem_cons] at hwell
    simp only [List.cons_append, readStatement, hkind]
    exact exists_readData h hwell.2 hend
  | @instruction t ts i hkind hi hname h =>
    rw [List.forall_mem_cons] at hwell
    have hlookup := Cpu.lookup_eq_supported_iff.mpr ⟨hi, hname⟩
    simp only [List.cons_append, readStatement, hkind, hlookup]
    exact exists_readInstruction h hwell.2 hend

/-! ### Lines -/

/-- The reader finds the label of the grammar. -/
lemma label_readLabel (ts : List Token) :
    ∃ label, ts = label ++ (readLabel ts).2 ∧ Grammar.Label label (readLabel ts).2 := by
  rw [readLabel.eq_def]
  split
  · rename_i t u us
    split
    · rename_i hname
      split
      · rename_i hcolon
        exact ⟨[t, u], rfl, .colon hname hcolon⟩
      · rename_i hkind
        exact ⟨[t], rfl, .assignment hname (Or.inl hkind)⟩
      · rename_i hkind
        exact ⟨[t], rfl, .assignment hname (Or.inr hkind)⟩
      · rename_i hcolon hequ hset
        refine ⟨[], rfl, .none ?_⟩
        rintro ⟨t', u', us', ⟨⟩, -, hkind⟩
        rcases hkind with hkind | hkind | hkind
        · exact hcolon hkind
        · exact hequ hkind
        · exact hset hkind
    · rename_i hname
      refine ⟨[], rfl, .none ?_⟩
      rintro ⟨t', u', us', ⟨⟩, hkind, -⟩
      exact hname hkind
  · rename_i hshort
    refine ⟨[], rfl, .none ?_⟩
    rintro ⟨t, u, us, heq, -⟩
    exact hshort t u us heq

lemma readLabel_of_label {label : List Token} (h : Grammar.Label label rest) :
    (readLabel (label ++ rest)).2 = rest := by
  cases h with
  | none h =>
    rw [List.nil_append, readLabel.eq_def]
    split
    · rename_i t u us
      split
      · rename_i hname
        split
        · rename_i hkind
          exact (h ⟨t, u, us, rfl, hname, Or.inl hkind⟩).elim
        · rename_i hkind
          exact (h ⟨t, u, us, rfl, hname, Or.inr (Or.inl hkind)⟩).elim
        · rename_i hkind
          exact (h ⟨t, u, us, rfl, hname, Or.inr (Or.inr hkind)⟩).elim
        · rfl
      · rfl
    · rfl
  | colon hname hcolon => simp [readLabel, hname, hcolon]
  | assignment hname hkind =>
    rcases hkind with hkind | hkind <;> simp [readLabel, hname, hkind]

end Reader

/-- A line of well-formed tokens is accepted if and only if it can be derived. -/
lemma SourceLine.read_accepted_iff {cpu : Cpu} {line : SourceLine}
    (hwell : ∀ t ∈ line.body, t.WellFormed) :
    (∃ label statement comment, line.read cpu = .accepted label statement comment) ↔
      Grammar.Line cpu line.body := by
  constructor
  · rintro ⟨label, statement, comment, h⟩
    obtain ⟨front, hbody, hlabel⟩ := Reader.label_readLabel line.body
    have hends := Reader.ends_readStatement cpu line.stop (Reader.readLabel line.body).2
    rw [hbody, List.forall_mem_append] at hwell
    simp only [read] at h
    split at h
    · cases h
    · rename_i hread
      obtain ⟨used, hused, hstatement⟩ := Reader.statement_of_readStatement hwell.2 hread
      rw [hused] at hbody hlabel
      rw [hbody, ← List.append_assoc]
      exact .line hlabel hstatement .none
    · rename_i comment hread
      obtain ⟨used, hused, hstatement⟩ := Reader.statement_of_readStatement hwell.2 hread
      have hkind : comment.kind = .comment := of_decide_eq_true (hends.of_ok hread)
      rw [hused] at hbody hlabel
      rw [hbody, ← List.append_assoc]
      exact .line hlabel hstatement (.comment hkind)
    · cases h
  · intro h
    generalize hbody : line.body = body at h hwell
    cases h with
    | @line label statement comment hlabel hstatement hcomment =>
      rw [List.append_assoc] at hbody
      rw [List.forall_mem_append, List.forall_mem_append] at hwell
      have hrest := Reader.readLabel_of_label hlabel
      rw [← hbody] at hrest
      cases hcomment with
      | none =>
        obtain ⟨s, hread⟩ := @Reader.exists_readStatement line.stop statement [] cpu hstatement
          hwell.1.2 rfl
        exact ⟨(Reader.readLabel line.body).1, s, none, by simp only [read, hrest, hread]⟩
      | @comment t hkind =>
        obtain ⟨s, hread⟩ := @Reader.exists_readStatement line.stop statement [t] cpu hstatement
          hwell.1.2 (decide_eq_true hkind)
        exact ⟨(Reader.readLabel line.body).1, s, some t, by simp only [read, hrest, hread]⟩

/-- A line of a text that is not blank is accepted if and only if its tokens can be derived,
whatever the state it is read in. -/
theorem step_accepts_iff_derivable (a : Assembly) (text : String) (line : SourceLine)
    (hline : line ∈ SourceLine.ofText text) (hbody : line.body ≠ []) :
    (∃ l, (a.step line).records = a.records.push (.line l)) ↔ Grammar.Line a.cpu line.body := by
  rw [← SourceLine.read_accepted_iff (SourceLine.proper_of_mem hline)]
  rcases a.step_eq_cases line with
    ⟨hblank, -⟩ | ⟨first, label, statement, comment, -, hread, heq⟩ |
      ⟨first, label, fragment, failure, -, hread, heq⟩
  · exact (hbody hblank).elim
  · have hrecords : (a.step line).records =
        a.records.push (.line (a.lineOf first.location label statement comment)) := by
      rw [heq, Assembly.accept_eq, Assembly.record, Assembly.execute_records]
    exact ⟨fun _ => ⟨label, statement, comment, hread⟩, fun _ => ⟨_, hrecords⟩⟩
  · rw [heq, (a.reject_frame label fragment failure).2.2.1, hread]
    simp [Array.push_eq_push]

/-- A string of two characters is an item, but no term. -/
theorem step_accepts_iff_derivable_of_lines :
    (∃ line ∈ SourceLine.ofText "X: DB 'ab',-1+Y ; c", Grammar.Line .intel8080 line.body) ∧
      ∃ line ∈ SourceLine.ofText "X: DB 'ab'+1", ¬Grammar.Line .intel8080 line.body := by
  constructor
  · have haccepted : ∃ line ∈ SourceLine.ofText "X: DB 'ab',-1+Y ; c", line.body ≠ [] ∧
        ∃ l ∈ (({} : Assembly).step line).lines,
          (({} : Assembly).step line).records = #[.line l] := by
      decide +kernel
    obtain ⟨line, hline, hbody, l, -, hrecords⟩ := haccepted
    exact ⟨line, hline, (step_accepts_iff_derivable {} _ line hline hbody).mp ⟨l, hrecords⟩⟩
  · have hrejected : ∃ line ∈ SourceLine.ofText "X: DB 'ab'+1", line.body ≠ [] ∧
        (({} : Assembly).step line).lines = [] := by
      decide +kernel
    obtain ⟨line, hline, hbody, hlines⟩ := hrejected
    refine ⟨line, hline, fun hderived => ?_⟩
    obtain ⟨l, hrecords⟩ := (step_accepts_iff_derivable {} _ line hline hbody).mpr hderived
    simp [Assembly.lines, hrecords, Record.line?] at hlines

end MicroAsm
