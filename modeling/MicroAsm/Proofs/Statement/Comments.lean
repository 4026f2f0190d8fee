import MicroAsm.Proofs.Assembly.Rejection
import MicroAsm.Proofs.Statement.Bare

/-!
# Comments behind statements

A reader treats a comment like the end of the line: it takes the same tokens off a line without a
comment as off the line with one behind them, which it leaves. Where something is missing, it finds
the end of the line in the one and the comment in the other.
-/

namespace MicroAsm

/-- The failures are the same, or the first is about the token that ends a line and the second
about the comment in its place. -/
inductive Failure.Finds (stop c : Token) : Failure → Failure → Prop
  | same (f : Failure) : Finds stop c f f
  | comment (what : String) :
    Finds stop c ⟨stop.location, .expected what stop.shown⟩ ⟨c.location, .expected what c.shown⟩

/-- The lines are rejected with failures that are the same but for the comment, or accepted with the
same statement, the second one with the comment. -/
inductive LineReading.Finds (stop c : Token) : LineReading → LineReading → Prop
  | accepted (label : Option Token) (statement : Statement) :
    Finds stop c (.accepted label statement none) (.accepted label statement (some c))
  | rejected (label : Option Token) (fragment : Fragment) {f f' : Failure}
    (h : f.Finds stop c f') :
    Finds stop c (.rejected label fragment f) (.rejected label fragment f')

namespace Reader

/-- Two readers fail in the same way but for the comment, or read the same and leave the same
tokens, the second with the comment behind them. -/
def Leaves (stop c : Token) {α : Type} :
    Except Failure (α × List Token) → Except Failure (α × List Token) → Prop :=
  Corresponds (Failure.Finds stop c) (fun r r' => r' = (r.1, r.2 ++ [c]))

section

variable {stop c : Token} (stop' : Token) (hc : c.kind = .comment)

lemma finds_missing (ts : List Token) (what : String) :
    (missing stop ts what).Finds stop c (missing stop' (ts ++ [c]) what) := by
  cases ts with
  | nil => exact .comment what
  | cons t ts => exact .same _

include hc

lemma atEnd_append_comment (ts : List Token) : atEnd (ts ++ [c]) = atEnd ts := by
  cases ts with
  | nil => simp [atEnd, hc]
  | cons t ts => rfl

lemma finds_expectEnd (ts : List Token) :
    Corresponds (Failure.Finds stop c) Eq (expectEnd stop ts) (expectEnd stop' (ts ++ [c])) := by
  rw [expectEnd, expectEnd, atEnd_append_comment hc]
  split
  · exact .ok rfl
  · exact .error (finds_missing stop' ts _)

/-! ### Values -/

lemma readTerm_comment : readTerm c = .error ⟨c.location, .expected "Value" c.shown⟩ := by
  simp [readTerm, hc]

lemma sign?_comment : sign? c = none := by
  simp [sign?, hc]

lemma leaves_readTerms (negative : Bool) (ts : List Token) :
    Corresponds (Failure.Finds stop c) (fun r r' => r' = (r.1, r.2.1, r.2.2 ++ [c]))
      (readTerms stop negative ts) (readTerms stop' negative (ts ++ [c])) := by
  fun_induction readTerms stop negative ts with
  | case1 negative =>
    simp only [List.nil_append, readTerms, readTerm_comment hc]
    exact .error (.comment _)
  | case2 negative t =>
    simp only [List.cons_append, List.nil_append, readTerms, sign?_comment hc]
    cases readTerm t with
    | error f => exact .error (.same f)
    | ok term => exact .ok rfl
  | case3 negative t op rest f hterm =>
    simp only [List.cons_append, readTerms, hterm]
    exact .error (.same f)
  | case4 negative t op rest term hsign hterm =>
    simp only [List.cons_append, readTerms, hterm, hsign]
    exact .ok rfl
  | case5 negative t op rest term next hsign hterm ih =>
    simp only [List.cons_append, readTerms, hterm, hsign]
    refine ih.map ?_
    rintro ⟨terms, text, left⟩ _ rfl
    rfl

variable (hplace : stop.location = c.location)
include hplace

lemma leaves_readValue (ts : List Token) :
    Leaves stop c (readValue stop ts) (readValue stop' (ts ++ [c])) := by
  cases ts with
  | nil =>
    simp only [readValue, List.nil_append, List.head?_cons, List.head?_nil, Option.bind_some,
      Option.bind_none, sign?_comment hc]
    refine (leaves_readTerms stop' hc false []).map ?_
    rintro ⟨terms, text, left⟩ _ rfl
    simp only [current, List.headD_cons, List.headD_nil, hplace]
  | cons t ts =>
    simp only [readValue, List.cons_append, List.head?_cons, Option.bind_some, List.tail_cons]
    cases sign? t with
    | some negative =>
      refine (leaves_readTerms stop' hc negative ts).map ?_
      rintro ⟨terms, text, left⟩ _ rfl
      rfl
    | none =>
      refine (leaves_readTerms stop' hc false (t :: ts)).map ?_
      rintro ⟨terms, text, left⟩ _ rfl
      rfl

lemma leaves_readOnlyValue (ts : List Token) :
    Leaves stop c (readOnlyValue stop ts) (readOnlyValue stop' (ts ++ [c])) := by
  refine (leaves_readValue stop' hc hplace ts).bind ?_
  rintro ⟨v, rest⟩ _ rfl
  exact (finds_expectEnd stop' hc rest).bind fun _ _ _ => .ok rfl

/-! ### Items and operands -/

omit hplace in
lemma isStringItem_append_comment (width : Width) (ts : List Token) :
    isStringItem width (ts ++ [c]) = isStringItem width ts := by
  cases width with
  | word => rfl
  | byte =>
    cases ts with
    | nil => simp [isStringItem, hc]
    | cons t ts =>
      cases ts with
      | nil => simp [isStringItem, hc]
      | cons u ts => rfl

lemma leaves_readItem (width : Width) (ts : List Token) :
    Leaves stop c (readItem stop width ts) (readItem stop' width (ts ++ [c])) := by
  rw [readItem, readItem, isStringItem_append_comment hc]
  split
  · rename_i hstring
    cases ts with
    | nil => cases width <;> cases hstring
    | cons t ts => exact .ok rfl
  · refine (leaves_readValue stop' hc hplace ts).map ?_
    rintro ⟨v, rest⟩ _ rfl
    rfl

lemma leaves_readItems (width : Width) (ts : List Token) :
    (readItems stop' width (ts ++ [c])).1 = (readItems stop width ts).1 ∧
      Corresponds (Failure.Finds stop c) (fun rest rest' => rest' = rest ++ [c])
        (readItems stop width ts).2 (readItems stop' width (ts ++ [c])).2 := by
  have hcomma : ¬c.kind = .comma := by simp [hc]
  fun_induction readItems stop width ts with
  | case1 ts f hread =>
    obtain ⟨f', hread', hf⟩ := (leaves_readItem stop' hc hplace width ts).of_error hread
    rw [readItems_eq, hread']
    exact ⟨rfl, .error hf⟩
  | case2 ts item comma rest hread hkind hlt items result heq ih =>
    obtain ⟨_, hread', rfl⟩ := (leaves_readItem stop' hc hplace width ts).of_ok hread
    rw [heq] at ih
    rw [readItems_eq, hread']
    simp only [List.cons_append, hkind, if_true]
    exact ⟨congrArg (item :: ·) ih.1, ih.2⟩
  | case3 ts item comma rest hread hkind =>
    obtain ⟨_, hread', rfl⟩ := (leaves_readItem stop' hc hplace width ts).of_ok hread
    rw [readItems_eq, hread']
    simp only [List.cons_append, if_neg hkind]
    exact ⟨trivial, .ok rfl⟩
  | case4 ts item hread =>
    obtain ⟨_, hread', rfl⟩ := (leaves_readItem stop' hc hplace width ts).of_ok hread
    rw [readItems_eq, hread']
    simp only [List.nil_append, if_neg hcomma]
    exact ⟨trivial, .ok rfl⟩

lemma leaves_readArgument (kind : OperandKind) (ts : List Token) :
    Leaves stop c (readArgument stop kind ts) (readArgument stop' kind (ts ++ [c])) := by
  cases kind with
  | register | pair =>
    cases ts with
    | nil =>
      simp only [List.nil_append, readArgument, hc, reduceCtorEq, if_false]
      exact .error (.comment _)
    | cons t ts =>
      simp only [List.cons_append, readArgument]
      split
      · exact .ok rfl
      · exact .error (.same _)
  | byte | word | address | restartCode =>
    refine (leaves_readValue stop' hc hplace ts).map ?_
    rintro ⟨v, rest⟩ _ rfl
    rfl

lemma leaves_readArguments (kinds : List OperandKind) (ts : List Token) :
    (readArguments stop' kinds (ts ++ [c])).1 = (readArguments stop kinds ts).1 ∧
      Corresponds (Failure.Finds stop c) (fun rest rest' => rest' = rest ++ [c])
        (readArguments stop kinds ts).2 (readArguments stop' kinds (ts ++ [c])).2 := by
  have hcomma : ¬c.kind = .comma := by simp [hc]
  fun_induction readArguments stop kinds ts with
  | case1 ts => exact ⟨rfl, .ok rfl⟩
  | case2 kind ts f hread =>
    obtain ⟨f', hread', hf⟩ := (leaves_readArgument stop' hc hplace kind ts).of_error hread
    rw [readArguments, hread']
    exact ⟨rfl, .error hf⟩
  | case3 kind ts argument rest hread =>
    obtain ⟨_, hread', rfl⟩ := (leaves_readArgument stop' hc hplace kind ts).of_ok hread
    rw [readArguments, hread']
    exact ⟨rfl, .ok rfl⟩
  | case4 kind kinds ts hkinds f hread =>
    obtain ⟨f', hread', hf⟩ := (leaves_readArgument stop' hc hplace kind ts).of_error hread
    rw [readArguments.eq_3 _ _ _ _ hkinds, hread']
    exact ⟨rfl, .error hf⟩
  | case5 kind kinds ts hkinds argument comma rest hread hkind arguments result heq ih =>
    obtain ⟨_, hread', rfl⟩ := (leaves_readArgument stop' hc hplace kind ts).of_ok hread
    rw [heq] at ih
    simp only [readArguments.eq_3 _ _ _ _ hkinds, hread', List.cons_append, hkind, if_true]
    exact ⟨congrArg (argument :: ·) ih.1, ih.2⟩
  | case6 kind kinds ts hkinds argument comma rest hread hkind =>
    obtain ⟨_, hread', rfl⟩ := (leaves_readArgument stop' hc hplace kind ts).of_ok hread
    simp only [readArguments.eq_3 _ _ _ _ hkinds, hread', List.cons_append, if_neg hkind]
    exact ⟨trivial, .error (.same _)⟩
  | case7 kind kinds ts hkinds argument hread =>
    obtain ⟨_, hread', rfl⟩ := (leaves_readArgument stop' hc hplace kind ts).of_ok hread
    simp only [readArguments.eq_3 _ _ _ _ hkinds, hread', List.nil_append, if_neg hcomma]
    exact ⟨trivial, .error (.comment _)⟩

/-! ### Statements -/

/-- Statements that are read the same, the second with the comment behind it, or fragments that are
the same with failures that are the same but for the comment. -/
def LeavesStatement (stop c : Token) : StatementResult → StatementResult → Prop :=
  Corresponds (fun e e' => e'.1 = e.1 ∧ e.2.Finds stop c e'.2)
    (fun r r' => r' = (r.1, r.2 ++ [c]))

omit hplace in
lemma leaves_expectEnd (ts : List Token) (statement : Statement) (fragment : Fragment) :
    LeavesStatement stop c
      (match expectEnd stop ts with
        | .ok () => .ok (statement, ts)
        | .error f => .error (fragment, f))
      (match expectEnd stop' (ts ++ [c]) with
        | .ok () => .ok (statement, ts ++ [c])
        | .error f => .error (fragment, f)) := by
  cases hend : expectEnd stop ts with
  | error f =>
    obtain ⟨f', hend', hf⟩ := (finds_expectEnd stop' hc ts).of_error hend
    rw [hend']
    exact .error ⟨rfl, hf⟩
  | ok _ =>
    obtain ⟨_, hend', -⟩ := (finds_expectEnd stop' hc ts).of_ok hend
    rw [hend']
    exact .ok rfl

/-- A directive with one expression. -/
lemma leaves_directive (ts : List Token) (statement : Value → Statement) (fragment : Fragment) :
    LeavesStatement stop c
      (match readOnlyValue stop ts with
        | .ok (v, rest) => .ok (statement v, rest)
        | .error f => .error (fragment, f))
      (match readOnlyValue stop' (ts ++ [c]) with
        | .ok (v, rest) => .ok (statement v, rest)
        | .error f => .error (fragment, f)) := by
  cases hread : readOnlyValue stop ts with
  | error f =>
    obtain ⟨f', hread', hf⟩ := (leaves_readOnlyValue stop' hc hplace ts).of_error hread
    rw [hread']
    exact .error ⟨rfl, hf⟩
  | ok r =>
    obtain ⟨_, hread', rfl⟩ := (leaves_readOnlyValue stop' hc hplace ts).of_ok hread
    rw [hread']
    exact .ok rfl

omit hplace in
lemma leaves_readCpu (location : Location) (ts : List Token) :
    LeavesStatement stop c (readCpu stop location ts) (readCpu stop' location (ts ++ [c])) := by
  cases ts with
  | nil =>
    simp only [List.nil_append, readCpu, hc, reduceCtorEq, or_self, if_false]
    exact .error ⟨rfl, .comment _⟩
  | cons t ts =>
    simp only [List.cons_append, readCpu]
    split
    · exact leaves_expectEnd stop' hc ts _ _
    · exact .error ⟨rfl, .same _⟩

lemma leaves_readData (width : Width) (location : Location) (ts : List Token) :
    LeavesStatement stop c (readData stop width location ts)
      (readData stop' width location (ts ++ [c])) := by
  obtain ⟨hitems, hresult⟩ := leaves_readItems stop' hc hplace width ts
  simp only [readData, hitems]
  cases hread : (readItems stop width ts).2 with
  | error f =>
    obtain ⟨f', hread', hf⟩ := hresult.of_error hread
    simp only [hread']
    exact .error ⟨rfl, hf⟩
  | ok rest =>
    obtain ⟨_, hread', rfl⟩ := hresult.of_ok hread
    simp only [hread']
    exact leaves_expectEnd stop' hc rest _ _

lemma leaves_readInstruction (i : Instruction) (location : Location) (ts : List Token) :
    LeavesStatement stop c (readInstruction stop i location ts)
      (readInstruction stop' i location (ts ++ [c])) := by
  obtain ⟨harguments, hresult⟩ := leaves_readArguments stop' hc hplace i.family.operands ts
  simp only [readInstruction, harguments]
  cases hread : (readArguments stop i.family.operands ts).2 with
  | error f =>
    obtain ⟨f', hread', hf⟩ := hresult.of_error hread
    simp only [hread']
    exact .error ⟨rfl, hf⟩
  | ok rest =>
    obtain ⟨_, hread', rfl⟩ := hresult.of_ok hread
    simp only [hread']
    exact leaves_expectEnd stop' hc rest _ _

lemma leaves_readStatement (cpu : Cpu) (ts : List Token) :
    LeavesStatement stop c (readStatement cpu stop ts) (readStatement cpu stop' (ts ++ [c])) := by
  cases ts with
  | nil =>
    simp only [List.nil_append, readStatement, hc, hplace]
    exact .ok rfl
  | cons t ts =>
    have hopcode : LeavesStatement stop c (.error (.nothing, missing stop (t :: ts) "Opcode"))
        (.error (.nothing, missing stop' (t :: (ts ++ [c])) "Opcode")) := .error ⟨rfl, .same _⟩
    simp only [List.cons_append, readStatement]
    cases t.kind with
    | comment => exact .ok rfl
    | equ | set | org => exact leaves_directive stop' hc hplace ts _ _
    | cpu => exact leaves_readCpu stop' hc _ ts
    | endUnit => exact leaves_expectEnd stop' hc ts _ _
    | db | dw => exact leaves_readData stop' hc hplace _ _ ts
    | identifier =>
      simp only
      split
      · exact leaves_readInstruction stop' hc hplace _ _ ts
      · exact hopcode
      · exact .error ⟨rfl, .same _⟩
    | _ => exact hopcode

omit hplace in
lemma readLabel_append_comment (ts : List Token) :
    readLabel (ts ++ [c]) = ((readLabel ts).1, (readLabel ts).2 ++ [c]) := by
  match ts with
  | [] => rfl
  | [t] =>
    simp only [List.cons_append, List.nil_append, readLabel, hc]
    split <;> rfl
  | t :: u :: rest =>
    simp only [List.cons_append, readLabel]
    split
    · split <;> rfl
    · rfl

end

/-- Nothing is left behind a statement on a line without a comment. -/
lemma rest_of_readStatement {cpu : Cpu} {stop : Token} {ts rest : List Token}
    {statement : Statement} (hts : ∀ t ∈ ts, t.kind ≠ .comment)
    (h : readStatement cpu stop (readLabel ts).2 = .ok (statement, rest)) : rest = [] := by
  cases rest with
  | nil => rfl
  | cons t rest =>
    have hkind : t.kind = .comment := by
      simpa [atEnd] using (ends_readStatement cpu stop (readLabel ts).2).of_ok h
    have hsuffix := (stays_readStatement cpu stop (readLabel ts).2).of_ok h
    exact absurd hkind (hts t ((hsuffix.trans (readLabel_suffix ts)).subset List.mem_cons_self))

/-- Only a comment has no statement in front. -/
lemma comment_of_readStatement {cpu : Cpu} {stop t : Token} {ts rest : List Token} {l : Location}
    (h : readStatement cpu stop (t :: ts) = .ok (.empty l, rest)) : t.kind = .comment := by
  simp only [readStatement] at h
  split at h
  · assumption
  · split at h <;> cases h
  · split at h <;> cases h
  · split at h <;> cases h
  · obtain ⟨name, heq⟩ := cpu_of_readCpu h
    cases heq
  · split at h <;> cases h
  · obtain ⟨items, heq⟩ := data_of_readData h
    cases heq
  · obtain ⟨items, heq⟩ := data_of_readData h
    cases heq
  · split at h
    · obtain ⟨arguments, heq, -⟩ := instruction_of_readInstruction h
      cases heq
    · cases h
    · cases h
  · cases h

lemma readLabel_of_none {ts : List Token} (h : (readLabel ts).1 = none) :
    (readLabel ts).2 = ts := by
  revert h
  fun_cases readLabel ts <;> simp

end Reader

namespace SourceLine

variable {cpu : Cpu}

/-- A line is read like the line without the comment behind it and with its end in the place of
the comment. -/
lemma finds_read (cpu : Cpu) {ts : List Token} {stop c : Token} (stop' : Token)
    (hc : c.kind = .comment) (hplace : stop.location = c.location)
    (hts : ∀ t ∈ ts, t.kind ≠ .comment) :
    (read cpu ⟨ts, stop⟩).Finds stop c (read cpu ⟨ts ++ [c], stop'⟩) := by
  have hleaves := Reader.leaves_readStatement stop' hc hplace cpu (Reader.readLabel ts).2
  simp only [read, Reader.readLabel_append_comment hc]
  cases hread : Reader.readStatement cpu stop (Reader.readLabel ts).2 with
  | error e =>
    obtain ⟨⟨fragment, f'⟩, hread', rfl, hf⟩ := hleaves.of_error hread
    rw [hread']
    exact .rejected _ _ hf
  | ok r =>
    obtain ⟨statement, rest⟩ := r
    obtain ⟨_, hread', rfl⟩ := hleaves.of_ok hread
    obtain rfl := Reader.rest_of_readStatement hts hread
    rw [hread']
    exact .accepted _ _

/-- A line without a comment that is not blank has a label or a statement. -/
lemma work_of_read {line : SourceLine} {label comment : Option Token} {statement : Statement}
    (hbody : line.body ≠ []) (hwords : ∀ t ∈ line.body, t.kind ≠ .comment)
    (h : line.read cpu = .accepted label statement comment) :
    comment = none ∧ (label = none → ∀ l, statement ≠ .empty l) := by
  simp only [read] at h
  split at h
  · cases h
  · rename_i hread
    cases h
    refine ⟨rfl, ?_⟩
    rintro hlabel l rfl
    rw [Reader.readLabel_of_none hlabel] at hread
    obtain ⟨t, ts, hts⟩ := List.exists_cons_of_ne_nil hbody
    rw [hts] at hread hwords
    exact hwords t List.mem_cons_self (Reader.comment_of_readStatement hread)
  · rename_i hread
    cases Reader.rest_of_readStatement hwords hread
  · cases h

end SourceLine

end MicroAsm
