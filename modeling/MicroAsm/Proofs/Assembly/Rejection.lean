import MicroAsm.Proofs.Assembly.Accounting
import MicroAsm.Proofs.Tree.Growth

/-!
# What a rejected line leaves alone

A statement does nothing before its whole line has been read, with the comment behind it. So a line
that is turned down changes neither the code nor the processor, and the lines that were accepted
stay as they are. All that is left of it is its label, if the statement is none that gives its
label a value of its own, and messages, the failure behind all others.
-/

namespace MicroAsm

namespace Reader

variable {stop : Token} {ts rest : List Token}

lemma yields_atEnd (stop : Token) (ts : List Token) :
    Yields (fun _ => atEnd ts = true) (fun _ => True) (expectEnd stop ts) := by
  rw [expectEnd]
  split
  · assumption
  · trivial

/-- Nothing but a comment is left behind a statement that was read, and a statement that could not
be read is a fragment of the given kind. -/
def Ends (fits : Fragment → Prop) : StatementResult → Prop :=
  Yields (fun result => atEnd result.2 = true) (fun e => fits e.1)

variable {fits : Fragment → Prop}

lemma ends_expectEnd (stop : Token) (rest : List Token) (statement : Statement)
    {fragment : Fragment} (hfragment : fits fragment) :
    Ends fits
      (match expectEnd stop rest with
      | .ok () => .ok (statement, rest)
      | .error f => .error (fragment, f) : StatementResult) := by
  cases hend : expectEnd stop rest with
  | ok _ => exact (yields_atEnd stop rest).of_ok hend
  | error f => exact hfragment

lemma ends_directive (stop : Token) (ts : List Token) (statement : Value → Statement)
    {fragment : Fragment} (hfragment : fits fragment) :
    Ends fits
      (match readOnlyValue stop ts with
      | .ok (v, rest) => .ok (statement v, rest)
      | .error f => .error (fragment, f) : StatementResult) := by
  cases hread : readOnlyValue stop ts with
  | error f => exact hfragment
  | ok result =>
    obtain ⟨⟨v, rest⟩, -, h⟩ := bind_eq_ok_iff.mp hread
    obtain ⟨u, hend, h⟩ := bind_eq_ok_iff.mp h
    cases h
    exact (yields_atEnd stop rest).of_ok hend

lemma ends_readCpu (stop : Token) (location : Location) (ts : List Token)
    (hfragment : fits .nothing) : Ends fits (readCpu stop location ts) := by
  cases ts with
  | nil => exact hfragment
  | cons t ts =>
    simp only [readCpu]
    split
    · exact ends_expectEnd stop ts _ hfragment
    · exact hfragment

lemma ends_readData (stop : Token) (width : Width) (location : Location) (ts : List Token)
    (hfragment : ∀ items, fits (.data width location items)) :
    Ends fits (readData stop width location ts) := by
  simp only [readData]
  cases (readItems stop width ts).2 with
  | error f => exact hfragment _
  | ok rest => exact ends_expectEnd stop rest _ (hfragment _)

lemma ends_readInstruction (stop : Token) (i : Instruction) (location : Location)
    (ts : List Token) (hfragment : ∀ arguments, fits (.instruction i location arguments)) :
    Ends fits (readInstruction stop i location ts) := by
  simp only [readInstruction]
  cases (readArguments stop i.family.operands ts).2 with
  | error f => exact hfragment _
  | ok rest => exact ends_expectEnd stop rest _ (hfragment _)

end Reader

/-- The statement gives its label a value of its own. -/
def TokenKind.placesLabel : TokenKind → Bool
  | equ | set | org => true
  | _ => false

/-- The fragment is one of a statement that gives its label a value of its own. -/
def Fragment.placesLabel : Fragment → Bool
  | .org _ | .assign _ _ => true
  | _ => false

namespace Reader

/-- The first token of a statement tells whether it gives its label a value of its own. -/
lemma ends_readStatement (cpu : Cpu) (stop : Token) (ts : List Token) :
    Ends (fun fragment => fragment.placesLabel = ts.head?.any (·.kind.placesLabel))
      (readStatement cpu stop ts) := by
  cases ts with
  | nil => rfl
  | cons t ts =>
    simp only [readStatement, List.head?_cons, Option.any_some]
    cases hkind : t.kind with
    | comment => simp [Ends, Yields, atEnd, hkind]
    | equ | set | org => exact ends_directive stop ts _ rfl
    | cpu => exact ends_readCpu stop _ ts rfl
    | endUnit => exact ends_expectEnd stop ts _ rfl
    | db | dw => exact ends_readData stop _ _ ts fun _ => rfl
    | identifier =>
      simp only
      split
      · exact ends_readInstruction stop _ _ ts fun _ => rfl
      · rfl
      · rfl
    | _ => rfl

end Reader

/-- A line that was accepted has a statement that can be read, and nothing but its comment behind
it. -/
lemma SourceLine.readStatement_of_accepted {cpu : Cpu} {line : SourceLine}
    {label comment : Option Token} {statement : Statement}
    (h : line.read cpu = .accepted label statement comment) :
    (Reader.readLabel line.body).1 = label ∧
      Reader.readStatement cpu line.stop (Reader.readLabel line.body).2 =
        .ok (statement, comment.toList) := by
  simp only [read] at h
  split at h
  · cases h
  · rename_i hread
    cases h
    exact ⟨rfl, hread⟩
  · rename_i hread
    cases h
    exact ⟨rfl, hread⟩
  · cases h

/-- A line that is turned down has a statement that cannot be read: behind any other there is at
most a comment, and nothing is behind a comment. -/
lemma SourceLine.readStatement_of_rejected {cpu : Cpu} {line : SourceLine} {label : Option Token}
    {fragment : Fragment} {failure : Failure}
    (hcomment : ∀ t ∈ line.body.dropLast, t.kind ≠ .comment)
    (h : line.read cpu = .rejected label fragment failure) :
    (Reader.readLabel line.body).1 = label ∧
      Reader.readStatement cpu line.stop (Reader.readLabel line.body).2 =
        .error (fragment, failure) := by
  have hends := Reader.ends_readStatement cpu line.stop (Reader.readLabel line.body).2
  have hstays := Reader.stays_readStatement cpu line.stop (Reader.readLabel line.body).2
  simp only [read] at h
  split at h
  · rename_i hread
    cases h
    exact ⟨rfl, hread⟩
  · cases h
  · cases h
  · rename_i t rest hne hread
    exfalso
    have hkind : t.kind = .comment := of_decide_eq_true (hends.of_ok hread)
    obtain ⟨front, hbody⟩ := (hstays.of_ok hread).trans (Reader.readLabel_suffix line.body)
    refine hcomment t ?_ hkind
    rw [← hbody, List.dropLast_append_of_ne_nil (by simp)]
    refine List.mem_append_right front ?_
    cases rest with
    | nil => exact (hne rfl).elim
    | cons u rest => exact List.mem_cons_self

namespace Assembly

variable (a : Assembly) (label : Option Token) (fragment : Fragment) (failure : Failure)

variable {a label fragment failure} in
lemma step_of_rejected {line : SourceLine} (h : line.read a.cpu = .rejected label fragment failure) :
    line.body ≠ [] ∧ a.step line = a.reject label fragment failure := by
  rcases a.step_eq_cases line with
    ⟨hbody, -⟩ | ⟨first, label', statement, comment, -, hread, -⟩ |
      ⟨first, label', fragment', failure', hfirst, hread, heq⟩
  · rw [read_of_body_eq_nil _ hbody] at h
    cases h
  · cases h.symm.trans hread
  · cases h.symm.trans hread
    exact ⟨List.ne_nil_of_mem (List.mem_of_head? hfirst), heq⟩

lemma symbols_defineLabel (value : UInt16) :
    (a.defineLabel label value).symbols = a.symbols ∨
      ∃ t, label = some t ∧ a.symbols.get? t.value = none ∧
        (a.defineLabel label value).symbols = a.symbols.insert ⟨t.value, value, .label⟩ := by
  cases label with
  | none => exact Or.inl rfl
  | some t =>
    rw [defineLabel]
    cases hadd : a.symbols.add t.value value .label with
    | error e => exact Or.inl rfl
    | ok symbols =>
      obtain ⟨hnone, rfl⟩ := SymbolTable.add_eq_ok hadd
      exact Or.inr ⟨t, rfl, hnone, rfl⟩

/-- The label of a rejected line may be defined, unless its statement gives it a value. -/
lemma symbols_reject :
    (a.reject label fragment failure).symbols = a.symbols ∨
      ∃ t, label = some t ∧ fragment.placesLabel = false ∧ a.symbols.get? t.value = none ∧
        (a.reject label fragment failure).symbols =
          a.symbols.insert ⟨t.value, a.code.locationCounter, .label⟩ := by
  have hlabel := a.symbols_defineLabel label a.code.locationCounter
  have hdefined : (a.reject label fragment failure).symbols =
      (a.defineLabel label a.code.locationCounter).symbols ∧ fragment.placesLabel = false ∨
      (a.reject label fragment failure).symbols = a.symbols := by
    cases fragment with
    | org location | assign how location => exact Or.inr rfl
    | nothing | data width location items | instruction i location arguments =>
      exact Or.inl ⟨rfl, rfl⟩
  rcases hdefined with ⟨hsymbols, hplaces⟩ | hsymbols
  · rw [hsymbols]
    rcases hlabel with heq | ⟨t, rfl, hnone, heq⟩
    · exact Or.inl heq
    · exact Or.inr ⟨t, rfl, hplaces, hnone, heq⟩
  · exact Or.inl hsymbols

/-- The syntax tree of the lines so far. -/
def tree : SyntaxTree :=
  SyntaxTree.ofRecords a.records.toList

lemma shows_reject : a.tree.Shows (a.reject label fragment failure).tree := by
  have htree : (a.reject label fragment failure).tree =
      a.tree.plantRemnant (a.remnantOf label fragment) := by
    rw [tree, (a.reject_frame label fragment failure).2.2.1, Array.toList_push,
      SyntaxTree.ofRecords, List.foldl_append]
    rfl
  rw [htree]
  exact SyntaxTree.shows_plantRemnant (SyntaxTree.linked_ofRecords _) _

/-- The messages of a rejected line stand behind those before, and the failure behind all. -/
lemma messages_reject :
    ∃ ms, (∀ m ∈ ms, m.IsComplaint) ∧
      (a.reject label fragment failure).log.messages.toList =
        a.log.messages.toList ++ ms ++ [failure.message] := by
  obtain ⟨log, ⟨ms, hms, rfl⟩, hlog⟩ := a.complains_reject label fragment failure
  refine ⟨ms, hms, ?_⟩
  rw [hlog, Log.messages_report, Log.messages_reportAll]

end Assembly

end MicroAsm
