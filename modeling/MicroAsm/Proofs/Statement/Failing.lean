import MicroAsm.Proofs.Outcome
import MicroAsm.Proofs.Token.Lines
import MicroAsm.Statement.Reader

/-!
# Where a line goes wrong

A reader takes tokens off the front of a line and leaves the others. If it fails, it blames one of
the tokens it was given or the token that ends the line. So the failure of a rejected line is
located at a token of that line.
-/

namespace MicroAsm

/-- The failure is located at one of the tokens or at the one that ends the line. -/
def Failure.Blames (failure : Failure) (ts : List Token) (stop : Token) : Prop :=
  ∃ t ∈ ts ++ [stop], failure.location = t.location

lemma Failure.Blames.mono {failure : Failure} {ts rest : List Token} {stop : Token}
    (h : failure.Blames rest stop) (hrest : rest <:+ ts) : failure.Blames ts stop := by
  obtain ⟨t, ht, hlocation⟩ := h
  refine ⟨t, ?_, hlocation⟩
  rw [List.mem_append] at ht ⊢
  exact ht.imp_left fun ht => hrest.subset ht

lemma Failure.blames_head {failure : Failure} {t : Token} {ts : List Token} {stop : Token}
    (h : failure.location = t.location) : failure.Blames (t :: ts) stop :=
  ⟨t, List.mem_cons_self, h⟩

namespace Reader

/-- A reader of these tokens leaves the last of them, or blames one of them or the one that ends
the line. The functions say where the failure and the tokens that are left stand in its result. -/
def Stays {ε α : Type} (ts : List Token) (stop : Token) (failure : ε → Failure)
    (left : α → List Token) : Except ε α → Prop :=
  Yields (fun result => left result <:+ ts) (fun e => (failure e).Blames ts stop)

variable {stop : Token} {ts rest : List Token}

lemma Stays.mono {ε α : Type} {failure : ε → Failure} {left : α → List Token}
    {result : Except ε α} (h : Stays rest stop failure left result) (hrest : rest <:+ ts) :
    Stays ts stop failure left result :=
  h.imp (fun _ hleft => hleft.trans hrest) (fun _ hblames => hblames.mono hrest)

lemma blames_missing (stop : Token) (ts : List Token) (what : String) :
    (missing stop ts what).Blames ts stop := by
  cases ts with
  | nil => exact ⟨stop, List.mem_singleton_self stop, rfl⟩
  | cons t ts => exact Failure.blames_head rfl

lemma yields_expectEnd (stop : Token) (ts : List Token) :
    Yields (fun _ => True) (fun f : Failure => f.Blames ts stop) (expectEnd stop ts) := by
  rw [expectEnd]
  split
  · trivial
  · exact blames_missing stop ts _

/-! ### Values -/

lemma location_of_readTerm {t : Token} {f : Failure} (h : readTerm t = .error f) :
    f.location = t.location := by
  simp only [readTerm] at h
  split at h
  · split at h
    · cases h
    · cases h
      rfl
  · cases h
  · cases h
  · split at h
    · cases h
    · cases h
      rfl
  · cases h
    rfl

lemma stays_readTerms (stop : Token) (negative : Bool) (ts : List Token) :
    Stays ts stop id (·.2.2) (readTerms stop negative ts) := by
  fun_induction readTerms stop negative ts with
  | case1 negative => exact blames_missing stop [] _
  | case2 negative t =>
    cases hterm : readTerm t with
    | ok term => exact List.nil_suffix
    | error f => exact Failure.blames_head (location_of_readTerm hterm)
  | case3 negative t op rest f hterm => exact Failure.blames_head (location_of_readTerm hterm)
  | case4 negative t op rest term => exact List.suffix_cons t (op :: rest)
  | case5 negative t op rest term next hterm hsign ih =>
    have hrest : rest <:+ t :: op :: rest := (List.suffix_cons op rest).trans (List.suffix_cons t _)
    refine Stays.mono ?_ hrest
    exact ih.map fun _ h => h

lemma stays_readValue (stop : Token) (ts : List Token) :
    Stays ts stop id Prod.snd (readValue stop ts) := by
  rw [readValue]
  split
  · refine Stays.mono ?_ (List.tail_suffix ts)
    exact (stays_readTerms stop _ ts.tail).map fun _ h => h
  · exact (stays_readTerms stop false ts).map fun _ h => h

lemma stays_readOnlyValue (stop : Token) (ts : List Token) :
    Stays ts stop id Prod.snd (readOnlyValue stop ts) := by
  refine (stays_readValue stop ts).bind ?_
  rintro ⟨v, rest⟩ hsuffix
  have hend : Yields (fun _ => True) (fun f : Failure => f.Blames ts stop) (expectEnd stop rest) :=
    (yields_expectEnd stop rest).imp (fun _ h => h) (fun _ h => h.mono hsuffix)
  exact hend.bind fun _ _ => hsuffix

/-! ### Items and operands -/

lemma stays_readItem (stop : Token) (width : Width) (ts : List Token) :
    Stays ts stop id Prod.snd (readItem stop width ts) := by
  rw [readItem]
  split
  · exact List.tail_suffix ts
  · exact (stays_readValue stop ts).map fun _ h => h

lemma stays_readItems (stop : Token) (width : Width) (ts : List Token) :
    Stays ts stop id id (readItems stop width ts).2 := by
  fun_induction readItems stop width ts with
  | case1 ts f hread => exact (stays_readItem stop width ts).of_error hread
  | case2 ts item comma rest hread hcomma hlt items result heq ih =>
    have hsuffix := (stays_readItem stop width ts).of_ok hread
    rw [heq] at ih
    exact ih.mono ((List.suffix_cons comma rest).trans hsuffix)
  | case3 ts item comma rest hread hcomma => exact (stays_readItem stop width ts).of_ok hread
  | case4 ts item hread => exact List.nil_suffix

lemma stays_readArgument (stop : Token) (kind : OperandKind) (ts : List Token) :
    Stays ts stop id Prod.snd (readArgument stop kind ts) := by
  cases kind with
  | register | pair =>
    cases ts with
    | nil => exact blames_missing stop [] _
    | cons t ts =>
      simp only [readArgument]
      split
      · exact List.suffix_cons t ts
      · exact blames_missing stop (t :: ts) _
  | byte | word | address | restartCode => exact (stays_readValue stop ts).map fun _ h => h

lemma stays_readArguments (stop : Token) (kinds : List OperandKind) (ts : List Token) :
    Stays ts stop id id (readArguments stop kinds ts).2 := by
  fun_induction readArguments stop kinds ts with
  | case1 ts => exact List.suffix_refl ts
  | case2 kind ts f hread => exact (stays_readArgument stop kind ts).of_error hread
  | case3 kind ts argument rest hread => exact (stays_readArgument stop kind ts).of_ok hread
  | case4 kind kinds ts hkinds f hread => exact (stays_readArgument stop kind ts).of_error hread
  | case5 kind kinds ts hkinds argument comma rest hread hcomma arguments result heq ih =>
    have hsuffix := (stays_readArgument stop kind ts).of_ok hread
    rw [heq] at ih
    exact ih.mono ((List.suffix_cons comma rest).trans hsuffix)
  | case6 kind kinds ts hkinds argument comma rest hread hcomma =>
    have hsuffix := (stays_readArgument stop kind ts).of_ok hread
    exact (blames_missing stop (comma :: rest) _).mono hsuffix
  | case7 kind kinds ts hkinds argument hread =>
    exact (blames_missing stop [] _).mono List.nil_suffix

/-! ### Statements -/

/-- A statement that was read has to be over. -/
lemma stays_expectEnd (hrest : rest <:+ ts) (statement : Statement) (fragment : Fragment) :
    Stays ts stop Prod.snd Prod.snd
      (match expectEnd stop rest with
      | .ok () => .ok (statement, rest)
      | .error f => .error (fragment, f) : StatementResult) := by
  cases hend : expectEnd stop rest with
  | ok _ => exact hrest
  | error f => exact ((yields_expectEnd stop rest).of_error hend).mono hrest

lemma stays_readCpu (stop : Token) (location : Location) (ts : List Token) :
    Stays ts stop Prod.snd Prod.snd (readCpu stop location ts) := by
  cases ts with
  | nil => exact blames_missing stop [] _
  | cons t ts =>
    simp only [readCpu]
    split
    · exact stays_expectEnd (List.suffix_cons t ts) _ _
    · exact blames_missing stop (t :: ts) _

lemma stays_readData (stop : Token) (width : Width) (location : Location) (ts : List Token) :
    Stays ts stop Prod.snd Prod.snd (readData stop width location ts) := by
  have hitems := stays_readItems stop width ts
  simp only [readData]
  cases hresult : (readItems stop width ts).2 with
  | error f => exact hitems.of_error hresult
  | ok rest => exact stays_expectEnd (hitems.of_ok hresult) _ _

lemma stays_readInstruction (stop : Token) (i : Instruction) (location : Location)
    (ts : List Token) : Stays ts stop Prod.snd Prod.snd (readInstruction stop i location ts) := by
  have harguments := stays_readArguments stop i.family.operands ts
  simp only [readInstruction]
  cases hresult : (readArguments stop i.family.operands ts).2 with
  | error f => exact harguments.of_error hresult
  | ok rest => exact stays_expectEnd (harguments.of_ok hresult) _ _

/-- A directive with one expression. -/
lemma stays_directive (stop : Token) (ts : List Token) (statement : Value → Statement)
    (fragment : Fragment) :
    Stays ts stop Prod.snd Prod.snd
      (match readOnlyValue stop ts with
      | .ok (v, rest) => .ok (statement v, rest)
      | .error f => .error (fragment, f) : StatementResult) := by
  have hvalue := stays_readOnlyValue stop ts
  cases hread : readOnlyValue stop ts with
  | ok result => exact hvalue.of_ok hread
  | error f => exact hvalue.of_error hread

lemma stays_readStatement (cpu : Cpu) (stop : Token) (ts : List Token) :
    Stays ts stop Prod.snd Prod.snd (readStatement cpu stop ts) := by
  cases ts with
  | nil => exact List.suffix_refl []
  | cons t ts =>
    have hcons := List.suffix_cons t ts
    simp only [readStatement]
    split
    · exact List.suffix_refl (t :: ts)
    · exact (stays_directive stop ts _ _).mono hcons
    · exact (stays_directive stop ts _ _).mono hcons
    · exact (stays_directive stop ts _ _).mono hcons
    · exact (stays_readCpu stop _ ts).mono hcons
    · exact stays_expectEnd hcons _ _
    · exact (stays_readData stop _ _ ts).mono hcons
    · exact (stays_readData stop _ _ ts).mono hcons
    · split
      · exact (stays_readInstruction stop _ _ ts).mono hcons
      · exact blames_missing stop (t :: ts) _
      · exact Failure.blames_head rfl
    · exact blames_missing stop (t :: ts) _

lemma readLabel_suffix (ts : List Token) : (readLabel ts).2 <:+ ts := by
  fun_cases readLabel ts with
  | case1 t u rest hkind hcolon =>
    exact (List.suffix_cons u rest).trans (List.suffix_cons t _)
  | case2 t u rest hkind | case3 t u rest hkind => exact List.suffix_cons t _
  | _ => exact List.suffix_refl _

end Reader

/-- The failure of a rejected line is located at one of its tokens. -/
lemma SourceLine.blames_of_read {cpu : Cpu} {line : SourceLine} {label : Option Token}
    {fragment : Fragment} {failure : Failure}
    (h : line.read cpu = .rejected label fragment failure) :
    ∃ t ∈ line.tokens, failure.location = t.location := by
  have hlabel := Reader.readLabel_suffix line.body
  have hread := Reader.stays_readStatement cpu line.stop (Reader.readLabel line.body).2
  simp only [read] at h
  split at h
  · rename_i hstatement
    cases h
    exact (hread.of_error hstatement).mono hlabel
  · cases h
  · cases h
  · rename_i t rest _ hstatement
    cases h
    have hrest := (List.suffix_cons t rest).trans (hread.of_ok hstatement)
    exact (Reader.blames_missing line.stop rest _).mono (hrest.trans hlabel)

end MicroAsm
