import MicroAsm.Proofs.Statement.Failing
import MicroAsm.Proofs.Token.Joining

/-!
# Reading bare lines

The places of the tokens have no say in how a line is read: a bare line is read as the bare form of
what the line is read as, accepted or rejected.
-/

namespace MicroAsm

/-! ### Bare statements -/

/-- The value without its place. -/
def Value.bare (v : Value) : Value :=
  { v with location := .none }

def Item.bare : Item → Item
  | .string t => .string t.bare
  | .value v => .value v.bare

def Argument.bare : Argument → Argument
  | .register kind t => .register kind t.bare
  | .value kind v => .value kind v.bare

/-- The statement without the places of its parts. -/
def Statement.bare : Statement → Statement
  | .empty _ => .empty .none
  | .cpu _ name => .cpu .none name.bare
  | .endUnit _ => .endUnit .none
  | .org _ origin => .org .none origin.bare
  | .assign how _ v => .assign how .none v.bare
  | .data width _ items => .data width .none (items.map Item.bare)
  | .instruction i _ arguments => .instruction i .none (arguments.map Argument.bare)

def Fragment.bare : Fragment → Fragment
  | .nothing => .nothing
  | .org _ => .org .none
  | .assign how _ => .assign how .none
  | .data width _ items => .data width .none (items.map Item.bare)
  | .instruction i _ arguments => .instruction i .none (arguments.map Argument.bare)

/-- The fault at no place. -/
def Failure.bare (f : Failure) : Failure :=
  { f with location := .none }

def LineReading.bare : LineReading → LineReading
  | .accepted label statement comment =>
    .accepted (label.map Token.bare) statement.bare (comment.map Token.bare)
  | .rejected label fragment failure =>
    .rejected (label.map Token.bare) fragment.bare failure.bare

namespace Reader

/-- Something that was read and the tokens after it, all of it bare. -/
def bareRest {α : Type} (bare : α → α) (r : α × List Token) : α × List Token :=
  (bare r.1, r.2.map Token.bare)

variable (stop : Token) (ts : List Token)

/-! ### Values -/

lemma current_bare : current stop.bare (ts.map Token.bare) = (current stop ts).bare := by
  cases ts <;> rfl

lemma missing_bare (what : String) :
    missing stop.bare (ts.map Token.bare) what = (missing stop ts what).bare := by
  simp only [missing, current_bare]
  rfl

lemma atEnd_bare : atEnd (ts.map Token.bare) = atEnd ts := by
  cases ts <;> rfl

lemma expectEnd_bare :
    expectEnd stop.bare (ts.map Token.bare) = mapBoth Failure.bare id (expectEnd stop ts) := by
  rw [expectEnd, expectEnd, atEnd_bare, missing_bare]
  split <;> rfl

lemma readTerm_bare (t : Token) : readTerm t.bare = mapBoth Failure.bare id (readTerm t) := by
  have hnumber : t.bare.number? = t.number? := rfl
  simp only [readTerm, show t.bare.kind = t.kind from rfl, show t.bare.value = t.value from rfl,
    hnumber]
  split
  · split <;> rfl
  · rfl
  · rfl
  · split <;> rfl
  · rfl

lemma sign?_bare (t : Token) : sign? t.bare = sign? t := rfl

lemma readTerms_bare (negative : Bool) :
    readTerms stop.bare negative (ts.map Token.bare) =
      mapBoth Failure.bare (fun r => (r.1, bareRest id r.2)) (readTerms stop negative ts) := by
  fun_induction readTerms stop negative ts with
  | case1 negative =>
    exact congrArg Except.error (missing_bare stop [] "Value")
  | case2 negative t =>
    rw [List.map_singleton, readTerms, readTerm_bare]
    cases readTerm t <;> rfl
  | case3 negative t op rest f hterm =>
    simp only [List.map_cons, readTerms, readTerm_bare, hterm, mapBoth]
  | case4 negative t op rest term hterm hsign =>
    simp only [List.map_cons, readTerms, readTerm_bare, sign?_bare, hterm, hsign, mapBoth]
    rfl
  | case5 negative t op rest term next hterm hsign ih =>
    simp only [List.map_cons, readTerms, readTerm_bare, sign?_bare, hterm, hsign, mapBoth, id, ih]
    cases readTerms stop next rest <;> rfl

lemma readValue_bare :
    readValue stop.bare (ts.map Token.bare) =
      mapBoth Failure.bare (bareRest Value.bare) (readValue stop ts) := by
  have hsign : (ts.map Token.bare).head?.bind sign? = ts.head?.bind sign? := by
    cases ts <;> rfl
  rw [readValue, readValue, hsign, ← List.map_tail]
  cases ts.head?.bind sign? with
  | some negative =>
    simp only [readTerms_bare, current_bare]
    cases readTerms stop negative ts.tail <;> rfl
  | none =>
    simp only [readTerms_bare, current_bare]
    cases readTerms stop false ts <;> rfl

lemma readOnlyValue_bare :
    readOnlyValue stop.bare (ts.map Token.bare) =
      mapBoth Failure.bare (bareRest Value.bare) (readOnlyValue stop ts) := by
  rw [readOnlyValue, readOnlyValue, readValue_bare]
  cases readValue stop ts with
  | error f => rfl
  | ok r =>
    obtain ⟨v, rest⟩ := r
    have hend := expectEnd_bare stop rest
    cases hrest : expectEnd stop rest with
    | error f =>
      rw [hrest] at hend
      simp [mapBoth, bareRest, bind, Except.bind, hend, hrest]
    | ok _ =>
      rw [hrest] at hend
      simp [mapBoth, bareRest, bind, Except.bind, hend, hrest, pure, Except.pure]

/-! ### Items and operands -/

lemma isStringItem_bare (width : Width) :
    isStringItem width (ts.map Token.bare) = isStringItem width ts := by
  cases width with
  | word => rfl
  | byte =>
    match ts with
    | [] => rfl
    | [t] => rfl
    | t :: u :: rest => rfl

lemma readItem_bare (width : Width) :
    readItem stop.bare width (ts.map Token.bare) =
      mapBoth Failure.bare (bareRest Item.bare) (readItem stop width ts) := by
  rw [readItem, readItem, isStringItem_bare, current_bare, ← List.map_tail]
  split
  · rfl
  · rw [readValue_bare]
    cases readValue stop ts <;> rfl

/-- How a list of items goes on behind its first item. -/
lemma readItems_eq (width : Width) :
    readItems stop width ts =
      match readItem stop width ts with
      | .error failure => ([], .error failure)
      | .ok (item, comma :: rest) =>
        if comma.kind = .comma then
          (item :: (readItems stop width rest).1, (readItems stop width rest).2)
        else ([item], .ok (comma :: rest))
      | .ok (item, []) => ([item], .ok []) := by
  rw [readItems]
  split <;> simp_all

lemma readItems_bare (width : Width) :
    readItems stop.bare width (ts.map Token.bare) =
      ((readItems stop width ts).1.map Item.bare,
        mapBoth Failure.bare (List.map Token.bare) (readItems stop width ts).2) := by
  fun_induction readItems stop width ts with
  | case1 ts f hread =>
    rw [readItems_eq, readItem_bare, hread]
    rfl
  | case2 ts item comma rest hread hcomma hlt items result heq ih =>
    rw [readItems_eq, readItem_bare, hread]
    simp only [mapBoth, bareRest, List.map_cons, show comma.bare.kind = comma.kind from rfl,
      hcomma, if_true, ih, heq]
  | case3 ts item comma rest hread hcomma =>
    rw [readItems_eq, readItem_bare, hread]
    simp only [mapBoth, bareRest, List.map_cons, show comma.bare.kind = comma.kind from rfl,
      if_neg hcomma, List.map_nil]
  | case4 ts item hread =>
    rw [readItems_eq, readItem_bare, hread]
    rfl

lemma readArgument_bare (kind : OperandKind) :
    readArgument stop.bare kind (ts.map Token.bare) =
      mapBoth Failure.bare (bareRest Argument.bare) (readArgument stop kind ts) := by
  cases kind with
  | register | pair =>
    cases ts with
    | nil => exact congrArg Except.error (missing_bare stop [] _)
    | cons t ts =>
      have hmissing := missing_bare stop (t :: ts)
      simp only [List.map_cons] at hmissing
      simp only [readArgument, List.map_cons, show t.bare.kind = t.kind from rfl, hmissing]
      split <;> rfl
  | byte | word | address | restartCode =>
    simp only [readArgument, readValue_bare]
    cases readValue stop ts <;> rfl

lemma readArguments_bare (kinds : List OperandKind) :
    readArguments stop.bare kinds (ts.map Token.bare) =
      ((readArguments stop kinds ts).1.map Argument.bare,
        mapBoth Failure.bare (List.map Token.bare) (readArguments stop kinds ts).2) := by
  fun_induction readArguments stop kinds ts with
  | case1 ts => rfl
  | case2 kind ts f hread | case3 kind ts argument rest hread =>
    rw [readArguments, readArgument_bare, hread]
    rfl
  | case4 kind kinds ts hkinds f hread =>
    rw [readArguments.eq_3 _ _ _ _ hkinds, readArgument_bare, hread]
    rfl
  | case5 kind kinds ts hkinds argument comma rest hread hcomma arguments result heq ih =>
    rw [readArguments.eq_3 _ _ _ _ hkinds, readArgument_bare, hread]
    simp only [mapBoth, bareRest, List.map_cons, show comma.bare.kind = comma.kind from rfl,
      hcomma, if_true, ih, heq]
  | case6 kind kinds ts hkinds argument comma rest hread hcomma =>
    have hmissing := missing_bare stop (comma :: rest)
    simp only [List.map_cons] at hmissing
    rw [readArguments.eq_3 _ _ _ _ hkinds, readArgument_bare, hread]
    simp only [mapBoth, bareRest, List.map_cons, show comma.bare.kind = comma.kind from rfl,
      if_neg hcomma, hmissing, List.map_nil]
  | case7 kind kinds ts hkinds argument hread =>
    rw [readArguments.eq_3 _ _ _ _ hkinds, readArgument_bare, hread]
    exact congrArg (fun f => ([argument.bare], Except.error f)) (missing_bare stop [] _)

/-! ### Statements -/

/-- The bare form of what reading a statement gives. -/
def bareResult : StatementResult → StatementResult :=
  mapBoth (Prod.map Fragment.bare Failure.bare) (bareRest Statement.bare)

/-- A statement that was read has to be over, bare or not. -/
lemma expectEnd_bareResult (statement : Statement) (fragment : Fragment) :
    (match expectEnd stop.bare (ts.map Token.bare) with
      | .ok () => .ok (statement.bare, ts.map Token.bare)
      | .error f => .error (fragment.bare, f) : StatementResult) =
      bareResult (match expectEnd stop ts with
        | .ok () => .ok (statement, ts)
        | .error f => .error (fragment, f)) := by
  rw [expectEnd_bare]
  cases expectEnd stop ts <;> rfl

lemma readCpu_bare (location : Location) :
    readCpu stop.bare .none (ts.map Token.bare) = bareResult (readCpu stop location ts) := by
  cases ts with
  | nil => exact congrArg (fun f => Except.error (Fragment.nothing, f)) (missing_bare stop [] _)
  | cons t ts =>
    have hmissing := missing_bare stop (t :: ts)
    simp only [List.map_cons] at hmissing
    simp only [readCpu, List.map_cons, show t.bare.kind = t.kind from rfl, hmissing]
    split
    · exact expectEnd_bareResult stop ts (.cpu location t) .nothing
    · rfl

lemma readData_bare (width : Width) (location : Location) :
    readData stop.bare width .none (ts.map Token.bare) =
      bareResult (readData stop width location ts) := by
  simp only [readData, readItems_bare]
  generalize readItems stop width ts = read
  obtain ⟨items, result⟩ := read
  cases result with
  | error f => rfl
  | ok rest =>
    exact expectEnd_bareResult stop rest (.data width location items) (.data width location items)

lemma readInstruction_bare (i : Instruction) (location : Location) :
    readInstruction stop.bare i .none (ts.map Token.bare) =
      bareResult (readInstruction stop i location ts) := by
  simp only [readInstruction, readArguments_bare]
  generalize readArguments stop i.family.operands ts = read
  obtain ⟨arguments, result⟩ := read
  cases result with
  | error f => rfl
  | ok rest =>
    exact expectEnd_bareResult stop rest (.instruction i location arguments)
      (.instruction i location arguments)

/-- A directive with one expression. -/
lemma directive_bareResult (statement statement' : Value → Statement)
    (fragment fragment' : Fragment) (hstatement : ∀ v, statement' v.bare = (statement v).bare)
    (hfragment : fragment' = fragment.bare) :
    (match readOnlyValue stop.bare (ts.map Token.bare) with
      | .ok (v, rest) => .ok (statement' v, rest)
      | .error f => .error (fragment', f) : StatementResult) =
      bareResult (match readOnlyValue stop ts with
        | .ok (v, rest) => .ok (statement v, rest)
        | .error f => .error (fragment, f)) := by
  rw [readOnlyValue_bare, hfragment]
  cases readOnlyValue stop ts with
  | error f => rfl
  | ok r => simp [mapBoth, bareResult, bareRest, hstatement]

lemma readStatement_bare (cpu : Cpu) :
    readStatement cpu stop.bare (ts.map Token.bare) = bareResult (readStatement cpu stop ts) := by
  cases ts with
  | nil => rfl
  | cons t ts =>
    have hmissing := missing_bare stop (t :: ts) "Opcode"
    rw [List.map_cons] at hmissing
    simp only [readStatement, List.map_cons, show t.bare.kind = t.kind from rfl,
      show t.bare.value = t.value from rfl, show t.bare.location = .none from rfl, hmissing]
    split
    · rfl
    · exact directive_bareResult stop ts _ _ _ _ (fun _ => rfl) rfl
    · exact directive_bareResult stop ts _ _ _ _ (fun _ => rfl) rfl
    · exact directive_bareResult stop ts _ _ _ _ (fun _ => rfl) rfl
    · exact readCpu_bare stop ts _
    · exact expectEnd_bareResult stop ts (.endUnit t.location) .nothing
    · exact readData_bare stop ts _ _
    · exact readData_bare stop ts _ _
    · split
      · exact readInstruction_bare stop ts _ _
      · rfl
      · rfl
    · rfl

lemma readLabel_bare :
    readLabel (ts.map Token.bare) =
      ((readLabel ts).1.map Token.bare, (readLabel ts).2.map Token.bare) := by
  match ts with
  | [] => rfl
  | [t] => rfl
  | t :: u :: rest =>
    simp only [readLabel, List.map_cons, show t.bare.kind = t.kind from rfl,
      show u.bare.kind = u.kind from rfl]
    split
    · split <;> rfl
    · rfl

end Reader

/-- A bare line is read as the bare form of what the line is read as. -/
lemma SourceLine.read_bare (cpu : Cpu) (line : SourceLine) :
    line.bare.read cpu = (line.read cpu).bare := by
  simp only [read, bare, Reader.readLabel_bare, Reader.readStatement_bare]
  cases Reader.readStatement cpu line.stop (Reader.readLabel line.body).2 with
  | error e => rfl
  | ok r =>
    obtain ⟨statement, _ | ⟨t, _ | ⟨u, rest⟩⟩⟩ := r
    · rfl
    · rfl
    · simp only [Reader.bareResult, mapBoth, Reader.bareRest, List.map_cons, LineReading.bare]
      rw [← List.map_cons, Reader.missing_bare]
      rfl

end MicroAsm
