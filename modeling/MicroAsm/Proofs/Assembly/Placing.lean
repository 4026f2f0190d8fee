import MicroAsm.Proofs.Assembly.Waiting

/-!
# What one line leaves behind

A line without an error gains symbols for the table, has its bytes at a place at the end of the
code, and the last pass will complete them. Only an assignment of a variable that is there already
takes the value of a symbol back.
-/

namespace MicroAsm

/-- The name that a line assigns as a variable, in capitals. -/
def Line.assigned (l : Line) : Option String :=
  if l.statement.kind = .set then l.label.map fun node => Text.upper node.text else none

namespace Assembly

variable (a : Assembly)

/-! ### Symbols -/

/-- Defining a label without an error gains no variable. -/
lemma gains_defineLabel {label : Option Token} {value : UInt16}
    (h : (a.defineLabel label value).log.errors = a.log.errors) (assigned : Option String) :
    a.symbols.Gains (a.defineLabel label value).symbols assigned := by
  cases label with
  | none => exact SymbolTable.Gains.refl _ _
  | some t =>
    obtain ⟨hnew, heq⟩ := SymbolTable.add_eq_ok (a.ok_of_withSymbols h)
    have hsymbols : (a.defineLabel (some t) value).symbols =
        a.symbols.insert ⟨t.value, value, .label⟩ := heq
    rw [hsymbols]
    exact SymbolTable.gains_insert hnew (by simp)

/-- An assignment without an error gains the variable it assigns, if that is new. -/
lemma gains_assign {how : Assignment} {location : Location} {label : Option Token}
    {value : Option UInt16} {assigned : Option String}
    (h : (a.assign how location label value).log.errors = a.log.errors)
    (hassigned : ∀ t, how = .set → label = some t → assigned = some (Text.upper t.value) ∧
      ∀ s, a.symbols.get? t.value = some s → s.kind ≠ .set) :
    a.symbols.Gains (a.assign how location label value).symbols assigned := by
  cases label with
  | none => exact SymbolTable.Gains.refl _ _
  | some t =>
    cases value with
    | none => exact SymbolTable.Gains.refl _ _
    | some v =>
      cases how with
      | equ =>
        obtain ⟨hnew, heq⟩ := SymbolTable.add_eq_ok (a.ok_of_withSymbols h)
        have hsymbols : (a.assign .equ location (some t) (some v)).symbols =
            a.symbols.insert ⟨t.value, v, .equ⟩ := heq
        rw [hsymbols]
        exact SymbolTable.gains_insert hnew (by simp)
      | set =>
        obtain ⟨hname, hold⟩ := hassigned t rfl rfl
        rcases SymbolTable.assign_eq_ok (a.ok_of_withSymbols h) with ⟨hnew, heq⟩ | ⟨s, hs, hkind⟩
        · have hsymbols : (a.assign .set location (some t) (some v)).symbols =
              a.symbols.insert ⟨t.value, v, .set⟩ := heq
          rw [hsymbols]
          exact SymbolTable.gains_insert hnew fun _ => hname
        · exact absurd hkind (hold s hs)

variable {a} {here : UInt16} {location : Location} {label comment : Option Token}
  {statement : Statement}

/-- The variable that a statement assigns on a line with a label. -/
def assignedBy (label : Option Token) : Statement → Option String
  | .assign .set _ _ => label.map fun t => Text.upper t.value
  | _ => none

lemma assigned_lineOf :
    (a.lineOf location label statement comment).assigned = assignedBy label statement := by
  cases statement with
  | assign how location' v =>
    cases how with
    | equ => rfl
    | set => cases label <;> rfl
  | data width location' items => cases width <;> rfl
  | _ => rfl

/-- A statement without an error gains the variable it assigns, if that is new. -/
lemma gains_execute (h : (a.execute here label statement).1.log.errors = a.log.errors)
    (hnew : ∀ name s, assignedBy label statement = some (Text.upper name) →
      a.symbols.get? name = some s → s.kind ≠ .set) :
    a.symbols.Gains (a.execute here label statement).1.symbols (assignedBy label statement) := by
  have hlabel := a.errors_le_defineLabel label here
  cases statement with
  | empty location => exact a.gains_defineLabel h _
  | endUnit location => exact a.gains_defineLabel h _
  | cpu location name =>
    simp only [execute] at h ⊢
    split at h
    · exact a.gains_defineLabel h _
    · rw [errors_error] at h
      omega
  | org location origin =>
    rcases hvalue : origin.evaluate a.symbols here with ⟨value, messages⟩
    simp only [execute, hvalue] at h ⊢
    -- The label is defined last, in a state with the same symbols and no fewer errors.
    have hlast : ∀ b : Assembly, b.symbols = a.symbols → a.log.errors ≤ b.log.errors →
        (b.defineLabel label b.code.locationCounter).log.errors = a.log.errors →
        a.symbols.Gains (b.defineLabel label b.code.locationCounter).symbols
          (assignedBy label (.org location origin)) := by
      intro b hsymbols hle herrors
      have hle' := b.errors_le_defineLabel label b.code.locationCounter
      rw [← hsymbols]
      exact b.gains_defineLabel (Nat.le_antisymm (by omega) hle') _
    cases value with
    | none => exact hlast _ rfl (by simp) h
    | some target =>
      have hle := errors_le_moveTo (a.report messages) target origin.location
      exact hlast _ (moveTo_frame _ _ _).2.1 (Nat.le_trans (by simp) hle) h
  | assign how location v =>
    rcases hvalue : v.evaluate a.symbols here with ⟨value, messages⟩
    simp only [execute, hvalue] at h ⊢
    have hle := errors_le_assign (a.report messages) how location label value
    refine gains_assign (a.report messages) (Nat.le_antisymm ?_ hle) ?_
    · rw [h, errors_report]
      omega
    · rintro t rfl rfl
      exact ⟨rfl, fun s => hnew t.value s rfl⟩
  | data width location items =>
    have hle := (a.defineLabel label here).errors_le_put
      (Item.emissions (a.defineLabel label here).symbols here width 0 items) location
    simp only [execute] at h ⊢
    rw [(put_frame _ _ _).2.1]
    exact a.gains_defineLabel (by omega) _
  | instruction i location arguments =>
    have hle := (a.defineLabel label here).errors_le_put (i.emission location
      (arguments.map (Argument.settle (a.defineLabel label here).symbols here))) location
    simp only [execute] at h ⊢
    rw [(put_frame _ _ _).2.1]
    exact a.gains_defineLabel (by omega) _

/-! ### Places -/

/-- The place of a line that puts bytes into the code. -/
lemma code_and_placement_put {e : Emission} {node : Node} (hnode : node.kind ≠ .org)
    (hemits : e.emits = true) :
    ((a.defineLabel label here).put e location).code = a.code.append e.bytes ∧
      a.placement ((a.defineLabel label here).put e location) node =
        { address := a.code.locationCounter, start := a.code.size, size := e.bytes.length } := by
  have hcode : ((a.defineLabel label here).put e location).code = a.code.append e.bytes := by
    rw [put, if_pos hemits]
    simp
  refine ⟨hcode, ?_⟩
  rw [placement, if_neg hnode, hcode, Segment.append_offset, Segment.size_append,
    Nat.add_sub_cancel_left, Segment.locationCounter_eq]

/-- A line has its bytes in the code, maybe behind a gap, and the last pass will complete them. -/
def Places (a after : Assembly) (l : Line) (statement : Statement) : Prop :=
  ∃ gap bytes, after.code.bytes.toList = a.code.bytes.toList ++ gap ++ bytes ∧
    l.place.start = a.code.size + gap.length ∧ l.place.size = bytes.length ∧
    ∀ symbols, after.symbols.Extends symbols →
      Patching.Completes symbols l.place l.operands 0 bytes
        (Reference.statement symbols l.place.address statement)

/-- A statement that puts bytes into the code without an error. -/
lemma places_of_put {e : Emission} {node : Node} (hnode : node.kind ≠ .org)
    (hexecute : a.execute a.code.locationCounter label statement =
      ((a.defineLabel label a.code.locationCounter).put e location, node, e.operands))
    (h : (a.execute a.code.locationCounter label statement).1.log.errors = a.log.errors)
    (hcompletes : ∀ place : Placement, place.address = a.code.locationCounter →
      errorCount e.messages = 0 → e.emits = true ∧
        ∀ symbols, (a.defineLabel label a.code.locationCounter).symbols.Extends symbols →
          Patching.Completes symbols place e.operands 0 e.bytes
            (Reference.statement symbols place.address statement))
    (location' : Location) :
    Places a (a.execute a.code.locationCounter label statement).1
      (a.lineOf location' label statement comment) statement := by
  have hlabel := a.errors_le_defineLabel label a.code.locationCounter
  have hle := (a.defineLabel label a.code.locationCounter).errors_le_put e location
  rw [hexecute] at h
  simp only at h
  have hclean : errorCount e.messages = 0 := by omega
  have hemits := (hcompletes { address := a.code.locationCounter } rfl hclean).1
  obtain ⟨hcode, hplace⟩ := @code_and_placement_put a a.code.locationCounter location label
    e node hnode hemits
  refine ⟨[], e.bytes, ?_, ?_⟩
  · rw [hexecute, hcode, Segment.toList_append, List.append_nil]
  · rw [lineOf, hexecute, hplace, (put_frame _ _ _).2.1]
    exact ⟨rfl, rfl, (hcompletes _ rfl hclean).2⟩

/-- A statement that puts no bytes of its own into the code. -/
lemma places_of_settled (gap : List UInt8)
    (hcode : (a.execute a.code.locationCounter label statement).1.code.bytes.toList =
      a.code.bytes.toList ++ gap)
    (hgap : (a.execute a.code.locationCounter label statement).2.1.kind = .org ∨ gap = [])
    (hsettled : ∀ o ∈ (a.execute a.code.locationCounter label statement).2.2, o.deferred = none)
    (hstatement : ∀ symbols address, Reference.statement symbols address statement = some [])
    (location' : Location) :
    Places a (a.execute a.code.locationCounter label statement).1
      (a.lineOf location' label statement comment) statement := by
  refine ⟨gap, [], by simpa using hcode, ?_⟩
  have hsize : (a.execute a.code.locationCounter label statement).1.code.size =
      a.code.size + gap.length := by
    rw [Segment.size_eq_length, hcode, List.length_append, ← Segment.size_eq_length]
  have hplace : (a.lineOf location' label statement comment).place.start =
        a.code.size + gap.length ∧
      (a.lineOf location' label statement comment).place.size = 0 := by
    simp only [lineOf, placement]
    by_cases hkind : (a.execute a.code.locationCounter label statement).2.1.kind = .org
    · rw [if_pos hkind]
      exact ⟨hsize, rfl⟩
    · obtain rfl := hgap.resolve_left hkind
      rw [if_neg hkind, hsize]
      simp
  refine ⟨hplace.1, hplace.2, ?_⟩
  intro symbols _
  rw [hstatement]
  exact Patching.completes_of_settled hsettled []

lemma emits_emissions (symbols : SymbolTable) (here : UInt16) (width : Width) (offset : Nat)
    (items : List Item) : (Item.emissions symbols here width offset items).emits = true := by
  cases items <;> rfl

/-- A statement without an error has its bytes in the code. -/
lemma places_execute (hbelongs : statement.BelongsTo a.cpu)
    (h : (a.execute a.code.locationCounter label statement).1.log.errors = a.log.errors) :
    Places a (a.execute a.code.locationCounter label statement).1
      (a.lineOf location label statement comment) statement := by
  cases statement with
  | data width location' items =>
    refine places_of_put (by cases width <;> simp [Width.directive]) rfl h ?_ location
    rintro place hplace hclean
    refine ⟨emits_emissions _ _ _ _ _, ?_⟩
    intro symbols hext
    rw [← hplace] at hclean hext ⊢
    exact Patching.completes_items hext hclean
  | instruction i location' arguments =>
    refine places_of_put (by simp [Instruction.node]) rfl h ?_ location
    rintro place hplace hclean
    rw [← hplace] at hclean ⊢
    refine ⟨(Patching.completes_instruction hbelongs.1 hbelongs.2 (SymbolTable.Extends.refl _)
      hclean).1, ?_⟩
    intro symbols hext
    exact (Patching.completes_instruction hbelongs.1 hbelongs.2 hext hclean).2
  | org location' origin =>
    have hsettled : ∀ o ∈ (a.execute a.code.locationCounter label (.org location' origin)).2.2,
        o.deferred = none := by
      simp [execute]
    -- Moving the location counter leaves a gap of zeros, or gives an empty segment its address.
    rcases a.execute_code_cases _ _ _ h with hcode | ⟨-, target, hcode⟩ | ⟨bs, -, hcode⟩
    · exact places_of_settled [] (by rw [hcode, List.append_nil]) (Or.inr rfl) hsettled
        (fun _ _ => rfl) location
    · exact places_of_settled [] (by rw [hcode, List.append_nil]) (Or.inr rfl) hsettled
        (fun _ _ => rfl) location
    · exact places_of_settled bs (by rw [hcode, Segment.toList_append]) (Or.inl rfl) hsettled
        (fun _ _ => rfl) location
  | cpu location' name =>
    refine places_of_settled [] ?_ (Or.inr rfl) (by simp [execute]) (fun _ _ => rfl) location
    simp only [execute]
    split <;> simp
  | empty location' | endUnit location' | assign how location' v =>
    refine places_of_settled [] ?_ (Or.inr rfl) (by simp [execute]) (fun _ _ => rfl) location
    simp [execute]

end Assembly

end MicroAsm
