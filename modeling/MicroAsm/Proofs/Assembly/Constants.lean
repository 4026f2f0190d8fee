import MicroAsm.Proofs.Assembly.Bytes

/-!
# One more constant

With one more constant in the symbols every line does the same to the layout, since no line without
an error has another use for the name. The bytes are the same too, as long as they do not depend on
when the constant is there: a value with the name is known on its line with the constant, and waits
for the final symbols without it. The only thing that can have changed in between is a variable that
the value mentions as well.
-/

namespace MicroAsm

/-! ### Values with one more symbol -/

/-- The value has the name in its expression, in whatever case. -/
def Value.Mentions (v : Value) (name : String) : Prop :=
  ∃ other ∈ v.expr.symbols, Text.upper other = Text.upper name

/-- If the value has the name in its expression, then the variables in it have the same value in
both tables. -/
def Value.Steady (v : Value) (name : String) (now last : SymbolTable) : Prop :=
  v.Mentions name → ∀ other ∈ v.expr.symbols, ∀ s ∈ now.get? other, s.kind = .set →
    last.value? other = some s.value

instance (v : Value) (name : String) : Decidable (v.Mentions name) :=
  inferInstanceAs (Decidable (∃ other ∈ v.expr.symbols, _))

instance (v : Value) (name : String) (now last : SymbolTable) :
    Decidable (v.Steady name now last) :=
  inferInstanceAs (Decidable (_ → _))

def Item.value? : Item → Option Value
  | string _ => none
  | value v => some v

def Argument.value? : Argument → Option Value
  | register _ _ => none
  | value _ v => some v

/-- The values of data and instructions, which may wait for their symbols. -/
def Statement.values : Statement → List Value
  | .data _ _ items => items.filterMap Item.value?
  | .instruction _ _ arguments => arguments.filterMap Argument.value?
  | _ => []

/-- The values on a line that may wait for their symbols. -/
def SourceLine.values (cpu : Cpu) (line : SourceLine) : List Value :=
  match line.read cpu with
  | .accepted _ statement _ => statement.values
  | .rejected _ _ _ => []

lemma SymbolTable.KeepsConstants.insert {t t' : SymbolTable} (h : t.KeepsConstants t')
    (x : Symbol) : (t.insert x).KeepsConstants (t'.insert x) := by
  intro name s hs hkind
  rw [get?_insert] at hs ⊢
  by_cases heq : Text.upper name = Text.upper x.name
  · rw [if_pos heq] at hs ⊢
    exact hs
  · rw [if_neg heq] at hs ⊢
    exact h name s hs hkind

/-- An instruction needs no more than the numbers of its values. -/
lemma Reference.instruction_congr {symbols symbols' : SymbolTable} {here : UInt16}
    {i : Instruction} {arguments : List Argument}
    (h : ∀ v ∈ arguments.filterMap Argument.value?,
      number symbols here v = number symbols' here v) :
    instruction symbols here i arguments =
      instruction symbols' here i arguments := by
  have hvalue : ∀ v ∈ arguments.filterMap Argument.value?, ∀ width,
      value symbols here width v = value symbols' here width v := by
    intro v hv width
    rw [value, value, h v hv]
  simp only [instruction]
  split
  · rfl
  · rfl
  · rw [hvalue _ (by simp [Argument.value?])]
  · rw [hvalue _ (by simp [Argument.value?])]
  · rfl
  · rfl
  · rw [hvalue _ (by simp [Argument.value?])]
  · rw [hvalue _ (by simp [Argument.value?])]
  · rw [h _ (by simp [Argument.value?])]
  · rfl

namespace Timely

variable {now last : SymbolTable} {here : UInt16} {x : Symbol}

/-- One more constant does not change what a steady value comes to. -/
lemma number_insert {v : Value} (hnew : now.get? x.name = none) (hkind : x.kind ≠ .set)
    (hkeeps : (now.insert x).KeepsConstants last) (hsteady : v.Steady x.name now last) :
    Reference.number (table (now.insert x) last here v) here v =
      Reference.number (table now last here v) here v := by
  cases heval : v.expr.eval now here with
  | ok n =>
    have heval' := Expr.eval_mono (SymbolTable.extends_insert hnew) heval
    rw [table_of_ok heval, table_of_ok heval', Reference.number, Reference.number, heval, heval']
  | error name =>
    rw [table_of_error heval]
    cases heval' : v.expr.eval (now.insert x) here with
    | error name' => rw [table_of_error heval']
    | ok n =>
      -- Only the new symbol can have made the difference.
      have hmentions : v.Mentions x.name := by
        by_contra hnot
        have hsame : v.expr.eval (now.insert x) here = v.expr.eval now here := by
          refine Expr.eval_congr here ?_
          intro other hother
          have hne : Text.upper other ≠ Text.upper x.name := fun heq => hnot ⟨other, hother, heq⟩
          rw [SymbolTable.value?, SymbolTable.value?, now.get?_insert_of_ne hne]
        rw [heval, heval'] at hsame
        cases hsame
      have hsame : v.expr.eval (now.insert x) here = v.expr.eval last here := by
        refine Expr.eval_congr here ?_
        intro other hother
        obtain ⟨s, hs⟩ := Expr.exists_get?_of_eval heval' other hother
        rw [SymbolTable.value?, hs]
        by_cases hset : s.kind = .set
        · have hne : Text.upper other ≠ Text.upper x.name := by
            intro heq
            rw [SymbolTable.get?_insert, if_pos heq] at hs
            cases hs
            exact hkind hset
          rw [now.get?_insert_of_ne hne] at hs
          exact (hsteady hmentions other hother s hs hset).symm
        · rw [SymbolTable.value?, hkeeps other s hs hset]
      rw [table_of_ok heval', Reference.number, Reference.number, hsame]

lemma data_insert {items : List Item} {width : Width} (hnew : now.get? x.name = none)
    (hkind : x.kind ≠ .set) (hkeeps : (now.insert x).KeepsConstants last)
    (hsteady : ∀ v ∈ items.filterMap Item.value?, v.Steady x.name now last) :
    data (now.insert x) last here width items = data now last here width items := by
  induction items with
  | nil => rfl
  | cons first items ih =>
    have hfirst : item (now.insert x) last here width first = item now last here width first := by
      cases first with
      | string t => rfl
      | value v =>
        have hnumber := @number_insert now last here x v hnew hkind hkeeps (hsteady v (by
          simp [Item.value?]))
        rw [item, item, Reference.value, Reference.value, hnumber]
    have hrest : ∀ v ∈ items.filterMap Item.value?, v.Steady x.name now last := by
      intro v hv
      refine hsteady v ?_
      rw [List.filterMap_cons]
      split
      · exact hv
      · exact List.mem_cons_of_mem _ hv
    simp only [data] at ih
    rw [data, data, flatten_mapM_cons, flatten_mapM_cons, hfirst, ih hrest]

/-- The value of an instruction decides about its table. -/
lemma argumentsTable_of_mem {i : Instruction} {arguments : List Argument} {v : Value}
    (hkinds : List.Forall₂ Argument.HasKind i.family.operands arguments)
    (hv : v ∈ arguments.filterMap Argument.value?) (now : SymbolTable) :
    argumentsTable now last here arguments = table now last here v := by
  obtain ⟨a, ha, hav⟩ := List.mem_filterMap.mp hv
  have hregisters := Argument.isRegister_of_mem_dropLast hkinds
  rcases List.eq_nil_or_concat arguments with rfl | ⟨front, b, rfl⟩
  · cases ha
  · rw [List.concat_eq_append] at ha hregisters ⊢
    rw [List.dropLast_concat] at hregisters
    rcases List.mem_append.mp ha with ha | ha
    · obtain ⟨kind, t, rfl⟩ := hregisters a ha
      cases hav
    · rw [← List.mem_singleton.mp ha, argumentsTable, List.getLast?_concat]
      cases a with
      | register kind t => cases hav
      | value kind v' =>
        cases hav
        rfl

lemma arguments_insert {i : Instruction} {arguments : List Argument}
    (hkinds : List.Forall₂ Argument.HasKind i.family.operands arguments)
    (hnew : now.get? x.name = none) (hkind : x.kind ≠ .set)
    (hkeeps : (now.insert x).KeepsConstants last)
    (hsteady : ∀ v ∈ arguments.filterMap Argument.value?, v.Steady x.name now last) :
    Reference.instruction (argumentsTable (now.insert x) last here arguments) here i arguments =
      Reference.instruction (argumentsTable now last here arguments) here i arguments := by
  refine Reference.instruction_congr ?_
  intro v hv
  rw [argumentsTable_of_mem hkinds hv, argumentsTable_of_mem hkinds hv]
  exact number_insert hnew hkind hkeeps (hsteady v hv)

end Timely

namespace Layout

variable {y : Layout} {x : Symbol} {label : Option Token} {statement : Statement}
  {line : SourceLine} {last : SymbolTable}

/-! ### Lines with one more symbol -/

/-- The layout with one more symbol. -/
def insert (y : Layout) (x : Symbol) : Layout :=
  { y with symbols := y.symbols.insert x }

lemma define_insert (hlabel : ∀ t ∈ label, Text.upper t.value ≠ Text.upper x.name)
    (value : UInt16) : (y.insert x).define label value = (y.define label value).insert x := by
  cases label with
  | none => rfl
  | some t =>
    have hadd : (y.insert x).symbols.add t.value value .label =
        (y.symbols.add t.value value .label).map (·.insert x) :=
      SymbolTable.add_insert (hlabel t rfl) value .label
    rw [define, hadd, define]
    cases y.symbols.add t.value value .label <;> rfl

lemma assign_insert (hkeyed : y.symbols.Keyed)
    (hlabel : ∀ t ∈ label, Text.upper t.value ≠ Text.upper x.name) (how : Assignment)
    (value : Option UInt16) :
    (y.insert x).assign how label value = (y.assign how label value).insert x := by
  cases label with
  | none => rfl
  | some t =>
    cases value with
    | none => rfl
    | some v =>
      have hne := hlabel t rfl
      have hadd : (y.insert x).symbols.add t.value v .equ =
          (y.symbols.add t.value v .equ).map (·.insert x) := SymbolTable.add_insert hne v .equ
      have hassign : (y.insert x).symbols.assign t.value v =
          (y.symbols.assign t.value v).map (·.insert x) := SymbolTable.assign_insert hkeyed hne v
      cases how with
      | equ =>
        simp only [assign, hadd]
        cases y.symbols.add t.value v .equ <;> rfl
      | set =>
        simp only [assign, hassign]
        cases y.symbols.assign t.value v <;> rfl

/-- A value that is known stays the same. -/
lemma evaluate_insert {v : Value} (hnew : y.symbols.get? x.name = none)
    (h : (v.evaluate y.symbols y.here).1.isSome = true) :
    v.evaluate (y.insert x).symbols (y.insert x).here = v.evaluate y.symbols y.here := by
  have hhere : (y.insert x).here = y.here := rfl
  rw [hhere]
  cases heval : v.expr.eval y.symbols y.here with
  | error name =>
    rw [Value.evaluate, heval] at h
    cases h
  | ok n =>
    have heval' : v.expr.eval (y.insert x).symbols y.here = .ok n :=
      Expr.eval_mono (SymbolTable.extends_insert hnew) heval
    rw [Value.evaluate, Value.evaluate, heval, heval']

/-- The name of a constant is no label of a line that can do what it says. -/
lemma ne_of_admits (hkind : x.kind ≠ .set) (h : (y.insert x).Admits label statement) :
    ∀ t ∈ label, Text.upper t.value ≠ Text.upper x.name := by
  intro t ht heq
  have hget : (y.insert x).symbols.get? t.value = some x := by
    rw [insert, SymbolTable.get?_insert, if_pos heq]
  exact hkind (h.2 t ht x hget).1

lemma gapOf_insert (hnew : y.symbols.get? x.name = none) (h : y.Admits label statement) :
    (y.insert x).gapOf statement = y.gapOf statement := by
  cases statement with
  | org location origin =>
    have hvalue := evaluate_insert hnew (h.1 origin rfl)
    simp only [gapOf, hvalue]
    rfl
  | _ => rfl

/-- A line that can do what it says without the symbol and with it does the same. -/
lemma execute_insert (hkeyed : y.symbols.Keyed) (hnew : y.symbols.get? x.name = none)
    (hadmits : y.Admits label statement)
    (hlabel : ∀ t ∈ label, Text.upper t.value ≠ Text.upper x.name) :
    (y.insert x).execute label statement = (y.execute label statement).insert x := by
  cases statement with
  | org location origin =>
    have hvalue := evaluate_insert hnew (hadmits.1 origin rfl)
    simp only [execute, hvalue]
    cases (origin.evaluate y.symbols y.here).1 with
    | none => exact define_insert hlabel _
    | some target => exact @define_insert (y.moveTo target) x label hlabel _
  | assign how location v =>
    have hvalue := evaluate_insert hnew (hadmits.1 v rfl)
    simp only [execute, hvalue]
    exact assign_insert hkeyed hlabel how _
  | empty location | endUnit location => exact define_insert hlabel _
  | cpu location name | data width location items | instruction i location arguments =>
    simp only [execute]
    rw [define_insert hlabel]
    rfl

lemma get?_define {name : String} (hlabel : ∀ t ∈ label, Text.upper t.value ≠ Text.upper name)
    (value : UInt16) : (y.define label value).symbols.get? name = y.symbols.get? name := by
  cases label with
  | none => rfl
  | some t =>
    rw [define]
    cases hadd : y.symbols.add t.value value .label with
    | error e => rfl
    | ok symbols => exact SymbolTable.get?_of_add hadd (hlabel t rfl).symm

/-- A line with another label does not define the name. -/
lemma get?_execute {name : String} (hkeyed : y.symbols.Keyed)
    (hlabel : ∀ t ∈ label, Text.upper t.value ≠ Text.upper name) :
    (y.execute label statement).symbols.get? name = y.symbols.get? name := by
  cases statement with
  | org location origin =>
    simp only [execute]
    cases (origin.evaluate y.symbols y.here).1 with
    | none => exact get?_define hlabel _
    | some target => exact @get?_define (y.moveTo target) label name hlabel _
  | assign how location v =>
    simp only [execute]
    cases label with
    | none => rfl
    | some t =>
      cases (v.evaluate y.symbols y.here).1 with
      | none => rfl
      | some value =>
        have hne := (hlabel t rfl).symm
        cases how with
        | equ =>
          simp only [assign]
          cases hadd : y.symbols.add t.value value .equ with
          | error e => rfl
          | ok symbols => exact SymbolTable.get?_of_add hadd hne
        | set =>
          simp only [assign]
          cases hassign : y.symbols.assign t.value value with
          | error e => rfl
          | ok symbols => exact SymbolTable.get?_of_assign hkeyed hassign hne
  | _ => exact get?_define hlabel _

/-- What a line with bytes is. -/
lemma exists_of_lineBytes {bs : List UInt8} (h : y.lineBytes last line = some bs) :
    ∃ label statement comment, line.read y.cpu = .accepted label statement comment ∧
      y.Admits label statement ∧ y.step line = y.execute label statement := by
  rw [lineBytes] at h
  split at h
  · rename_i label statement comment hread
    split at h
    · rename_i hadmits
      refine ⟨label, statement, comment, hread, hadmits, ?_⟩
      rw [step, hread]
    · cases h
  · cases h

/-- With bytes in both layouts, a line does the same to both of them. -/
lemma step_insert {bs bs' : List UInt8} {last' : SymbolTable} (hkeyed : y.symbols.Keyed)
    (hnew : y.symbols.get? x.name = none) (hkind : x.kind ≠ .set)
    (h : y.lineBytes last line = some bs) (h' : (y.insert x).lineBytes last' line = some bs') :
    (y.insert x).step line = (y.step line).insert x ∧
      (y.step line).symbols.get? x.name = none := by
  obtain ⟨label, statement, comment, hread, hadmits, hstep⟩ := exists_of_lineBytes h
  obtain ⟨label', statement', comment', hread', hadmits', hstep'⟩ := exists_of_lineBytes h'
  cases hread.symm.trans hread'
  have hlabel := ne_of_admits hkind hadmits'
  rw [hstep, hstep', get?_execute hkeyed hlabel]
  exact ⟨execute_insert hkeyed hnew hadmits hlabel, hnew⟩

/-- What a variable is in front of a line it is behind the label of the line. -/
lemma get?_of_get?_define {name : String} {s : Symbol} {value : UInt16}
    (h : (y.define label value).symbols.get? name = some s) (hset : s.kind = .set) :
    y.symbols.get? name = some s := by
  cases label with
  | none => exact h
  | some t =>
    rw [define] at h
    cases hadd : y.symbols.add t.value value .label with
    | error e =>
      rw [hadd] at h
      exact h
    | ok symbols =>
      rw [hadd] at h
      obtain ⟨-, rfl⟩ := SymbolTable.add_eq_ok hadd
      have hget : (y.symbols.insert ⟨t.value, value, .label⟩).get? name = some s := h
      rw [SymbolTable.get?_insert] at hget
      split at hget
      · cases hget
        cases hset
      · exact hget

/-- With one more constant a line has the same bytes, if its values are steady. -/
lemma lineBytes_insert {bs bs' : List UInt8} (hnew : y.symbols.get? x.name = none)
    (hkind : x.kind ≠ .set)
    (hkeeps : ((y.step line).symbols.insert x).KeepsConstants last)
    (hsteady : ∀ v ∈ line.values y.cpu, v.Steady x.name y.symbols last)
    (h : y.lineBytes last line = some bs) (h' : (y.insert x).lineBytes last line = some bs') :
    bs' = bs := by
  obtain ⟨label, statement, comment, hread, hadmits, hstep⟩ := exists_of_lineBytes h
  obtain ⟨label', statement', comment', hread', hadmits', -⟩ := exists_of_lineBytes h'
  cases hread.symm.trans hread'
  have hlabel := ne_of_admits hkind hadmits'
  have hbelongs := SourceLine.belongsTo_of_read hread
  rw [lineBytes_of_read hread hadmits] at h
  rw [lineBytes_of_read hread' hadmits', define_insert hlabel] at h'
  have hnew' : (y.define label y.here).symbols.get? x.name = none :=
    (get?_define hlabel _).trans hnew
  have hsteady' : ∀ v ∈ statement.values,
      v.Steady x.name (y.define label y.here).symbols last := by
    intro v hv hmentions other hother s hs hset
    have hmem : v ∈ line.values y.cpu := by
      rw [SourceLine.values, hread]
      exact hv
    exact hsteady v hmem hmentions other hother s (get?_of_get?_define hs hset) hset
  have hbytes : Timely.statement ((y.define label y.here).symbols.insert x) last y.here statement =
      Timely.statement (y.define label y.here).symbols last y.here statement := by
    cases statement with
    | data width location items =>
      rw [hstep] at hkeeps
      exact Timely.data_insert hnew' hkind hkeeps hsteady'
    | instruction i location arguments =>
      rw [hstep] at hkeeps
      exact Timely.arguments_insert hbelongs.2 hnew' hkind hkeeps hsteady'
    | _ => rfl
  have hhere : (y.insert x).here = y.here := rfl
  have hsymbols : ((y.define label y.here).insert x).symbols =
      (y.define label y.here).symbols.insert x := rfl
  rw [gapOf_insert hnew hadmits, hhere, hsymbols, hbytes, h] at h'
  exact (Option.some.inj h').symm

/-! ### Units with one more symbol -/

lemma Keeps.trans {y y' y'' : Layout} (h : y.Keeps y') (h' : y'.Keeps y'') : y.Keeps y'' :=
  fun hkeyed => ⟨(h' (h hkeyed).1).1, (h hkeyed).2.trans (h' (h hkeyed).1).2⟩

lemma keeps_steps (y : Layout) (lines : List SourceLine) : y.Keeps (y.steps lines) := by
  induction lines generalizing y with
  | nil => exact Keeps.refl y
  | cons line lines ih => exact (y.keeps_step line).trans (ih (y.step line))

/-- With bytes in both layouts, lines do the same to both of them. -/
lemma steps_insert {lines : List SourceLine} {bs bs' : List UInt8} {last' : SymbolTable}
    (hkeyed : y.symbols.Keyed) (hnew : y.symbols.get? x.name = none) (hkind : x.kind ≠ .set)
    (h : y.bytes last lines = some bs) (h' : (y.insert x).bytes last' lines = some bs') :
    (y.insert x).steps lines = (y.steps lines).insert x := by
  induction lines generalizing y bs bs' with
  | nil => rfl
  | cons line lines ih =>
    obtain ⟨first, rest, hfirst, hrest, -⟩ := bytes_cons_eq_some h
    obtain ⟨first', rest', hfirst', hrest', -⟩ := bytes_cons_eq_some h'
    obtain ⟨hstep, hnew'⟩ := step_insert hkeyed hnew hkind hfirst hfirst'
    rw [hstep] at hrest'
    have hsteps : ∀ z : Layout, z.steps (line :: lines) = (z.step line).steps lines := fun _ => rfl
    rw [hsteps, hsteps, hstep]
    exact ih (y.keeps_step line hkeyed).1 hnew' hrest hrest'

/-- With one more constant lines have the same bytes, if their values are steady. -/
lemma bytes_insert {lines : List SourceLine} {bs bs' : List UInt8} (hkeyed : y.symbols.Keyed)
    (hnew : y.symbols.get? x.name = none) (hkind : x.kind ≠ .set)
    (hlast : last = (y.steps lines).symbols.insert x)
    (hsteady : ∀ before line after, lines = before ++ line :: after →
      ∀ v ∈ line.values (y.steps before).cpu, v.Steady x.name (y.steps before).symbols last)
    (h : y.bytes last lines = some bs) (h' : (y.insert x).bytes last lines = some bs') :
    bs' = bs := by
  induction lines generalizing y bs bs' with
  | nil =>
    cases h
    cases h'
    rfl
  | cons line lines ih =>
    obtain ⟨first, rest, hfirst, hrest, rfl⟩ := bytes_cons_eq_some h
    obtain ⟨first', rest', hfirst', hrest', rfl⟩ := bytes_cons_eq_some h'
    obtain ⟨hstep, hnew'⟩ := step_insert hkeyed hnew hkind hfirst hfirst'
    rw [hstep] at hrest'
    have hkeyed' := (y.keeps_step line hkeyed).1
    have hkeeps : ((y.step line).symbols.insert x).KeepsConstants last := by
      rw [hlast]
      exact ((y.step line).keeps_steps lines hkeyed').2.insert x
    have hline := lineBytes_insert hnew hkind hkeeps (hsteady [] line lines rfl) hfirst hfirst'
    have hlines := ih hkeyed' hnew' hlast (fun before line' after heq =>
      hsteady (line :: before) line' after (by rw [heq]; rfl)) hrest hrest'
    rw [hline, hlines]

end Layout

end MicroAsm
