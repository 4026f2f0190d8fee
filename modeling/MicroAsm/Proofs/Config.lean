import Mathlib.Data.List.Perm.Basic
import MicroAsm.Config
import MicroAsm.Proofs.Lookup
import MicroAsm.Proofs.Outcome
import MicroAsm.Proofs.Toml

/-!
# Settings of a table

The sections of a configuration are read entry by entry, and the first bad entry ends the reading.
Which table gives a configuration, and which one, is said here without an order: by what its
entries are (`WellFormed`) and by what stands under its keys (`settings`).

One step of a section accepts an entry or not whatever came before, and writes only the field of
the entry's key. So a whole section is accepted when each of its entries is, and, as no key stands
twice, each field ends with what its key gives. Neither depends on the order of the entries.
-/

namespace MicroAsm

/-! ### Steps over entries -/

section Steps

variable {ε σ α β : Type}

/-- A step with the entry of the key sets the field to what `read` makes of the value; a step with
any other entry leaves the field alone. -/
def Sets (step : σ → String × α → Except ε σ) (field : σ → β) (key : String)
    (read : α → Option β) : Prop :=
  ∀ {s k v s'}, step s (k, v) = .ok s' →
    field s' = if k = key then (read v).getD (field s) else field s

/-- Without repeated keys a run sets the field to what its key gives, wherever that stands. -/
lemma Sets.of_foldlM {step : σ → String × α → Except ε σ} {field : σ → β} {key : String}
    {read : α → Option β} (hstep : Sets step field key read) {entries : List (String × α)}
    (hkeys : (entries.map Prod.fst).Nodup) {s s' : σ} (h : entries.foldlM step s = .ok s') :
    field s' = ((entries.lookup key).bind read).getD (field s) := by
  induction entries generalizing s with
  | nil =>
    cases h
    rfl
  | cons entry rest ih =>
    obtain ⟨k, v⟩ := entry
    rw [List.map_cons, List.nodup_cons] at hkeys
    rw [List.foldlM_cons] at h
    obtain ⟨s₁, hfirst, hrest⟩ := bind_eq_ok_iff.mp h
    rw [ih hkeys.2 hrest, hstep hfirst]
    by_cases hk : k = key
    · subst hk
      -- the key does not come again
      have hnone : rest.lookup k = none := lookup_eq_none_iff_not_mem.mpr hkeys.1
      simp [hnone]
    · have hne : (key == k) = false := by simpa using Ne.symm hk
      simp [List.lookup_cons, hne, hk]

end Steps

namespace Config

/-! ### Tables that give a configuration -/

/-- An entry that the section `assembler` can have. -/
inductive AssemblerEntry : String × Toml.Value → Prop
  | cpu {name : String} {cpu : Cpu} (h : Cpu.ofName? name = some cpu) :
      AssemblerEntry ("cpu", .string name)
  | moduleName {name : String} (h : name ≠ "") : AssemblerEntry ("module", .string name)
  | warningsAsErrors (b : Bool) : AssemblerEntry ("warnings_as_errors", .boolean b)

/-- An entry that the section `listing` can have: the number of a column. -/
inductive ListingEntry : String × Toml.Value → Prop
  | column {key : String} (h : key ∈ ["address", "label", "mnemonic", "comment"]) (n : Nat) :
      ListingEntry (key, .integer n)

/-- A section with entries that it can have. -/
inductive Section : String × Toml.Value → Prop
  | assembler {entries : Toml.Table} (h : ∀ entry ∈ entries, AssemblerEntry entry) :
      Section ("assembler", .table entries)
  | listing {entries : Toml.Table} (h : ∀ entry ∈ entries, ListingEntry entry) :
      Section ("listing", .table entries)

/-- Every entry of the document is a section with entries that it can have. -/
def WellFormed (t : Toml.Table) : Prop :=
  ∀ entry ∈ t, Section entry

/-! ### The configuration of a table -/

def cpuOf? : Toml.Value → Option Cpu
  | .string name => Cpu.ofName? name
  | _ => none

def nameOf? : Toml.Value → Option String
  | .string name => some name
  | _ => none

def flagOf? : Toml.Value → Option Bool
  | .boolean b => some b
  | _ => none

def columnOf? : Toml.Value → Option Nat
  | .integer n => some n.toNat
  | _ => none

/-- The entries of the section with this name, none if there is no such section. -/
def entriesOf (t : Toml.Table) (name : String) : Toml.Table :=
  match t.lookup name with
  | some (.table entries) => entries
  | _ => []

/-- What stands under a key in a section. -/
def valueUnder? (t : Toml.Table) (name key : String) : Option Toml.Value :=
  (entriesOf t name).lookup key

/-- Each field has the value under its key, or its default where the key is missing. -/
def settings (t : Toml.Table) : Config where
  cpu := ((valueUnder? t "assembler" "cpu").bind cpuOf?).getD .intel8080
  moduleName := (valueUnder? t "assembler" "module").bind nameOf?
  warningsAsErrors := ((valueUnder? t "assembler" "warnings_as_errors").bind flagOf?).getD false
  listing :=
    { address := ((valueUnder? t "listing" "address").bind columnOf?).getD 0
      label := ((valueUnder? t "listing" "label").bind columnOf?).getD 20
      mnemonic := ((valueUnder? t "listing" "mnemonic").bind columnOf?).getD 30
      comment := ((valueUnder? t "listing" "comment").bind columnOf?).getD 50 }

/-! ### One entry -/

section Entries

variable {c c' : Config} {columns columns' : Columns} {key : String} {v : Toml.Value}

lemma stringValue_eq_ok_iff {name : String} : stringValue key v = .ok name ↔ v = .string name := by
  cases v <;> simp [stringValue]

lemma booleanValue_eq_ok_iff {b : Bool} : booleanValue key v = .ok b ↔ v = .boolean b := by
  cases v <;> simp [booleanValue]

lemma columnValue_eq_ok_iff {n : Nat} : columnValue key v = .ok n ↔ v = .integer n := by
  cases v with
  | integer i =>
    simp only [columnValue, Toml.Value.integer.injEq]
    split
    · rw [Except.ok.injEq]
      omega
    · simp only [reduceCtorEq, false_iff]
      omega
  | _ => simp [columnValue]

/-- What a step of the section `assembler` can do. -/
lemma withAssemblerEntry_eq_ok_iff : withAssemblerEntry c (key, v) = .ok c' ↔
    (∃ name cpu, key = "cpu" ∧ v = .string name ∧ Cpu.ofName? name = some cpu ∧
      c' = { c with cpu }) ∨
    (∃ name, key = "module" ∧ v = .string name ∧ name ≠ "" ∧
      c' = { c with moduleName := some name }) ∨
    (∃ b, key = "warnings_as_errors" ∧ v = .boolean b ∧
      c' = { c with warningsAsErrors := b }) := by
  constructor
  · intro h
    unfold withAssemblerEntry at h
    split at h
    next v heq =>
      cases heq
      obtain ⟨name, hname, h⟩ := bind_eq_ok_iff.mp h
      split at h
      next cpu hcpu =>
        cases h
        exact .inl ⟨name, cpu, rfl, stringValue_eq_ok_iff.mp hname, hcpu, rfl⟩
      next => cases h
    next v heq =>
      cases heq
      obtain ⟨name, hname, h⟩ := bind_eq_ok_iff.mp h
      split at h
      next => cases h
      next hempty =>
        cases h
        refine .inr (.inl ⟨name, rfl, stringValue_eq_ok_iff.mp hname, ?_, rfl⟩)
        simpa using hempty
    next v heq =>
      cases heq
      obtain ⟨b, hb, h⟩ := bind_eq_ok_iff.mp h
      cases h
      exact .inr (.inr ⟨b, rfl, booleanValue_eq_ok_iff.mp hb, rfl⟩)
    next => cases h
  · rintro (⟨name, cpu, rfl, rfl, hcpu, rfl⟩ | ⟨name, rfl, rfl, hname, rfl⟩ | ⟨b, rfl, rfl, rfl⟩)
    · exact bind_eq_ok_iff.mpr ⟨name, rfl, by rw [hcpu]⟩
    · exact bind_eq_ok_iff.mpr ⟨name, rfl, if_neg (by simpa using hname)⟩
    · rfl

/-- What a step of the section `listing` can do. -/
lemma withListingEntry_eq_ok_iff : withListingEntry columns (key, v) = .ok columns' ↔
    ∃ n : Nat, v = .integer n ∧
      (key = "address" ∧ columns' = { columns with address := n } ∨
        key = "label" ∧ columns' = { columns with label := n } ∨
        key = "mnemonic" ∧ columns' = { columns with mnemonic := n } ∨
        key = "comment" ∧ columns' = { columns with comment := n }) := by
  constructor
  · intro h
    unfold withListingEntry at h
    split at h
    case h_5 => cases h
    all_goals
      next v heq =>
        cases heq
        obtain ⟨n, hn, h⟩ := bind_eq_ok_iff.mp h
        cases h
        exact ⟨n, columnValue_eq_ok_iff.mp hn, by simp⟩
  · rintro ⟨n, rfl, ⟨rfl, rfl⟩ | ⟨rfl, rfl⟩ | ⟨rfl, rfl⟩ | ⟨rfl, rfl⟩⟩ <;>
      exact bind_eq_ok_iff.mpr ⟨n, columnValue_eq_ok_iff.mpr rfl, rfl⟩

/-- An entry is accepted for what it is, whatever came before. -/
lemma exists_withAssemblerEntry_iff (c : Config) (entry : String × Toml.Value) :
    (∃ c', withAssemblerEntry c entry = .ok c') ↔ AssemblerEntry entry := by
  obtain ⟨key, v⟩ := entry
  simp only [withAssemblerEntry_eq_ok_iff]
  constructor
  · rintro ⟨c', ⟨name, cpu, rfl, rfl, hcpu, -⟩ | ⟨name, rfl, rfl, hname, -⟩ | ⟨b, rfl, rfl, -⟩⟩
    · exact .cpu hcpu
    · exact .moduleName hname
    · exact .warningsAsErrors b
  · intro h
    cases h with
    | cpu hcpu => exact ⟨_, .inl ⟨_, _, rfl, rfl, hcpu, rfl⟩⟩
    | moduleName hname => exact ⟨_, .inr (.inl ⟨_, rfl, rfl, hname, rfl⟩)⟩
    | warningsAsErrors b => exact ⟨_, .inr (.inr ⟨b, rfl, rfl, rfl⟩)⟩

lemma exists_withListingEntry_iff (columns : Columns) (entry : String × Toml.Value) :
    (∃ columns', withListingEntry columns entry = .ok columns') ↔ ListingEntry entry := by
  obtain ⟨key, v⟩ := entry
  simp only [withListingEntry_eq_ok_iff]
  constructor
  · rintro ⟨columns', n, rfl, h⟩
    refine .column ?_ n
    obtain ⟨rfl, -⟩ | ⟨rfl, -⟩ | ⟨rfl, -⟩ | ⟨rfl, -⟩ := h <;> simp
  · intro h
    cases h with
    | column hkey n =>
      simp only [List.mem_cons, List.not_mem_nil, or_false] at hkey
      obtain rfl | rfl | rfl | rfl := hkey <;> simp

lemma sets_cpu : Sets withAssemblerEntry Config.cpu "cpu" cpuOf? := by
  intro c key v c' h
  obtain ⟨name, cpu, rfl, rfl, hcpu, rfl⟩ | ⟨name, rfl, rfl, -, rfl⟩ | ⟨b, rfl, rfl, rfl⟩ :=
    withAssemblerEntry_eq_ok_iff.mp h
  · simp [cpuOf?, hcpu]
  · simp
  · simp

lemma sets_moduleName :
    Sets withAssemblerEntry Config.moduleName "module" fun v => some (nameOf? v) := by
  intro c key v c' h
  obtain ⟨name, cpu, rfl, rfl, -, rfl⟩ | ⟨name, rfl, rfl, -, rfl⟩ | ⟨b, rfl, rfl, rfl⟩ :=
    withAssemblerEntry_eq_ok_iff.mp h
  · simp
  · simp [nameOf?]
  · simp

lemma sets_warningsAsErrors :
    Sets withAssemblerEntry Config.warningsAsErrors "warnings_as_errors" flagOf? := by
  intro c key v c' h
  obtain ⟨name, cpu, rfl, rfl, -, rfl⟩ | ⟨name, rfl, rfl, -, rfl⟩ | ⟨b, rfl, rfl, rfl⟩ :=
    withAssemblerEntry_eq_ok_iff.mp h
  · simp
  · simp
  · simp [flagOf?]

/-- The section `assembler` leaves the columns alone. -/
lemma listing_of_withAssemblerEntry {entry : String × Toml.Value}
    (h : withAssemblerEntry c entry = .ok c') : c'.listing = c.listing := by
  obtain ⟨name, cpu, -, -, -, rfl⟩ | ⟨name, -, -, -, rfl⟩ | ⟨b, -, -, rfl⟩ :=
    withAssemblerEntry_eq_ok_iff.mp h
  all_goals rfl

/-- Each key of the section `listing` sets the column of its name. -/
lemma sets_columns :
    Sets withListingEntry Columns.address "address" columnOf? ∧
      Sets withListingEntry Columns.label "label" columnOf? ∧
      Sets withListingEntry Columns.mnemonic "mnemonic" columnOf? ∧
      Sets withListingEntry Columns.comment "comment" columnOf? := by
  refine ⟨?_, ?_, ?_, ?_⟩
  all_goals
    intro columns key v columns' h
    obtain ⟨n, rfl, ⟨rfl, rfl⟩ | ⟨rfl, rfl⟩ | ⟨rfl, rfl⟩ | ⟨rfl, rfl⟩⟩ :=
      withListingEntry_eq_ok_iff.mp h
    all_goals simp [columnOf?]

end Entries

/-! ### A document -/

/-- No key stands twice, neither in the document nor in one of its sections. -/
structure UniqueKeys (t : Toml.Table) : Prop where
  keys : (t.map Prod.fst).Nodup
  sectionKeys : ∀ {name : String} {entries : Toml.Table},
    (name, .table entries) ∈ t → (entries.map Prod.fst).Nodup

section Documents

variable {t t' : Toml.Table} {c : Config} {name : String}

/-- No key stands twice in a document that is read. -/
def ReadsUniqueKeys (read : Toml.DocumentReader) : Prop :=
  ∀ text t, read text = .ok t → UniqueKeys t

theorem readsUniqueKeys_read : ReadsUniqueKeys Toml.read := by
  intro text t h
  cases Toml.distinct_of_parse? (Toml.read_eq_ok_iff.mp h) with
  | table hkeys hvalues =>
    refine ⟨hkeys, ?_⟩
    intro name entries hentry
    cases hvalues _ hentry with
    | table hkeys _ => exact hkeys

lemma UniqueKeys.entriesOf (hkeys : UniqueKeys t) (name : String) :
    ((entriesOf t name).map Prod.fst).Nodup := by
  unfold Config.entriesOf
  split
  next entries hlookup => exact hkeys.sectionKeys (mem_of_lookup hlookup)
  next => exact List.nodup_nil

lemma checkSection_eq_ok_iff {entry : String × Toml.Value} :
    checkSection entry = .ok () ↔ entry.1 = "assembler" ∨ entry.1 = "listing" := by
  unfold checkSection
  split
  next h => simp [h]
  next h => simp [not_or.mp h]

lemma entriesOf_of_sectionEntries {entries : Toml.Table}
    (h : sectionEntries t name = .ok entries) : entriesOf t name = entries := by
  unfold sectionEntries at h
  unfold entriesOf
  split at h
  next hlookup =>
    cases h
    rw [hlookup]
  next => cases h
  next hlookup =>
    cases h
    rw [hlookup]

/-- A section gives good entries when it is missing or a table of such. -/
lemma exists_sectionEntries_iff (hkeys : UniqueKeys t) {P : String × Toml.Value → Prop} :
    (∃ entries, sectionEntries t name = .ok entries ∧ ∀ entry ∈ entries, P entry) ↔
      ∀ v, (name, v) ∈ t → ∃ entries, v = .table entries ∧ ∀ entry ∈ entries, P entry := by
  simp only [← lookup_eq_some_iff_mem hkeys.keys]
  unfold sectionEntries
  cases t.lookup name with
  | none => simp
  | some v => cases v <;> simp

/-- The steps of reading a document. -/
lemma ofTable_eq_ok_iff_steps : ofTable t = .ok c ↔
    (∀ entry ∈ t, checkSection entry = .ok ()) ∧
      ∃ assembler, sectionEntries t "assembler" = .ok assembler ∧
      ∃ c₁, assembler.foldlM withAssemblerEntry {} = .ok c₁ ∧
      ∃ listing, sectionEntries t "listing" = .ok listing ∧
      ∃ columns, listing.foldlM withListingEntry c₁.listing = .ok columns ∧
        { c₁ with listing := columns } = c := by
  simp only [ofTable, bind_eq_ok_iff, pure, Except.pure, Except.ok.injEq, ← forM_eq_ok_iff]
  exact ⟨fun ⟨⟨⟩, h⟩ => h, fun h => ⟨(), h⟩⟩

lemma section_iff {v : Toml.Value} : Section (name, v) ↔
    name = "assembler" ∧ (∃ entries, v = .table entries ∧ ∀ entry ∈ entries, AssemblerEntry entry) ∨
      name = "listing" ∧ ∃ entries, v = .table entries ∧ ∀ entry ∈ entries, ListingEntry entry := by
  constructor
  · intro h
    cases h with
    | assembler h => exact .inl ⟨rfl, _, rfl, h⟩
    | listing h => exact .inr ⟨rfl, _, rfl, h⟩
  · rintro (⟨rfl, entries, rfl, h⟩ | ⟨rfl, entries, rfl, h⟩)
    · exact .assembler h
    · exact .listing h

/-- Well-formedness, in the order in which it is looked for. -/
lemma wellFormed_iff : WellFormed t ↔
    (∀ entry ∈ t, checkSection entry = .ok ()) ∧
      (∀ v, ("assembler", v) ∈ t →
        ∃ entries, v = .table entries ∧ ∀ entry ∈ entries, AssemblerEntry entry) ∧
      ∀ v, ("listing", v) ∈ t →
        ∃ entries, v = .table entries ∧ ∀ entry ∈ entries, ListingEntry entry := by
  simp only [WellFormed, Prod.forall, section_iff, checkSection_eq_ok_iff]
  constructor
  · intro h
    refine ⟨fun name v hv => (h name v hv).imp And.left And.left, fun v hv => ?_, fun v hv => ?_⟩
    · simpa using h _ v hv
    · simpa using h _ v hv
  · rintro ⟨hnames, hassembler, hlisting⟩ name v hv
    obtain rfl | rfl := hnames name v hv
    · exact .inl ⟨rfl, hassembler v hv⟩
    · exact .inr ⟨rfl, hlisting v hv⟩

/-- The steps can be taken when the document is well formed. -/
lemma exists_ofTable_iff (hkeys : UniqueKeys t) : (∃ c, ofTable t = .ok c) ↔ WellFormed t := by
  rw [wellFormed_iff, ← exists_sectionEntries_iff hkeys, ← exists_sectionEntries_iff hkeys]
  constructor
  · rintro ⟨c, h⟩
    obtain ⟨hnames, assembler, hassembler, c₁, hc₁, listing, hlisting, columns, hcolumns, -⟩ :=
      ofTable_eq_ok_iff_steps.mp h
    have hentries := (exists_foldlM_eq_ok_iff exists_withAssemblerEntry_iff).mp ⟨c₁, hc₁⟩
    have hentries' := (exists_foldlM_eq_ok_iff exists_withListingEntry_iff).mp ⟨columns, hcolumns⟩
    exact ⟨hnames, ⟨assembler, hassembler, hentries⟩, listing, hlisting, hentries'⟩
  · rintro ⟨hnames, ⟨assembler, hassembler, hentries⟩, listing, hlisting, hentries'⟩
    obtain ⟨c₁, hc₁⟩ := (exists_foldlM_eq_ok_iff exists_withAssemblerEntry_iff).mpr hentries
    obtain ⟨columns, hcolumns⟩ :=
      (exists_foldlM_eq_ok_iff exists_withListingEntry_iff).mpr hentries'
    exact ⟨_, ofTable_eq_ok_iff_steps.mpr
      ⟨hnames, assembler, hassembler, c₁, hc₁, listing, hlisting, columns, hcolumns, rfl⟩⟩

/-- A document that gives a configuration gives its settings. -/
lemma eq_settings_of_ofTable (hkeys : UniqueKeys t) (h : ofTable t = .ok c) : c = settings t := by
  obtain ⟨-, assembler, hassembler, c₁, hc₁, listing, hlisting, columns, hcolumns, rfl⟩ :=
    ofTable_eq_ok_iff_steps.mp h
  have hunique := hkeys.entriesOf "assembler"
  rw [entriesOf_of_sectionEntries hassembler] at hunique
  have hunique' := hkeys.entriesOf "listing"
  rw [entriesOf_of_sectionEntries hlisting] at hunique'
  have hlisting₁ : c₁.listing = {} := eq_of_foldlM listing_of_withAssemblerEntry hc₁
  rw [hlisting₁] at hcolumns
  obtain ⟨haddress, hlabel, hmnemonic, hcomment⟩ := sets_columns
  have hassembler : ∀ key, valueUnder? t "assembler" key = assembler.lookup key := fun key => by
    rw [valueUnder?, entriesOf_of_sectionEntries hassembler]
  have hlisting : ∀ key, valueUnder? t "listing" key = listing.lookup key := fun key => by
    rw [valueUnder?, entriesOf_of_sectionEntries hlisting]
  simp only [settings, hassembler, hlisting, Config.mk.injEq]
  refine ⟨sets_cpu.of_foldlM hunique hc₁, ?_, sets_warningsAsErrors.of_foldlM hunique hc₁, ?_⟩
  · rw [sets_moduleName.of_foldlM hunique hc₁]
    cases assembler.lookup "module" <;> rfl
  · rw [← haddress.of_foldlM hunique' hcolumns, ← hlabel.of_foldlM hunique' hcolumns,
      ← hmnemonic.of_foldlM hunique' hcolumns, ← hcomment.of_foldlM hunique' hcolumns]

/-- What a document gives, without an order. -/
lemma ofTable_eq_ok_iff (hkeys : UniqueKeys t) :
    ofTable t = .ok c ↔ WellFormed t ∧ c = settings t := by
  constructor
  · intro h
    exact ⟨(exists_ofTable_iff hkeys).mp ⟨c, h⟩, eq_settings_of_ofTable hkeys h⟩
  · rintro ⟨h, rfl⟩
    obtain ⟨c, hc⟩ := (exists_ofTable_iff hkeys).mpr h
    rw [hc, eq_settings_of_ofTable hkeys hc]

/-! ### Documents that differ in the order of their entries -/

/-- The same value, or a section with the same entries in some order. -/
inductive SameValue : Toml.Value → Toml.Value → Prop
  | same (v : Toml.Value) : SameValue v v
  | table {entries entries' : Toml.Table} (h : entries.Perm entries') :
      SameValue (.table entries) (.table entries')

/-- The same key with the same value. -/
def SameEntry (entry entry' : String × Toml.Value) : Prop :=
  entry.1 = entry'.1 ∧ SameValue entry.2 entry'.2

/-- The same entries in some order, also inside the sections. -/
def Reordered (t t' : Toml.Table) : Prop :=
  ∃ u, t.Perm u ∧ List.Forall₂ SameEntry u t'

lemma SameValue.symm {v v' : Toml.Value} (h : SameValue v v') : SameValue v' v := by
  cases h with
  | same => exact .same v
  | table h => exact .table h.symm

lemma SameEntry.symm {entry entry' : String × Toml.Value} (h : SameEntry entry entry') :
    SameEntry entry' entry :=
  ⟨h.1.symm, h.2.symm⟩

lemma Section.of_perm {entries entries' : Toml.Table} (h : Section (name, .table entries))
    (hperm : entries.Perm entries') : Section (name, .table entries') := by
  cases h with
  | assembler h => exact .assembler fun entry hentry => h entry (hperm.mem_iff.mpr hentry)
  | listing h => exact .listing fun entry hentry => h entry (hperm.mem_iff.mpr hentry)

namespace Reordered

lemma symm (h : Reordered t t') : Reordered t' t := by
  obtain ⟨u, hperm, hsame⟩ := h
  have hcomp : Relation.Comp (List.Forall₂ SameEntry) List.Perm t' t :=
    ⟨u, (hsame.imp fun _ _ => SameEntry.symm).flip, hperm.symm⟩
  rwa [List.forall₂_comp_perm_eq_perm_comp_forall₂] at hcomp

/-- Every entry has its counterpart. -/
lemma exists_mem (h : Reordered t t') {entry : String × Toml.Value} (hentry : entry ∈ t) :
    ∃ entry' ∈ t', SameEntry entry entry' := by
  obtain ⟨u, hperm, hsame⟩ := h
  rw [hperm.mem_iff] at hentry
  clear hperm
  induction hsame with
  | nil => cases hentry
  | cons hhead _ ih =>
    obtain rfl | hentry := List.mem_cons.mp hentry
    · exact ⟨_, List.mem_cons_self, hhead⟩
    · obtain ⟨entry', hentry', hsame⟩ := ih hentry
      exact ⟨entry', List.mem_cons_of_mem _ hentry', hsame⟩

lemma keys_perm (h : Reordered t t') : (t.map Prod.fst).Perm (t'.map Prod.fst) := by
  obtain ⟨u, hperm, hsame⟩ := h
  have hkeys : u.map Prod.fst = t'.map Prod.fst := by
    clear hperm
    induction hsame with
    | nil => rfl
    | cons hhead _ ih => rw [List.map_cons, List.map_cons, hhead.1, ih]
  rw [← hkeys]
  exact hperm.map Prod.fst

lemma uniqueKeys (h : Reordered t t') (hkeys : UniqueKeys t) : UniqueKeys t' where
  keys := h.keys_perm.nodup_iff.mp hkeys.keys
  sectionKeys := by
    intro name entries' hentry
    obtain ⟨⟨name, v⟩, hentry, rfl, hv⟩ := h.symm.exists_mem hentry
    cases hv with
    | same => exact hkeys.sectionKeys hentry
    | table hperm => exact (hperm.map Prod.fst).nodup_iff.mpr (hkeys.sectionKeys hentry)

lemma wellFormed (h : Reordered t t') (hformed : WellFormed t) : WellFormed t' := by
  rintro ⟨name, v'⟩ hentry
  obtain ⟨⟨name, v⟩, hentry, rfl, hv⟩ := h.symm.exists_mem hentry
  have hsection := hformed _ hentry
  cases hv with
  | same => exact hsection
  | table hperm => exact hsection.of_perm hperm.symm

/-- A section has the same entries in both documents. -/
lemma entriesOf_perm (h : Reordered t t') (hkeys : UniqueKeys t) (name : String) :
    (entriesOf t name).Perm (entriesOf t' name) := by
  have hkeys' := h.uniqueKeys hkeys
  cases hlookup : t.lookup name with
  | some v =>
    obtain ⟨⟨name, v'⟩, hentry, rfl, hv⟩ := h.exists_mem (mem_of_lookup hlookup)
    have hlookup' := lookup_of_mem hkeys'.keys hentry
    simp only [entriesOf, hlookup, hlookup']
    cases hv with
    | same => rfl
    | table hperm => exact hperm
  | none =>
    have hlookup' : t'.lookup name = none := by
      refine Option.eq_none_iff_forall_not_mem.mpr fun v' hv' => ?_
      obtain ⟨⟨name, v⟩, hentry, rfl, -⟩ := h.symm.exists_mem (mem_of_lookup hv')
      rw [lookup_of_mem hkeys.keys hentry] at hlookup
      cases hlookup
    simp [entriesOf, hlookup, hlookup']

lemma settings_eq (h : Reordered t t') (hkeys : UniqueKeys t) : settings t = settings t' := by
  have hentry : ∀ name key, valueUnder? t name key = valueUnder? t' name key := fun name =>
    lookup_eq_of_perm (hkeys.entriesOf name) (h.entriesOf_perm hkeys name)
  simp only [settings, hentry]

end Reordered

/-- Tables that differ in the order of their entries, with no key twice, give the same
configuration, or none. They give one when they are well formed, and then it has what stands under
their keys. So do texts that are read as such tables, where no key stands twice in what is read. -/
theorem ofTable_eq_ok_iff_of_reordered (h : Reordered t t') :
    (UniqueKeys t → ∀ c, (ofTable t = .ok c ↔ WellFormed t ∧ c = settings t) ∧
        (ofTable t' = .ok c ↔ ofTable t = .ok c)) ∧
      ∀ read, ReadsUniqueKeys read → ∀ text text', read text = .ok t → read text' = .ok t' →
        ∀ c, (parse read text = .ok c ↔ WellFormed t ∧ c = settings t) ∧
          (parse read text' = .ok c ↔ parse read text = .ok c) := by
  have htables : UniqueKeys t → ∀ c, (ofTable t = .ok c ↔ WellFormed t ∧ c = settings t) ∧
      (ofTable t' = .ok c ↔ ofTable t = .ok c) := by
    intro hkeys c
    refine ⟨ofTable_eq_ok_iff hkeys, ?_⟩
    rw [ofTable_eq_ok_iff hkeys, ofTable_eq_ok_iff (h.uniqueKeys hkeys), h.settings_eq hkeys]
    exact and_congr_left fun _ => ⟨h.symm.wellFormed, h.wellFormed⟩
  refine ⟨htables, fun read hread text text' htext htext' => ?_⟩
  have hparse : parse read text = ofTable t := by rw [parse, htext]
  have hparse' : parse read text' = ofTable t' := by rw [parse, htext']
  rw [hparse, hparse']
  exact htables (hread text t htext)

/-- A document with both sections. -/
def monitorTable : Toml.Table :=
  [("assembler", .table [("cpu", .string "Intel8085"), ("module", .string "MONITOR")]),
    ("listing", .table [("label", .integer 8), ("comment", .integer 40)])]

/-- The same with the sections and their entries the other way round. -/
def reversedMonitorTable : Toml.Table :=
  [("listing", .table [("comment", .integer 40), ("label", .integer 8)]),
    ("assembler", .table [("module", .string "MONITOR"), ("cpu", .string "Intel8085")])]

/-- The first document. -/
def monitorText : String :=
  "[assembler]\ncpu = \"Intel8085\"\nmodule = \"MONITOR\"\n[listing]\nlabel = 8\ncomment = 40\n"

/-- The second document. -/
def reversedMonitorText : String :=
  "[listing]\ncomment = 40\nlabel = 8\n[assembler]\nmodule = \"MONITOR\"\ncpu = \"Intel8085\"\n"

/-- Reads these two documents and no others. -/
def readMonitor : Toml.DocumentReader := fun text =>
  if text = monitorText then .ok monitorTable
  else if text = reversedMonitorText then .ok reversedMonitorTable
  else .error "unknown document"

theorem ofTable_reversedMonitorTable :
    UniqueKeys monitorTable ∧ Reordered monitorTable reversedMonitorTable ∧
      ofTable reversedMonitorTable = .ok
        { cpu := .intel8085, moduleName := some "MONITOR",
          listing := { label := 8, comment := 40 } } ∧
      ReadsUniqueKeys readMonitor ∧
      parse readMonitor reversedMonitorText = parse readMonitor monitorText := by
  have hkeys : UniqueKeys monitorTable := by
    refine ⟨by decide, ?_⟩
    intro name entries h
    simp only [monitorTable, List.mem_cons, Prod.mk.injEq, Toml.Value.table.injEq,
      List.not_mem_nil, or_false] at h
    obtain ⟨-, rfl⟩ | ⟨-, rfl⟩ := h <;> decide
  have h : Reordered monitorTable reversedMonitorTable :=
    ⟨_, .swap _ _ _, .cons ⟨rfl, .table (.swap _ _ _)⟩ (.cons ⟨rfl, .table (.swap _ _ _)⟩ .nil)⟩
  have hread : ReadsUniqueKeys readMonitor := by
    intro text t htext
    rw [readMonitor] at htext
    split at htext
    · cases htext
      exact hkeys
    · split at htext
      · cases htext
        exact h.uniqueKeys hkeys
      · cases htext
  have htext : readMonitor monitorText = .ok monitorTable := if_pos rfl
  have htext' : readMonitor reversedMonitorText = .ok reversedMonitorTable := by
    rw [readMonitor, if_neg (by decide +kernel), if_pos rfl]
  obtain ⟨htables, htexts⟩ := ofTable_eq_ok_iff_of_reordered h
  have hmonitor : ofTable monitorTable = .ok
      { cpu := .intel8085, moduleName := some "MONITOR",
        listing := { label := 8, comment := 40 } } := rfl
  have hparse : parse readMonitor monitorText = ofTable monitorTable := by rw [parse, htext]
  refine ⟨hkeys, h, (htables hkeys _).2.mpr hmonitor, hread, ?_⟩
  rw [hparse, hmonitor]
  refine (htexts readMonitor hread _ _ htext htext' _).2.mpr ?_
  rw [hparse, hmonitor]

end Documents

end Config

end MicroAsm
