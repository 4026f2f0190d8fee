import MicroAsm.Proofs.Lookup
import MicroAsm.Toml.Document

/-!
# Keys of TOML documents

In no table of a document that can be read, however deep, a key stands twice. A document is built
by adding items under keys that nothing stands under, and by changing items in place, both in the
table at the end of a path (`updateAt`). So what is shown of the change there holds of the whole.
-/

namespace MicroAsm.Toml

/-- No key stands twice in a table, here or further in. -/
inductive Value.Distinct : Value → Prop
  | string (s : String) : (Value.string s).Distinct
  | integer (n : Int) : (Value.integer n).Distinct
  | float (literal : String) : (Value.float literal).Distinct
  | boolean (b : Bool) : (Value.boolean b).Distinct
  | dateTime (literal : String) : (Value.dateTime literal).Distinct
  | array {items : List Value} (h : ∀ v ∈ items, v.Distinct) : (Value.array items).Distinct
  | table {entries : Table} (hkeys : (entries.map Prod.fst).Nodup)
      (h : ∀ entry ∈ entries, entry.2.Distinct) : (Value.table entries).Distinct

/-! ### Items -/

lemma toTable_eq_map (items : Items) :
    Items.toTable items = items.map fun entry => (entry.1, entry.2.toValue) := by
  induction items with
  | nil => rw [Items.toTable, List.map_nil]
  | cons entry items ih => rw [Items.toTable, ih, List.map_cons]

lemma tablesToValues_eq_map (all : List Items) :
    tablesToValues all = all.map fun items => .table (Items.toTable items) := by
  induction all with
  | nil => rw [tablesToValues, List.map_nil]
  | cons items all ih => rw [tablesToValues, ih, List.map_cons]

/-- The table that the items stand for has no key twice, here or further in. -/
def Items.Distinct (items : Items) : Prop :=
  (Value.table (Items.toTable items)).Distinct

lemma Items.distinct_iff {items : Items} : Items.Distinct items ↔
    (items.map Prod.fst).Nodup ∧ ∀ entry ∈ items, entry.2.toValue.Distinct := by
  rw [Items.Distinct, toTable_eq_map]
  constructor
  · rintro (_ | _ | _ | _ | _ | _ | ⟨hkeys, h⟩)
    rw [List.map_map] at hkeys
    exact ⟨hkeys, fun entry hentry => h _ (List.mem_map_of_mem hentry)⟩
  · rintro ⟨hkeys, h⟩
    refine .table ?_ ?_
    · rw [List.map_map]
      exact hkeys
    · intro value hvalue
      obtain ⟨entry, hentry, rfl⟩ := List.mem_map.mp hvalue
      exact h entry hentry

@[simp] lemma toValue_value (v : Value) : (Item.value v).toValue = v := by
  rw [Item.toValue]

@[simp] lemma distinct_toValue_table {implicit dotted : Bool} {items : Items} :
    (Item.table implicit dotted items).toValue.Distinct ↔ Items.Distinct items := by
  rw [Item.toValue, Items.Distinct]

@[simp] lemma distinct_toValue_tables {all : List Items} :
    (Item.tables all).toValue.Distinct ↔ ∀ items ∈ all, Items.Distinct items := by
  rw [Item.toValue, tablesToValues_eq_map]
  constructor
  · rintro (_ | _ | _ | _ | _ | h)
    exact fun items hitems => h _ (List.mem_map_of_mem hitems)
  · intro h
    refine .array ?_
    intro value hvalue
    obtain ⟨items, hitems, rfl⟩ := List.mem_map.mp hvalue
    exact h items hitems

namespace Items.Distinct

variable {items : Items} {key : String} {item : Item}

lemma nil : Items.Distinct [] :=
  distinct_iff.mpr ⟨List.nodup_nil, by simp⟩

lemma of_lookup (h : Items.Distinct items) (hlookup : items.lookup key = some item) :
    item.toValue.Distinct := by
  obtain ⟨front, back, rfl, -⟩ := List.lookup_eq_some_iff.mp hlookup
  exact (distinct_iff.mp h).2 (key, item) (by simp)

/-- An item under a new key. -/
lemma append (h : Items.Distinct items) (hnone : items.lookup key = none)
    (hitem : item.toValue.Distinct) : Items.Distinct (items ++ [(key, item)]) := by
  obtain ⟨hkeys, hvalues⟩ := distinct_iff.mp h
  refine distinct_iff.mpr ⟨?_, ?_⟩
  · rw [List.map_append]
    refine hkeys.append (List.nodup_singleton key) ?_
    exact List.disjoint_singleton.mpr (lookup_eq_none_iff_not_mem.mp hnone)
  · intro entry hentry
    obtain hentry | hentry := List.mem_append.mp hentry
    · exact hvalues entry hentry
    · rw [List.mem_singleton.mp hentry]
      exact hitem

/-- An item in the place of another. -/
lemma replace (h : Items.Distinct items) (hitem : item.toValue.Distinct) :
    Items.Distinct (replaceItem items key item) := by
  obtain ⟨hkeys, hvalues⟩ := distinct_iff.mp h
  refine distinct_iff.mpr ⟨?_, ?_⟩
  · have hsame : (replaceItem items key item).map Prod.fst = items.map Prod.fst := by
      rw [replaceItem, List.map_map]
      refine List.map_congr_left fun entry _ => ?_
      simp only [Function.comp_apply]
      split <;> rfl
    rwa [hsame]
  · intro entry hentry
    obtain ⟨⟨k, old⟩, hold, rfl⟩ := List.mem_map.mp hentry
    by_cases hk : k = key
    · simpa [hk] using hitem
    · simpa [hk] using hvalues _ hold

lemma remove (h : Items.Distinct items) : Items.Distinct (removeItem items key) := by
  obtain ⟨hkeys, hvalues⟩ := distinct_iff.mp h
  refine distinct_iff.mpr ⟨hkeys.sublist (List.filter_sublist.map _), ?_⟩
  exact fun entry hentry => hvalues entry (List.mem_of_mem_filter hentry)

end Items.Distinct

/-- A change at the end of a path keeps the keys of the whole apart when it keeps those of the table
there apart; what else is known of the change then holds of it. -/
lemma distinct_updateAt {α : Type} {P : α → Prop} {byDots : Bool}
    {change : Bool → Items → Option (Items × α)}
    (hchange : ∀ {dotted items items' a}, Items.Distinct items →
      change dotted items = some (items', a) → Items.Distinct items' ∧ P a)
    {path : List String} {dotted : Bool} {items items' : Items} {a : α}
    (hitems : Items.Distinct items)
    (h : updateAt byDots change path dotted items = some (items', a)) :
    Items.Distinct items' ∧ P a := by
  induction path generalizing dotted items items' a with
  | nil => exact hchange hitems h
  | cons key path ih =>
    rw [updateAt] at h
    split at h
    next hnone =>
      obtain ⟨⟨inner, b⟩, hinner, h⟩ := Option.bind_eq_some_iff.mp h
      cases h
      obtain ⟨hdistinct, hb⟩ := ih .nil hinner
      exact ⟨hitems.append hnone (by simpa using hdistinct), hb⟩
    next => cases h
    next all hall =>
      obtain ⟨last, hlast, h⟩ := Option.bind_eq_some_iff.mp h
      obtain ⟨⟨inner, b⟩, hinner, h⟩ := Option.bind_eq_some_iff.mp h
      cases h
      have htables := distinct_toValue_tables.mp (hitems.of_lookup hall)
      obtain ⟨hdistinct, hb⟩ := ih (htables last (List.mem_of_getLast? hlast)) hinner
      refine ⟨hitems.replace (distinct_toValue_tables.mpr fun table htable => ?_), hb⟩
      obtain htable | htable := List.mem_append.mp htable
      · exact htables table (List.dropLast_subset all htable)
      · rw [List.mem_singleton.mp htable]
        exact hdistinct
    next implicit dotted inner htable =>
      split at h
      · cases h
      · obtain ⟨⟨inner', b⟩, hinner, h⟩ := Option.bind_eq_some_iff.mp h
        cases h
        obtain ⟨hdistinct, hb⟩ :=
          ih (distinct_toValue_table.mp (hitems.of_lookup htable)) hinner
        exact ⟨hitems.replace (by simpa using hdistinct), hb⟩

/-- A value under a new key. -/
lemma distinct_addValue {items items' : Items} {path : List String} {key : String} {item : Item}
    (hitems : Items.Distinct items) (hitem : item.toValue.Distinct)
    (h : addValue items path key item = some items') : Items.Distinct items' := by
  obtain ⟨⟨items₁, ⟨⟩⟩, hupdate, h⟩ := Option.bind_eq_some_iff.mp h
  cases h
  refine (distinct_updateAt (P := fun _ => True) ?_ hitems hupdate).1
  intro dotted items items' a hitems h
  split at h
  · cases h
  · split at h
    · cases h
    next hnone =>
      cases h
      exact ⟨hitems.append (Option.not_isSome_iff_eq_none.mp hnone) hitem, trivial⟩

/-! ### Documents that are being built -/

namespace Builder

/-- What a document has so far. -/
structure Distinct (b : Builder) : Prop where
  root : Items.Distinct b.root
  current : Items.Distinct b.current

variable {b b' : Builder}

lemma Distinct.close {items : Items} (hb : b.Distinct) (h : b.close = some items) :
    Items.Distinct items := by
  unfold Builder.close at h
  split at h
  next =>
    cases h
    exact hb.current
  next key hkey =>
    obtain ⟨⟨items, ⟨⟩⟩, hupdate, h⟩ := Option.bind_eq_some_iff.mp h
    cases h
    refine (distinct_updateAt (P := fun _ => True) ?_ hb.root hupdate).1
    intro dotted items items' a hitems h
    refine ⟨?_, trivial⟩
    split at h
    next hnone =>
      cases h
      refine hitems.append hnone ?_
      split
      · simpa using hb.current
      · simpa using hb.current
    next all hall =>
      split at h
      · cases h
        refine hitems.replace (distinct_toValue_tables.mpr fun table htable => ?_)
        obtain htable | htable := List.mem_append.mp htable
        · exact distinct_toValue_tables.mp (hitems.of_lookup hall) table htable
        · rw [List.mem_singleton.mp htable]
          exact hb.current
      · cases h
    next =>
      split at h
      · cases h
      · cases h
        exact hitems.replace (distinct_toValue_table.mpr hb.current)
    next => cases h

lemma Distinct.openTable {path : List String} (hb : b.Distinct) (h : b.openTable path = some b') :
    b'.Distinct := by
  obtain ⟨root, hclose, h⟩ := Option.bind_eq_some_iff.mp h
  obtain ⟨key, hkey, h⟩ := Option.bind_eq_some_iff.mp h
  obtain ⟨⟨root', current⟩, hupdate, h⟩ := Option.bind_eq_some_iff.mp h
  cases h
  refine (fun ⟨hroot, hcurrent⟩ => ⟨hroot, hcurrent⟩)
    (distinct_updateAt (P := Items.Distinct) ?_ (hb.close hclose) hupdate)
  intro dotted items items' inner hitems h
  split at h
  next =>
    cases h
    exact ⟨hitems, .nil⟩
  next htable =>
    cases h
    exact ⟨hitems.remove, distinct_toValue_table.mp (hitems.of_lookup htable)⟩
  next => cases h

lemma Distinct.openArray {path : List String} (hb : b.Distinct) (h : b.openArray path = some b') :
    b'.Distinct := by
  obtain ⟨root, hclose, h⟩ := Option.bind_eq_some_iff.mp h
  obtain ⟨key, hkey, h⟩ := Option.bind_eq_some_iff.mp h
  obtain ⟨⟨root', ⟨⟩⟩, hupdate, h⟩ := Option.bind_eq_some_iff.mp h
  cases h
  refine ⟨(distinct_updateAt (P := fun _ => True) ?_ (hb.close hclose) hupdate).1, .nil⟩
  intro dotted items items' a hitems h
  refine ⟨?_, trivial⟩
  split at h
  next hnone =>
    cases h
    exact hitems.append hnone (distinct_toValue_tables.mpr (by simp))
  next =>
    cases h
    exact hitems
  next => cases h

lemma Distinct.add {keys : List String} {v : Value} (hb : b.Distinct) (hv : v.Distinct)
    (h : b.add keys v = some b') : b'.Distinct := by
  obtain ⟨key, hkey, h⟩ := Option.bind_eq_some_iff.mp h
  obtain ⟨current, hcurrent, h⟩ := Option.bind_eq_some_iff.mp h
  cases h
  exact ⟨hb.root, distinct_addValue hb.current (by simpa using hv) hcurrent⟩

end Builder

/-! ### Documents that are read -/

lemma distinct_of_readNumberOrDate {cs rest : List Char} {v : Value}
    (h : readNumberOrDate cs = some (v, rest)) : v.Distinct := by
  unfold readNumberOrDate at h
  split at h
  next =>
    cases h
    exact .dateTime _
  next =>
    split at h
    next =>
      cases h
      exact .float _
    next =>
      obtain ⟨_, -, h⟩ := Option.map_eq_some_iff.mp h
      cases h
      exact .integer _

lemma distinct_of_readScalar {cs rest : List Char} {v : Value}
    (h : readScalar cs = some (v, rest)) : v.Distinct := by
  unfold readScalar at h
  split at h
  · cases h
  · split_ifs at h
    · obtain ⟨_, -, h⟩ := Option.map_eq_some_iff.mp h
      cases h
      exact .string _
    · exact distinct_of_readNumberOrDate h
    all_goals
      obtain ⟨_, -, h⟩ := Option.map_eq_some_iff.mp h
      cases h
      constructor

/-- What a value, the elements of an array or the entries of a table in braces are read to. -/
lemma distinct_of_read (fuel : ℕ) :
    (∀ {depth cs v rest}, readValue fuel depth cs = some (v, rest) → v.Distinct) ∧
      (∀ {depth cs vs rest}, readElements fuel depth cs = some (vs, rest) →
        ∀ v ∈ vs, v.Distinct) ∧
      ∀ {depth first items cs items' rest}, Items.Distinct items →
        readEntries fuel depth first items cs = some (items', rest) → Items.Distinct items' := by
  induction fuel with
  | zero => simp [readValue, readElements, readEntries]
  | succ fuel ih =>
    obtain ⟨ihvalue, ihelements, ihentries⟩ := ih
    refine ⟨?value, ?elements, ?entries⟩
    case value =>
      intro depth cs v rest h
      unfold readValue at h
      split at h
      next =>
        split at h
        · obtain ⟨⟨items, rest⟩, hitems, h⟩ := Option.map_eq_some_iff.mp h
          cases h
          exact .array (ihelements hitems)
        · cases h
      next =>
        split at h
        · obtain ⟨⟨items, rest⟩, hitems, h⟩ := Option.map_eq_some_iff.mp h
          cases h
          exact ihentries .nil hitems
        · cases h
      next => exact distinct_of_readScalar h
    case elements =>
      intro depth cs vs rest h
      unfold readElements at h
      obtain ⟨cs₁, -, h⟩ := Option.bind_eq_some_iff.mp h
      split at h
      next =>
        cases h
        simp
      next =>
        obtain ⟨⟨v, rest₁⟩, hv, h⟩ := Option.bind_eq_some_iff.mp h
        obtain ⟨cs₂, -, h⟩ := Option.bind_eq_some_iff.mp h
        split at h
        next =>
          cases h
          simpa using ihvalue hv
        next =>
          obtain ⟨⟨vs, rest₂⟩, hvs, h⟩ := Option.bind_eq_some_iff.mp h
          cases h
          exact List.forall_mem_cons.mpr ⟨ihvalue hv, ihelements hvs⟩
        next => cases h
    case entries =>
      intro depth first items cs items' rest hitems h
      unfold readEntries at h
      split at h
      next =>
        split at h
        · cases h
          exact hitems
        · cases h
      next =>
        obtain ⟨⟨keys, rest₁⟩, -, h⟩ := Option.bind_eq_some_iff.mp h
        obtain ⟨rest₂, -, h⟩ := Option.bind_eq_some_iff.mp h
        obtain ⟨⟨v, rest₃⟩, hv, h⟩ := Option.bind_eq_some_iff.mp h
        obtain ⟨key, -, h⟩ := Option.bind_eq_some_iff.mp h
        obtain ⟨items₁, hadd, h⟩ := Option.bind_eq_some_iff.mp h
        have hitems₁ : Items.Distinct items₁ :=
          distinct_addValue hitems (by simpa using ihvalue hv) hadd
        split at h
        next =>
          cases h
          exact hitems₁
        next => exact ihentries hitems₁ h
        next => cases h

lemma distinct_of_readKeyValue {cs rest : List Char} {keys : List String} {v : Value}
    (h : readKeyValue cs = some (keys, v, rest)) : v.Distinct := by
  obtain ⟨⟨keys₁, rest₁⟩, -, h⟩ := Option.bind_eq_some_iff.mp h
  obtain ⟨rest₂, -, h⟩ := Option.bind_eq_some_iff.mp h
  obtain ⟨⟨v, rest₃⟩, hv, h⟩ := Option.bind_eq_some_iff.mp h
  obtain ⟨rest₄, -, h⟩ := Option.bind_eq_some_iff.mp h
  cases h
  exact (distinct_of_read _).1 hv

lemma distinct_of_readLines {fuel : ℕ} {b b' : Builder} {cs : List Char} (hb : b.Distinct)
    (h : readLines fuel b cs = some b') : b'.Distinct := by
  induction fuel generalizing b cs with
  | zero => cases h
  | succ fuel ih =>
    unfold readLines at h
    split at h
    next =>
      cases h
      exact hb
    next =>
      split_ifs at h
      · obtain ⟨rest, -, h⟩ := Option.bind_eq_some_iff.mp h
        exact ih hb h
      · obtain ⟨⟨inArray, path, rest⟩, -, h⟩ := Option.bind_eq_some_iff.mp h
        dsimp only at h
        split at h
        · obtain ⟨b₁, hopen, h⟩ := Option.bind_eq_some_iff.mp h
          exact ih (hb.openArray hopen) h
        · obtain ⟨b₁, hopen, h⟩ := Option.bind_eq_some_iff.mp h
          exact ih (hb.openTable hopen) h
      · obtain ⟨⟨keys, v, rest⟩, hv, h⟩ := Option.bind_eq_some_iff.mp h
        obtain ⟨b₁, hadd, h⟩ := Option.bind_eq_some_iff.mp h
        exact ih (hb.add (distinct_of_readKeyValue hv) hadd) h

/-! ### Tables that stand for dates -/

lemma distinct_of_resolveAll {items items' : List Value}
    (hitems : ∀ v ∈ items, ∀ v', v.resolve = some v' → v'.Distinct)
    (h : resolveAll items = some items') : ∀ v ∈ items', v.Distinct := by
  induction items generalizing items' with
  | nil =>
    rw [resolveAll] at h
    cases h
    simp
  | cons v items ih =>
    rw [resolveAll] at h
    obtain ⟨v', hv, h⟩ := Option.bind_eq_some_iff.mp h
    obtain ⟨rest, hrest, h⟩ := Option.bind_eq_some_iff.mp h
    cases h
    obtain ⟨hfirst, hitems⟩ := List.forall_mem_cons.mp hitems
    exact List.forall_mem_cons.mpr ⟨hfirst v' hv, ih hitems hrest⟩

/-- Replaced values stand under the keys of the old ones. -/
lemma keys_and_distinct_of_resolveEntries {entries entries' : Table}
    (hentries : ∀ entry ∈ entries, ∀ v', entry.2.resolve = some v' → v'.Distinct)
    (h : resolveEntries entries = some entries') :
    entries'.map Prod.fst = entries.map Prod.fst ∧ ∀ entry ∈ entries', entry.2.Distinct := by
  induction entries generalizing entries' with
  | nil =>
    rw [resolveEntries] at h
    cases h
    simp
  | cons entry entries ih =>
    rw [resolveEntries] at h
    obtain ⟨v', hv, h⟩ := Option.bind_eq_some_iff.mp h
    obtain ⟨rest, hrest, h⟩ := Option.bind_eq_some_iff.mp h
    cases h
    obtain ⟨hfirst, hentries⟩ := List.forall_mem_cons.mp hentries
    obtain ⟨hkeys, hdistinct⟩ := ih hentries hrest
    exact ⟨by simp [hkeys], List.forall_mem_cons.mpr ⟨hfirst v' hv, hdistinct⟩⟩

lemma Value.Distinct.resolve {v v' : Value} (hv : v.Distinct) (h : v.resolve = some v') :
    v'.Distinct := by
  induction hv generalizing v' with
  | array _ ih =>
    rw [Value.resolve] at h
    obtain ⟨items', hitems, rfl⟩ := Option.map_eq_some_iff.mp h
    exact .array (distinct_of_resolveAll (fun v hv v' => ih v hv) hitems)
  | table hkeys _ ih =>
    rw [Value.resolve] at h
    split at h
    next w _ =>
      unfold dateOf? at h
      split at h
      next =>
        split at h
        · cases h
          exact .dateTime _
        · cases h
      next => cases h
    next =>
      obtain ⟨entries', hentries, rfl⟩ := Option.map_eq_some_iff.mp h
      obtain ⟨hsame, hdistinct⟩ :=
        keys_and_distinct_of_resolveEntries (fun entry hentry v' => ih entry hentry) hentries
      exact .table (hsame ▸ hkeys) hdistinct
  | _ =>
    simp only [Value.resolve, Option.some.injEq] at h
    rw [← h]
    constructor

/-- In no table of a document that can be read a key stands twice. -/
theorem distinct_of_parse? {text : String} {t : Table} (h : parse? text = some t) :
    (Value.table t).Distinct := by
  obtain ⟨b, hread, h⟩ := Option.bind_eq_some_iff.mp h
  obtain ⟨items, hclose, h⟩ := Option.bind_eq_some_iff.mp h
  have hb : b.Distinct := distinct_of_readLines ⟨.nil, .nil⟩ hread
  cases hb.close hclose with
  | table hkeys hvalues =>
    obtain ⟨hsame, hdistinct⟩ :=
      keys_and_distinct_of_resolveEntries (fun entry hentry v' => (hvalues entry hentry).resolve) h
    exact .table (hsame ▸ hkeys) hdistinct

end MicroAsm.Toml
