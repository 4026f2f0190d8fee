import Mathlib.Data.List.Nodup

/-!
# Looking up keys

Where no key stands twice, what is found under a key does not depend on the order of the entries.
-/

namespace MicroAsm

variable {κ α : Type} [DecidableEq κ] {entries entries' : List (κ × α)}

lemma mem_of_lookup {key : κ} {a : α} (h : entries.lookup key = some a) : (key, a) ∈ entries := by
  obtain ⟨front, back, rfl, -⟩ := List.lookup_eq_some_iff.mp h
  simp

/-- Nothing is found under a key that no entry has. -/
lemma lookup_eq_none_iff_not_mem {key : κ} :
    entries.lookup key = none ↔ key ∉ entries.map Prod.fst := by
  rw [List.lookup_eq_none_iff, List.mem_map]
  constructor
  · rintro h ⟨entry, hentry, rfl⟩
    simpa using h entry hentry
  · intro h entry hentry
    have hne : key ≠ entry.1 := fun heq => h ⟨entry, hentry, heq.symm⟩
    simpa using hne

/-- Without repeated keys an entry is found under its key. -/
lemma lookup_of_mem (hkeys : (entries.map Prod.fst).Nodup) {key : κ} {a : α}
    (hmem : (key, a) ∈ entries) : entries.lookup key = some a := by
  obtain ⟨front, back, rfl⟩ := List.append_of_mem hmem
  rw [List.map_append, List.map_cons] at hkeys
  refine List.lookup_eq_some_iff.mpr ⟨front, back, rfl, ?_⟩
  intro entry hentry
  have hne : entry.1 ≠ key := by
    rintro rfl
    exact List.disjoint_of_nodup_append hkeys (List.mem_map_of_mem hentry) List.mem_cons_self
  simpa using hne.symm

lemma lookup_eq_some_iff_mem (hkeys : (entries.map Prod.fst).Nodup) {key : κ} {a : α} :
    entries.lookup key = some a ↔ (key, a) ∈ entries :=
  ⟨mem_of_lookup, lookup_of_mem hkeys⟩

/-- Without repeated keys the order of the entries does not matter. -/
lemma lookup_eq_of_perm (hkeys : (entries.map Prod.fst).Nodup) (h : entries.Perm entries')
    (key : κ) : entries.lookup key = entries'.lookup key := by
  have hkeys' : (entries'.map Prod.fst).Nodup := (h.map Prod.fst).nodup_iff.mp hkeys
  refine Option.ext fun a => ?_
  rw [lookup_eq_some_iff_mem hkeys, lookup_eq_some_iff_mem hkeys', h.mem_iff]

end MicroAsm
