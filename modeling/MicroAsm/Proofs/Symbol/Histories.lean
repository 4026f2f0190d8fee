import Mathlib.Data.List.Induction
import Mathlib.Data.List.Sort
import Mathlib.Data.String.Basic
import MicroAsm.Proofs.Lookup
import MicroAsm.Proofs.Symbol

/-!
# Histories of symbol tables

What a table knows about a name is decided by the operations on that name alone: the first of them
makes the entry, and if that is a variable, assignments give it new values. Every other operation is
refused and changes nothing. Since the entries stand in the order of the capital forms of their
names, tables with the same histories of their names are the same table.
-/

namespace MicroAsm

namespace SymbolTable

/-! ### Order -/

/-- The entries stand under the capital forms of their names, in the order of these. -/
structure Ordered (t : SymbolTable) : Prop where
  key : ∀ entry ∈ t.entries, entry.1 = Text.upper entry.2.name
  sorted : t.entries.Pairwise (·.1 < ·.1)

lemma ordered_empty : Ordered {} :=
  ⟨by simp, .nil⟩

lemma sorted_place {key : String} (symbol : Symbol) {entries : List (String × Symbol)}
    (h : entries.Pairwise (·.1 < ·.1)) : (place key symbol entries).Pairwise (·.1 < ·.1) := by
  induction entries with
  | nil => exact List.pairwise_singleton _ _
  | cons head rest ih =>
    obtain ⟨hhead, hrest⟩ := List.pairwise_cons.mp h
    rw [place]
    split
    · rename_i heq
      refine List.pairwise_cons.mpr ⟨fun entry hentry => ?_, hrest⟩
      exact lt_of_eq_of_lt heq (hhead entry hentry)
    · rename_i hne
      split
      · rename_i hlt
        refine List.pairwise_cons.mpr ⟨fun entry hentry => ?_, h⟩
        rcases List.mem_cons.mp hentry with rfl | hentry
        · exact hlt
        · exact lt_trans hlt (hhead entry hentry)
      · rename_i hnot
        refine List.pairwise_cons.mpr ⟨fun entry hentry => ?_, ih hrest⟩
        rcases mem_place entry hentry with rfl | hentry
        · exact lt_of_le_of_ne (not_lt.mp hnot) (Ne.symm hne)
        · exact hhead entry hentry

lemma Ordered.insert {t : SymbolTable} (h : t.Ordered) (symbol : Symbol) :
    (t.insert symbol).Ordered := by
  refine ⟨fun entry hentry => ?_, sorted_place symbol h.sorted⟩
  rcases mem_place entry hentry with rfl | hentry
  · rfl
  · exact h.key entry hentry

lemma Ordered.nodup {t : SymbolTable} (h : t.Ordered) : (t.entries.map Prod.fst).Nodup :=
  List.pairwise_map.mpr (h.sorted.imp ne_of_lt)

lemma Ordered.keyed {t : SymbolTable} (h : t.Ordered) : t.Keyed :=
  fun _ _ hs => (h.key _ (mem_of_lookup hs)).symm

lemma Ordered.mem_entries_iff {t : SymbolTable} (h : t.Ordered) {key : String} {s : Symbol} :
    (key, s) ∈ t.entries ↔ key = Text.upper s.name ∧ t.get? s.name = some s := by
  rw [get?, lookup_eq_some_iff_mem h.nodup]
  constructor
  · intro hmem
    obtain rfl : key = Text.upper s.name := h.key _ hmem
    exact ⟨rfl, hmem⟩
  · rintro ⟨rfl, hmem⟩
    exact hmem

/-- The symbols of a table are those that are found under their own names. -/
lemma Ordered.mem_toList_iff {t : SymbolTable} (h : t.Ordered) {s : Symbol} :
    s ∈ t.toList ↔ t.get? s.name = some s := by
  rw [toList, List.mem_map]
  constructor
  · rintro ⟨⟨key, s'⟩, hmem, rfl⟩
    exact (h.mem_entries_iff.mp hmem).2
  · intro hs
    exact ⟨_, h.mem_entries_iff.mpr ⟨rfl, hs⟩, rfl⟩

/-- Symbols are listed in the order of the capital forms of their names, no form twice. -/
lemma Ordered.pairwise_toList {t : SymbolTable} (h : t.Ordered) :
    t.toList.Pairwise fun s s' => Text.upper s.name < Text.upper s'.name := by
  rw [toList, List.pairwise_map]
  refine h.sorted.imp_of_mem fun hentry hentry' hlt => ?_
  rwa [← h.key _ hentry, ← h.key _ hentry']

/-- Tables that give the same answers are the same. -/
lemma Ordered.eq_of_get? {t t' : SymbolTable} (h : t.Ordered) (h' : t'.Ordered)
    (hget : ∀ name, t.get? name = t'.get? name) : t = t' := by
  have hentries : t.entries = t'.entries := by
    refine List.Pairwise.eq_of_mem_iff (r := fun e e' => e.1 < e'.1) h.sorted h'.sorted ?_
    rintro ⟨key, s⟩
    rw [h.mem_entries_iff, h'.mem_entries_iff, hget]
  cases t
  cases t'
  cases hentries
  rfl

/-! ### Operations -/

/-- What is done with a table. -/
inductive Operation where
  | add (name : String) (value : UInt16) (kind : SymbolKind)
  | assign (name : String) (value : UInt16)
deriving DecidableEq, Repr

namespace Operation

def name : Operation → String
  | add name _ _ => name
  | assign name _ => name

def value : Operation → UInt16
  | add _ value _ => value
  | assign _ value => value

/-- The kind of symbol that the operation makes of a new name. -/
def kind : Operation → SymbolKind
  | add _ _ kind => kind
  | assign _ _ => .set

def isAssign : Operation → Bool
  | add _ _ _ => false
  | assign _ _ => true

/-- The symbol that the operation makes of a new name. -/
def symbol (o : Operation) : Symbol := ⟨o.name, o.value, o.kind⟩

end Operation

/-- What an operation makes of a table, if it is not refused. -/
def perform (t : SymbolTable) : Operation → Except SymbolError SymbolTable
  | .add name value kind => t.add name value kind
  | .assign name value => t.assign name value

/-- The table after an operation. -/
def apply (t : SymbolTable) (o : Operation) : SymbolTable :=
  match t.perform o with
  | .ok t' => t'
  | .error _ => t

/-- A new table after operations. -/
def after (operations : List Operation) : SymbolTable :=
  operations.foldl apply {}

/-- The operations that are not refused, one after the other. -/
def performed (t : SymbolTable) : List Operation → List Operation
  | [] => []
  | o :: operations =>
    if (t.perform o).isOk then o :: (t.apply o).performed operations
    else (t.apply o).performed operations

/-- The operations on a name. -/
def onName (name : String) (operations : List Operation) : List Operation :=
  operations.filter fun o => Text.upper o.name = Text.upper name

/-- The operations on a name that were not refused by a new table. -/
def history (operations : List Operation) (name : String) : List Operation :=
  onName name (performed {} operations)

variable {t : SymbolTable} {o : Operation} {operations : List Operation}

/-- An operation makes an entry for a new name, gives a variable its value, or is refused. -/
lemma perform_cases (t : SymbolTable) (o : Operation) :
    (t.get? o.name = none ∧ t.perform o = .ok (t.insert o.symbol)) ∨
      (∃ s, t.get? o.name = some s ∧ s.kind = .set ∧ o.isAssign = true ∧
        t.perform o = .ok (t.insert { s with value := o.value })) ∨
      ∃ s, t.get? o.name = some s ∧ (o.isAssign = true → s.kind ≠ .set) ∧
        t.perform o = .error (.duplicate o.name) := by
  cases o with
  | add name value kind =>
    rw [perform, add]
    cases hs : t.get? name with
    | none => exact Or.inl ⟨hs, rfl⟩
    | some s => exact Or.inr (Or.inr ⟨s, hs, by simp [Operation.isAssign], rfl⟩)
  | assign name value =>
    rw [perform, assign]
    cases hs : t.get? name with
    | none => exact Or.inl ⟨hs, rfl⟩
    | some s =>
      by_cases hkind : s.kind = .set
      · exact Or.inr (Or.inl ⟨s, hs, hkind, rfl, by simp [hkind, Operation.value]⟩)
      · exact Or.inr (Or.inr ⟨s, hs, fun _ => hkind, by simp [hkind, Operation.name]⟩)

/-- An operation is refused if its name is taken, unless it gives a variable its value. -/
lemma perform_eq_error_iff {e : SymbolError} :
    t.perform o = .error e ↔ e = .duplicate o.name ∧
      ∃ s, t.get? o.name = some s ∧ (o.isAssign = true → s.kind ≠ .set) := by
  rcases t.perform_cases o with
    ⟨hnone, hok⟩ | ⟨s, hs, hkind, hassign, hok⟩ | ⟨s, hs, hkind, herror⟩
  · simp [hnone, hok]
  · simp [hs, hok, hassign, hkind]
  · rw [herror]
    constructor
    · rintro ⟨⟩
      exact ⟨rfl, s, hs, hkind⟩
    · rintro ⟨rfl, -⟩
      rfl

lemma apply_of_error {e : SymbolError} (h : t.perform o = .error e) : t.apply o = t := by
  rw [apply, h]

lemma Ordered.apply (h : t.Ordered) (o : Operation) : (t.apply o).Ordered := by
  rw [SymbolTable.apply]
  rcases t.perform_cases o with
    ⟨-, hok⟩ | ⟨s, -, -, -, hok⟩ | ⟨s, -, -, herror⟩
  · rw [hok]
    exact h.insert _
  · rw [hok]
    exact h.insert _
  · rw [herror]
    exact h

lemma after_concat (operations : List Operation) (o : Operation) :
    after (operations ++ [o]) = (after operations).apply o := by
  simp [after]

lemma ordered_after (operations : List Operation) : (after operations).Ordered := by
  induction operations using List.reverseRecOn with
  | nil => exact ordered_empty
  | append_singleton operations o ih =>
    rw [after_concat]
    exact ih.apply o

/-! ### One name at a time -/

/-- What an operation makes of what is known about its name. -/
def Operation.revise (o : Operation) : Option Symbol → Option Symbol
  | none => some o.symbol
  | some s => some (if o.isAssign = true ∧ s.kind = .set then { s with value := o.value } else s)

/-- An operation changes what is known about its own name only. -/
lemma get?_apply (ht : t.Keyed) (o : Operation) (name : String) :
    (t.apply o).get? name =
      if Text.upper o.name = Text.upper name then o.revise (t.get? name) else t.get? name := by
  rw [apply]
  by_cases hname : Text.upper o.name = Text.upper name
  · rw [if_pos hname, ← t.get?_congr hname]
    rcases t.perform_cases o with
      ⟨hnone, hok⟩ | ⟨s, hs, hkind, hassign, hok⟩ | ⟨s, hs, hkind, herror⟩
    · simp only [hok, get?_insert, hnone]
      exact if_pos hname.symm
    · have hkey : Text.upper name = Text.upper s.name := by rw [← hname, ht _ s hs]
      simp only [hok, get?_insert, hs, Operation.revise, hassign, hkind, and_self, if_true]
      exact if_pos hkey
    · have hnot : ¬(o.isAssign = true ∧ s.kind = .set) := fun h => hkind h.1 h.2
      simp only [herror, Operation.revise, ← t.get?_congr hname, hs, if_neg hnot]
  · rw [if_neg hname]
    have hne : Text.upper name ≠ Text.upper o.name := fun heq => hname heq.symm
    rcases t.perform_cases o with
      ⟨-, hok⟩ | ⟨s, hs, -, -, hok⟩ | ⟨s, -, -, herror⟩
    · rw [hok]
      exact t.get?_insert_of_ne hne
    · rw [hok]
      refine t.get?_insert_of_ne ?_
      rw [ht _ s hs]
      exact hne
    · rw [herror]

lemma onName_concat (name : String) (operations : List Operation) (o : Operation) :
    onName name (operations ++ [o]) =
      onName name operations ++ if Text.upper o.name = Text.upper name then [o] else [] := by
  rw [onName, List.filter_append, ← onName]
  by_cases hname : Text.upper o.name = Text.upper name
  · simp [hname]
  · simp [hname]

/-- What is known about a name comes from the operations on it. -/
lemma get?_after (operations : List Operation) (name : String) :
    (after operations).get? name =
      (onName name operations).foldl (fun s o => o.revise s) none := by
  induction operations using List.reverseRecOn with
  | nil => rfl
  | append_singleton operations o ih =>
    rw [after_concat, get?_apply (ordered_after operations).keyed, onName_concat,
      List.foldl_append, ih]
    split
    · rfl
    · rfl

/-- Operations on different names can be done in any order. -/
lemma after_eq_of_onName {operations' : List Operation}
    (h : ∀ name, onName name operations = onName name operations') :
    after operations = after operations' := by
  refine (ordered_after operations).eq_of_get? (ordered_after operations') fun name => ?_
  rw [get?_after, get?_after, h]

/-! ### Histories -/

/-- What a symbol keeps of the operations on its name that were not refused: its spelling and kind
from the first of them, and its value from the last assignment. A constant comes of one operation
alone, and so does the value of a variable that was added and never assigned. -/
structure Recalls (s : Symbol) (operations : List Operation) : Prop where
  origin : ∃ first ∈ operations.head?, s.name = first.name ∧ s.kind = first.kind
  constant : s.kind ≠ .set → operations = [.add s.name s.value s.kind]
  assigned : ∀ last ∈ (operations.filter Operation.isAssign).getLast?, s.value = last.value
  added : operations.filter Operation.isAssign = [] → operations = [.add s.name s.value s.kind]

/-- The first operation on a name makes its symbol. -/
lemma recalls_symbol (o : Operation) : Recalls o.symbol [o] := by
  cases o with
  | add name value kind =>
    exact ⟨⟨_, rfl, rfl, rfl⟩, fun _ => rfl, by simp [Operation.isAssign], fun _ => rfl⟩
  | assign name value =>
    refine ⟨⟨_, rfl, rfl, rfl⟩, fun hkind => absurd rfl hkind, ?_, ?_⟩
    · simp [Operation.isAssign, Operation.symbol]
    · simp [Operation.isAssign]

/-- An assignment gives a variable its value. -/
lemma Recalls.assign {s : Symbol} (h : Recalls s operations) (hkind : s.kind = .set)
    (hassign : o.isAssign = true) : Recalls { s with value := o.value } (operations ++ [o]) := by
  obtain ⟨first, hfirst, horigin⟩ := h.origin
  have hlast : (operations ++ [o]).filter Operation.isAssign =
      operations.filter Operation.isAssign ++ [o] := by
    simp [List.filter_append, hassign]
  refine ⟨⟨first, ?_, horigin⟩, fun hne => absurd hkind hne, ?_, ?_⟩
  · rw [List.head?_append, Option.mem_def.mp hfirst]
    rfl
  · simp [hlast]
  · simp [hlast]

lemma performed_concat (t : SymbolTable) (operations : List Operation) (o : Operation) :
    t.performed (operations ++ [o]) = t.performed operations ++
      if ((operations.foldl apply t).perform o).isOk then [o] else [] := by
  induction operations generalizing t with
  | nil => rfl
  | cons first operations ih =>
    rw [List.cons_append, performed, performed, ih, List.foldl_cons]
    split
    · exact (List.cons_append ..).symm
    · rfl

lemma history_concat (operations : List Operation) (o : Operation) (name : String) :
    history (operations ++ [o]) name = history operations name ++
      if ((after operations).perform o).isOk ∧ Text.upper o.name = Text.upper name then [o]
      else [] := by
  rw [history, performed_concat, ← after, history]
  by_cases hok : ((after operations).perform o).isOk = true
  · simp [hok, onName_concat]
  · simp [hok]

lemma foldl_revise_eq_none {s : Option Symbol} :
    operations.foldl (fun s o => o.revise s) s = none ↔ s = none ∧ operations = [] := by
  induction operations generalizing s with
  | nil => simp
  | cons o operations ih =>
    rw [List.foldl_cons, ih]
    cases s <;> simp [Operation.revise]

/-- A name has no symbol only if nothing was done with it. -/
lemma get?_after_eq_none {name : String} :
    (after operations).get? name = none ↔ onName name operations = [] := by
  rw [get?_after, foldl_revise_eq_none]
  simp

/-- Operations that are not refused are operations. -/
lemma performed_sublist (t : SymbolTable) (operations : List Operation) :
    (t.performed operations).Sublist operations := by
  induction operations generalizing t with
  | nil => exact .slnil
  | cons o operations ih =>
    rw [performed]
    split
    · exact (ih _).cons_cons o
    · exact (ih _).cons o

lemma history_eq_nil {name : String} (h : (after operations).get? name = none) :
    history operations name = [] := by
  have hsublist : (history operations name).Sublist (onName name operations) :=
    (performed_sublist {} operations).filter _
  rwa [get?_after_eq_none.mp h, List.sublist_nil] at hsublist

/-- Every symbol of a table keeps what its history gave it. -/
lemma recalls_history {name : String} {s : Symbol} (h : (after operations).get? name = some s) :
    Recalls s (history operations name) := by
  induction operations using List.reverseRecOn generalizing s with
  | nil => cases h
  | append_singleton operations o ih =>
    have hkeyed := (ordered_after operations).keyed
    rw [after_concat, get?_apply hkeyed] at h
    rw [history_concat]
    by_cases hname : Text.upper o.name = Text.upper name
    · rw [if_pos hname, ← get?_congr _ hname] at h
      rcases (after operations).perform_cases o with
        ⟨hnone, hok⟩ | ⟨s', hs', hkind, hassign, hok⟩ | ⟨s', hs', hkind, herror⟩
      · -- The name is new, so it has no history yet.
        rw [get?_congr _ hname] at hnone
        rw [history_eq_nil hnone]
        rw [get?_congr _ hname, hnone] at h
        cases h
        simpa [hok, hname, Except.isOk, Except.toBool] using recalls_symbol o
      · rw [hs', Operation.revise, if_pos ⟨hassign, hkind⟩] at h
        cases h
        rw [get?_congr _ hname] at hs'
        simpa [hok, hname, Except.isOk, Except.toBool] using (ih hs').assign hkind hassign
      · rw [hs', Operation.revise, if_neg fun hset => hkind hset.1 hset.2] at h
        cases h
        rw [get?_congr _ hname] at hs'
        simpa [herror, Except.isOk, Except.toBool] using ih hs'
    · rw [if_neg hname] at h
      simpa [hname] using ih h

/-- What a new table has come to after any operations. Its entries stand under the capital forms of
the names that they keep. A name that nothing was done with has no symbol, and any other has one
that recalls the operations on the name that were not refused. An operation is refused if its name
has a symbol already, unless it assigns to a variable, and then it changes nothing. The symbols are
listed in the order of the capital forms of their names, all of them and none twice, and the list
stays the same when operations on different names are done in another order. -/
theorem recalls_history_and_lists_in_order (operations : List Operation) :
    (∀ entry ∈ (after operations).entries, entry.1 = Text.upper entry.2.name) ∧
    (∀ name, (after operations).get? name = none ∧ onName name operations = [] ∨
      ∃ s, (after operations).get? name = some s ∧ Recalls s (history operations name)) ∧
    (∀ o e, (after operations).perform o = .error e ↔ e = .duplicate o.name ∧
      ∃ s, (after operations).get? o.name = some s ∧ (o.isAssign = true → s.kind ≠ .set)) ∧
    (∀ o e, (after operations).perform o = .error e →
      after (operations ++ [o]) = after operations) ∧
    (after operations).toList.Pairwise (fun s s' => Text.upper s.name < Text.upper s'.name) ∧
    (∀ s, s ∈ (after operations).toList ↔ (after operations).get? s.name = some s) ∧
    ∀ operations', (∀ name, onName name operations = onName name operations') →
      (after operations).toList = (after operations').toList := by
  have hordered := ordered_after operations
  refine ⟨hordered.key, fun name => ?_, fun o e => perform_eq_error_iff, fun o e herror => ?_,
    hordered.pairwise_toList, fun s => hordered.mem_toList_iff, fun operations' h => ?_⟩
  · cases hs : (after operations).get? name with
    | none => exact Or.inl ⟨rfl, get?_after_eq_none.mp hs⟩
    | some s => exact Or.inr ⟨s, rfl, recalls_history hs⟩
  · rw [after_concat, apply_of_error herror]
  · rw [after_eq_of_onName h]

/-- A label, a variable and a constant, in two orders. The label keeps its first spelling and value
against another name of the same capitals, and the variable has its last value. -/
theorem lists_in_order_of_mixed_operations :
    let operations : List Operation :=
      [.add "Loop" 1 .label, .assign "n" 1, .add "LOOP" 2 .equ, .assign "N" 7, .assign "loop" 9,
        .add "k" 3 .equ]
    let operations' : List Operation :=
      [.add "k" 3 .equ, .assign "n" 1, .assign "N" 7, .add "Loop" 1 .label, .add "LOOP" 2 .equ,
        .assign "loop" 9]
    (∀ name, onName name operations = onName name operations') ∧
      Recalls ⟨"n", 7, .set⟩ (history operations "N") ∧
      (after operations').toList = [⟨"k", 3, .equ⟩, ⟨"Loop", 1, .label⟩, ⟨"n", 7, .set⟩] := by
  intro operations operations'
  have hloop : Text.upper "Loop" = "LOOP" ∧ Text.upper "LOOP" = "LOOP" ∧
      Text.upper "loop" = "LOOP" := by decide +kernel
  have hn : Text.upper "n" = "N" ∧ Text.upper "N" = "N" := by decide +kernel
  have hk : Text.upper "k" = "K" := by decide +kernel
  have hnames : ∀ name, onName name operations = onName name operations' := by
    intro name
    simp only [onName, operations, operations', List.filter_cons, List.filter_nil, Operation.name,
      hloop, hn, hk, decide_eq_true_eq]
    grind
  obtain ⟨-, hrecalls, -, -, -, -, horder⟩ := recalls_history_and_lists_in_order operations
  have hlist : (after operations).toList =
      [⟨"k", 3, .equ⟩, ⟨"Loop", 1, .label⟩, ⟨"n", 7, .set⟩] := by decide +kernel
  refine ⟨hnames, ?_, by rw [← horder operations' hnames, hlist]⟩
  have hget : (after operations).get? "N" = some ⟨"n", 7, .set⟩ := by decide +kernel
  rcases hrecalls "N" with ⟨hnone, -⟩ | ⟨s, hs, hrecall⟩
  · rw [hget] at hnone
    cases hnone
  · rw [hget] at hs
    cases hs
    exact hrecall

end SymbolTable

end MicroAsm
