import Mathlib.Tactic.Common
import MicroAsm.Expr

/-!
# Growing symbol tables

A table that another one extends gives the same answers as far as it has any. Adding a symbol
extends a table, and so does the first assignment to a variable. The value of an expression does
not change when the table grows.
-/

namespace MicroAsm

namespace SymbolTable

lemma lookup_place_self (key : String) (symbol : Symbol) (entries : List (String × Symbol)) :
    (place key symbol entries).lookup key = some symbol := by
  induction entries with
  | nil => simp [place]
  | cons entry rest ih =>
    rw [place]
    by_cases heq : key = entry.1
    · simp [if_pos heq]
    · rw [if_neg heq]
      by_cases hlt : key < entry.1
      · rw [if_pos hlt]
        simp
      · rw [if_neg hlt, List.lookup_cons, beq_false_of_ne heq]
        exact ih

lemma lookup_place_of_ne {key other : String} (symbol : Symbol) (h : other ≠ key)
    (entries : List (String × Symbol)) :
    (place key symbol entries).lookup other = entries.lookup other := by
  induction entries with
  | nil => simp [place, List.lookup_cons, beq_false_of_ne h]
  | cons entry rest ih =>
    obtain ⟨key', symbol'⟩ := entry
    rw [place]
    by_cases heq : key = key'
    · have hne : other ≠ key' := heq ▸ h
      rw [if_pos heq, List.lookup_cons, List.lookup_cons, beq_false_of_ne h, beq_false_of_ne hne]
    · rw [if_neg heq]
      by_cases hlt : key < key'
      · rw [if_pos hlt]
        simp [List.lookup_cons, beq_false_of_ne h]
      · rw [if_neg hlt, List.lookup_cons, List.lookup_cons, ih]

/-- Only the new symbol comes in. -/
lemma mem_place {key : String} {symbol : Symbol} {entries : List (String × Symbol)} :
    ∀ entry ∈ place key symbol entries, entry = (key, symbol) ∨ entry ∈ entries := by
  fun_induction place key symbol entries with
  | case1 => simp
  | case2 => simp +contextual [or_imp]
  | case3 => simp
  | case4 entry rest hne hlt ih =>
    rw [List.forall_mem_cons]
    refine ⟨Or.inr List.mem_cons_self, fun e he => ?_⟩
    exact (ih e he).imp_right (List.mem_cons_of_mem entry)

/-- What a table answers after a symbol was put into it. -/
lemma get?_insert (t : SymbolTable) (symbol : Symbol) (name : String) :
    (t.insert symbol).get? name =
      if Text.upper name = Text.upper symbol.name then some symbol else t.get? name := by
  rw [insert, get?, get?]
  by_cases heq : Text.upper name = Text.upper symbol.name
  · rw [if_pos heq, heq]
    exact lookup_place_self _ _ _
  · rw [if_neg heq]
    exact lookup_place_of_ne _ heq _

/-- Names with the same capitals have the same symbol. -/
lemma get?_congr (t : SymbolTable) {name name' : String} (h : Text.upper name = Text.upper name') :
    t.get? name = t.get? name' := by
  rw [get?, get?, h]

/-- The second table has every symbol of the first. -/
def Extends (t t' : SymbolTable) : Prop :=
  ∀ name symbol, t.get? name = some symbol → t'.get? name = some symbol

lemma Extends.refl (t : SymbolTable) : t.Extends t :=
  fun _ _ h => h

lemma Extends.trans {t t' t'' : SymbolTable} (h : t.Extends t') (h' : t'.Extends t'') :
    t.Extends t'' :=
  fun name symbol hs => h' name symbol (h name symbol hs)

/-- A symbol with a new name extends a table. -/
lemma extends_insert {t : SymbolTable} {symbol : Symbol} (h : t.get? symbol.name = none) :
    t.Extends (t.insert symbol) := by
  intro name s hs
  rw [get?_insert]
  by_cases heq : Text.upper name = Text.upper symbol.name
  · rw [t.get?_congr heq, h] at hs
    cases hs
  · rw [if_neg heq]
    exact hs

/-- Adding a symbol succeeds for a new name only. -/
lemma add_eq_ok {t t' : SymbolTable} {name : String} {value : UInt16} {kind : SymbolKind}
    (h : t.add name value kind = .ok t') :
    t.get? name = none ∧ t' = t.insert ⟨name, value, kind⟩ := by
  rw [add] at h
  split at h
  · cases h
  · rename_i hnone
    cases h
    exact ⟨hnone, rfl⟩

/-- Assigning succeeds for a new name, or changes the value of a variable. -/
lemma assign_eq_ok {t t' : SymbolTable} {name : String} {value : UInt16}
    (h : t.assign name value = .ok t') :
    t.get? name = none ∧ t' = t.insert ⟨name, value, .set⟩ ∨
      ∃ symbol, t.get? name = some symbol ∧ symbol.kind = .set := by
  rw [assign] at h
  split at h
  · rename_i symbol hsome
    split at h
    · rename_i hkind
      exact Or.inr ⟨symbol, hsome, hkind⟩
    · cases h
  · rename_i hnone
    cases h
    exact Or.inl ⟨hnone, rfl⟩

/-- The second table has every symbol of the first, and no other variable than the given one is new
in it. -/
structure Gains (t t' : SymbolTable) (assigned : Option String) : Prop where
  keeps : t.Extends t'
  sets : ∀ name symbol, t'.get? name = some symbol → symbol.kind = .set →
    t.get? name = some symbol ∨ assigned = some (Text.upper name)

lemma Gains.refl (t : SymbolTable) (assigned : Option String) : t.Gains t assigned :=
  ⟨Extends.refl t, fun _ _ h _ => Or.inl h⟩

/-- A symbol with a new name is all that a table gains by it. -/
lemma gains_insert {t : SymbolTable} {symbol : Symbol} {assigned : Option String}
    (h : t.get? symbol.name = none)
    (hassigned : symbol.kind = .set → assigned = some (Text.upper symbol.name)) :
    t.Gains (t.insert symbol) assigned := by
  refine ⟨extends_insert h, ?_⟩
  intro name s hs hkind
  rw [get?_insert] at hs
  by_cases heq : Text.upper name = Text.upper symbol.name
  · rw [if_pos heq] at hs
    cases hs
    exact Or.inr (by rw [heq, hassigned hkind])
  · rw [if_neg heq] at hs
    exact Or.inl hs

/-! ### Constants -/

/-- Every symbol is found under its own name, whatever the case of the letters. -/
def Keyed (t : SymbolTable) : Prop :=
  ∀ name symbol, t.get? name = some symbol → Text.upper symbol.name = Text.upper name

/-- The second table has every symbol of the first that is no variable. -/
def KeepsConstants (t t' : SymbolTable) : Prop :=
  ∀ name symbol, t.get? name = some symbol → symbol.kind ≠ .set → t'.get? name = some symbol

lemma KeepsConstants.refl (t : SymbolTable) : t.KeepsConstants t :=
  fun _ _ h _ => h

lemma KeepsConstants.trans {t t' t'' : SymbolTable} (h : t.KeepsConstants t')
    (h' : t'.KeepsConstants t'') : t.KeepsConstants t'' :=
  fun name symbol hs hkind => h' name symbol (h name symbol hs hkind) hkind

lemma keyed_empty : Keyed {} := by
  intro name symbol h
  cases h

lemma Keyed.insert {t : SymbolTable} (h : t.Keyed) (symbol : Symbol) : (t.insert symbol).Keyed := by
  intro name s hs
  rw [get?_insert] at hs
  by_cases heq : Text.upper name = Text.upper symbol.name
  · rw [if_pos heq] at hs
    cases hs
    exact heq.symm
  · rw [if_neg heq] at hs
    exact h name s hs

/-- A symbol that takes the place of none or of a variable. -/
lemma keepsConstants_insert {t : SymbolTable} {symbol : Symbol}
    (h : ∀ s, t.get? symbol.name = some s → s.kind = .set) :
    t.KeepsConstants (t.insert symbol) := by
  intro name s hs hkind
  rw [get?_insert]
  by_cases heq : Text.upper name = Text.upper symbol.name
  · rw [t.get?_congr heq] at hs
    exact absurd (h s hs) hkind
  · rw [if_neg heq]
    exact hs

lemma keepsConstants_add {t t' : SymbolTable} {name : String} {value : UInt16} {kind : SymbolKind}
    (ht : t.Keyed) (h : t.add name value kind = .ok t') : t'.Keyed ∧ t.KeepsConstants t' := by
  obtain ⟨hnew, rfl⟩ := add_eq_ok h
  have hnone : ∀ s, t.get? name = some s → s.kind = .set := by simp [hnew]
  exact ⟨ht.insert _, keepsConstants_insert hnone⟩

/-- An assignment changes only a variable. -/
lemma keepsConstants_assign {t t' : SymbolTable} {name : String} {value : UInt16}
    (ht : t.Keyed) (h : t.assign name value = .ok t') : t'.Keyed ∧ t.KeepsConstants t' := by
  rw [assign] at h
  split at h
  · rename_i old hold
    split at h
    · rename_i hset
      cases h
      refine ⟨ht.insert _, keepsConstants_insert ?_⟩
      intro s hs
      rw [t.get?_congr (ht name old hold), hold] at hs
      cases hs
      exact hset
    · cases h
  · rename_i hnew
    cases h
    have hnone : ∀ s, t.get? name = some s → s.kind = .set := by simp [hnew]
    exact ⟨ht.insert _, keepsConstants_insert hnone⟩

/-! ### The order of symbols -/

lemma get?_insert_of_ne (t : SymbolTable) {symbol : Symbol} {name : String}
    (h : Text.upper name ≠ Text.upper symbol.name) :
    (t.insert symbol).get? name = t.get? name := by
  rw [get?_insert, if_neg h]

lemma place_comm_of_lt {key key' : String} (h : key < key') (symbol symbol' : Symbol)
    (entries : List (String × Symbol)) :
    place key symbol (place key' symbol' entries) =
      place key' symbol' (place key symbol entries) := by
  have hne : key ≠ key' := String.ne_of_lt h
  have hnot : ¬key' < key := String.lt_asymm h
  induction entries with
  | nil => simp [place, h, hne, hne.symm, hnot]
  | cons entry rest ih =>
    -- An entry that the lesser key passes is passed by the greater one too.
    have hpass : ¬key < entry.1 → key ≠ entry.1 → ¬key' < entry.1 ∧ key' ≠ entry.1 := by
      intro hlt hne
      exact ⟨fun hlt' => hlt (String.lt_trans h hlt'), fun heq => hlt (heq ▸ h)⟩
    grind [place]

/-- Symbols of different names can be put into a table in any order. -/
lemma insert_comm (t : SymbolTable) {symbol symbol' : Symbol}
    (h : Text.upper symbol.name ≠ Text.upper symbol'.name) :
    (t.insert symbol).insert symbol' = (t.insert symbol').insert symbol := by
  by_cases hlt : Text.upper symbol.name < Text.upper symbol'.name
  · exact congrArg mk (place_comm_of_lt hlt _ _ _).symm
  · have hgt : Text.upper symbol'.name < Text.upper symbol.name := by
      by_contra hnot
      exact h (String.le_antisymm (String.not_lt.mp hnot) (String.not_lt.mp hlt))
    exact congrArg mk (place_comm_of_lt hgt _ _ _)

variable {t : SymbolTable} {symbol : Symbol} {name : String}

/-- Adding a name is not disturbed by a symbol of another name. -/
lemma add_insert (h : Text.upper name ≠ Text.upper symbol.name) (value : UInt16)
    (kind : SymbolKind) :
    (t.insert symbol).add name value kind = (t.add name value kind).map (·.insert symbol) := by
  rw [add, add, get?_insert_of_ne t h]
  cases t.get? name with
  | some s => rfl
  | none => exact congrArg Except.ok (t.insert_comm h.symm)

/-- Assigning a name is not disturbed by a symbol of another name. -/
lemma assign_insert (ht : t.Keyed) (h : Text.upper name ≠ Text.upper symbol.name)
    (value : UInt16) :
    (t.insert symbol).assign name value = (t.assign name value).map (·.insert symbol) := by
  rw [assign, assign, get?_insert_of_ne t h]
  cases hs : t.get? name with
  | none => exact congrArg Except.ok (t.insert_comm h.symm)
  | some s =>
    have hne : Text.upper symbol.name ≠ Text.upper s.name := by
      rw [ht name s hs]
      exact h.symm
    simp only
    split
    · exact congrArg Except.ok (t.insert_comm hne)
    · rfl

/-- Adding a name changes no other one. -/
lemma get?_of_add {t' : SymbolTable} {other : String} {value : UInt16} {kind : SymbolKind}
    (hadd : t.add name value kind = .ok t') (h : Text.upper other ≠ Text.upper name) :
    t'.get? other = t.get? other := by
  obtain ⟨-, rfl⟩ := add_eq_ok hadd
  exact t.get?_insert_of_ne h

/-- Assigning a name changes no other one. -/
lemma get?_of_assign {t' : SymbolTable} {other : String} {value : UInt16} (ht : t.Keyed)
    (hassign : t.assign name value = .ok t') (h : Text.upper other ≠ Text.upper name) :
    t'.get? other = t.get? other := by
  rw [assign] at hassign
  split at hassign
  · rename_i s hs
    split at hassign
    · cases hassign
      refine t.get?_insert_of_ne ?_
      rw [ht name s hs]
      exact h
    · cases hassign
  · cases hassign
    exact t.get?_insert_of_ne h

end SymbolTable

/-- A term keeps its value when the table grows. -/
lemma Term.eval_mono {t t' : SymbolTable} (hext : t.Extends t') {here : UInt16} {term : Term}
    {v : Int} (h : term.eval t here = .ok v) : term.eval t' here = .ok v := by
  cases term with
  | number n => exact h
  | char c => exact h
  | locationCounter => exact h
  | symbol name =>
    simp only [Term.eval] at h ⊢
    split at h
    · rename_i s hs
      rw [hext name s hs]
      exact h
    · cases h

lemma Expr.accumulate_mono {t t' : SymbolTable} (hext : t.Extends t') {here : UInt16} {sum v : Int}
    {term : SignedTerm} (h : Expr.accumulate t here sum term = .ok v) :
    Expr.accumulate t' here sum term = .ok v := by
  rw [Expr.accumulate] at h ⊢
  cases heval : term.term.eval t here with
  | error name =>
    rw [heval] at h
    cases h
  | ok n =>
    rw [heval] at h
    rw [Term.eval_mono hext heval]
    exact h

/-- An expression keeps its value when the table grows. -/
lemma Expr.eval_mono {t t' : SymbolTable} (hext : t.Extends t') {here : UInt16} {e : Expr} {v : Int}
    (h : e.eval t here = .ok v) : e.eval t' here = .ok v := by
  obtain ⟨terms⟩ := e
  simp only [Expr.eval] at h ⊢
  -- The sum so far is the same in both tables, term by term.
  generalize (0 : Int) = sum at h ⊢
  induction terms generalizing sum with
  | nil => exact h
  | cons term terms ih =>
    rw [List.foldlM_cons] at h ⊢
    cases hstep : Expr.accumulate t here sum term with
    | error name =>
      rw [hstep] at h
      cases h
    | ok n =>
      rw [hstep] at h
      rw [Expr.accumulate_mono hext hstep]
      exact ih n h

/-! ### What an expression needs -/

/-- The value of a name, if it has one. -/
def SymbolTable.value? (t : SymbolTable) (name : String) : Option UInt16 :=
  (t.get? name).map Symbol.value

/-- A term needs no more than the value of its name. -/
lemma Term.eval_congr {t t' : SymbolTable} {term : Term} (here : UInt16)
    (h : ∀ name, term = .symbol name → t.value? name = t'.value? name) :
    term.eval t here = term.eval t' here := by
  cases term with
  | number n => rfl
  | char c => rfl
  | locationCounter => rfl
  | symbol name =>
    have hname := h name rfl
    simp only [SymbolTable.value?, Term.eval] at hname ⊢
    cases hs : t.get? name <;> cases hs' : t'.get? name <;> simp_all

lemma Expr.mem_symbols {term : SignedTerm} {terms : List SignedTerm} {name : String} :
    name ∈ (Expr.mk (term :: terms)).symbols ↔
      term.term = .symbol name ∨ name ∈ (Expr.mk terms).symbols := by
  obtain ⟨negative, term⟩ := term
  cases term <;> simp [Expr.symbols, eq_comm]

/-- An expression needs no more than the values of its names. -/
lemma Expr.eval_congr {t t' : SymbolTable} {e : Expr} (here : UInt16)
    (h : ∀ name ∈ e.symbols, t.value? name = t'.value? name) :
    e.eval t here = e.eval t' here := by
  obtain ⟨terms⟩ := e
  simp only [Expr.eval]
  generalize (0 : Int) = sum
  induction terms generalizing sum with
  | nil => rfl
  | cons term terms ih =>
    have hterm : Expr.accumulate t here sum term = Expr.accumulate t' here sum term := by
      rw [Expr.accumulate, Expr.accumulate, Term.eval_congr here]
      intro name heq
      exact h name (Expr.mem_symbols.mpr (Or.inl heq))
    have hterms : ∀ name ∈ (Expr.mk terms).symbols, t.value? name = t'.value? name :=
      fun name hname => h name (Expr.mem_symbols.mpr (Or.inr hname))
    rw [List.foldlM_cons, List.foldlM_cons, hterm]
    exact bind_congr fun n => ih hterms n

/-- An expression with a value has all its names. -/
lemma Expr.exists_get?_of_eval {t : SymbolTable} {e : Expr} {here : UInt16} {v : Int}
    (h : e.eval t here = .ok v) : ∀ name ∈ e.symbols, ∃ s, t.get? name = some s := by
  obtain ⟨terms⟩ := e
  simp only [Expr.eval] at h
  generalize (0 : Int) = sum at h
  induction terms generalizing sum with
  | nil => simp [Expr.symbols]
  | cons term terms ih =>
    rw [List.foldlM_cons] at h
    cases hterm : Expr.accumulate t here sum term with
    | error name =>
      rw [hterm] at h
      cases h
    | ok n =>
      rw [hterm] at h
      intro name hname
      rcases Expr.mem_symbols.mp hname with heq | hmem
      · -- A term that is added up has a value.
        rw [Expr.accumulate, heq] at hterm
        cases hs : t.get? name with
        | some s => exact ⟨s, rfl⟩
        | none =>
          rw [Term.eval, hs] at hterm
          cases hterm
      · exact ih n h name hmem

end MicroAsm
