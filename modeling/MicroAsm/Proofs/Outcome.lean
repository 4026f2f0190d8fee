import Mathlib.Tactic.Common

/-!
# Results that may be errors

When a chain of steps that may fail gives a result, and what is known of its result or its error.
-/

namespace MicroAsm

variable {ε α β : Type}

/-- A chain gives a result when its first step does and the rest does from there. -/
lemma bind_eq_ok_iff {x : Except ε α} {f : α → Except ε β} {b : β} :
    x >>= f = .ok b ↔ ∃ a, x = .ok a ∧ f a = .ok b := by
  cases x with
  | error e =>
    constructor
    · intro h
      cases h
    · rintro ⟨a, ha, -⟩
      cases ha
  | ok a =>
    constructor
    · intro h
      exact ⟨a, rfl, h⟩
    · rintro ⟨a', ha, hb⟩
      cases ha
      exact hb

/-- A mapped step gives a result when the step does. -/
lemma map_eq_ok_iff {x : Except ε α} {f : α → β} {b : β} :
    x.map f = .ok b ↔ ∃ a, x = .ok a ∧ f a = b := by
  cases x with
  | error e => simp [Except.map]
  | ok a => simp [Except.map]

/-- A step mapped twice. -/
lemma map_map {γ : Type} (x : Except ε α) (f : α → β) (g : β → γ) :
    (x.map f).map g = x.map (g ∘ f) := by
  cases x <;> rfl

/-! ### Steps over lists -/

section Lists

variable {σ : Type}

/-- Checks of a list succeed when each does. -/
lemma forM_eq_ok_iff {check : α → Except ε Unit} {l : List α} :
    l.forM check = .ok () ↔ ∀ a ∈ l, check a = .ok () := by
  induction l with
  | nil => simp [List.forM, pure, Except.pure]
  | cons a l ih =>
    change (check a >>= fun _ => l.forM check) = .ok () ↔ _
    rw [bind_eq_ok_iff, List.forall_mem_cons, ← ih]
    constructor
    · rintro ⟨⟨⟩, ha, hl⟩
      exact ⟨ha, hl⟩
    · rintro ⟨ha, hl⟩
      exact ⟨(), ha, hl⟩

/-- Where a step succeeds or not whatever came before, a run succeeds when every step does. -/
lemma exists_foldlM_eq_ok_iff {step : σ → α → Except ε σ} {P : α → Prop}
    (hstep : ∀ s a, (∃ s', step s a = .ok s') ↔ P a) {l : List α} {s : σ} :
    (∃ s', l.foldlM step s = .ok s') ↔ ∀ a ∈ l, P a := by
  induction l generalizing s with
  | nil => simp [pure, Except.pure]
  | cons a l ih =>
    simp only [List.foldlM_cons, bind_eq_ok_iff, List.forall_mem_cons]
    constructor
    · rintro ⟨s', s₁, hfirst, hrest⟩
      exact ⟨(hstep s a).mp ⟨s₁, hfirst⟩, ih.mp ⟨s', hrest⟩⟩
    · rintro ⟨ha, hl⟩
      obtain ⟨s₁, hfirst⟩ := (hstep s a).mpr ha
      obtain ⟨s', hrest⟩ := ih.mpr hl
      exact ⟨s', s₁, hfirst, hrest⟩

/-- What no step changes, a run does not change. -/
lemma eq_of_foldlM {step : σ → α → Except ε σ} {field : σ → β}
    (hstep : ∀ {s a s'}, step s a = .ok s' → field s' = field s) {l : List α} {s s' : σ}
    (h : l.foldlM step s = .ok s') : field s' = field s := by
  induction l generalizing s with
  | nil =>
    cases h
    rfl
  | cons a l ih =>
    rw [List.foldlM_cons] at h
    obtain ⟨s₁, hfirst, hrest⟩ := bind_eq_ok_iff.mp h
    rw [ih hrest, hstep hfirst]

end Lists

/-! ### Steps seen through functions -/

/-- The step with its result and its error seen through functions. -/
def mapBoth {ε' : Type} (f : ε → ε') (g : α → β) : Except ε α → Except ε' β
  | .ok a => .ok (g a)
  | .error e => .error (f e)

/-! ### What a step yields -/

/-- A result of the step meets one condition, an error the other. -/
def Yields (P : α → Prop) (Q : ε → Prop) : Except ε α → Prop
  | .ok a => P a
  | .error e => Q e

namespace Yields

variable {P : α → Prop} {Q : ε → Prop} {x : Except ε α}

lemma of_ok {a : α} (h : Yields P Q x) (hx : x = .ok a) : P a := by
  rw [hx] at h
  exact h

lemma of_error {e : ε} (h : Yields P Q x) (hx : x = .error e) : Q e := by
  rw [hx] at h
  exact h

lemma imp {P' : α → Prop} {Q' : ε → Prop} (h : Yields P Q x) (hP : ∀ a, P a → P' a)
    (hQ : ∀ e, Q e → Q' e) : Yields P' Q' x := by
  cases x with
  | ok a => exact hP a h
  | error e => exact hQ e h

lemma map {P' : β → Prop} {f : α → β} (h : Yields P Q x) (hf : ∀ a, P a → P' (f a)) :
    Yields P' Q (x.map f) := by
  cases x with
  | ok a => exact hf a h
  | error e => exact h

/-- What the rest of a chain yields from any result of its first step. -/
lemma bind {P' : β → Prop} {f : α → Except ε β} (h : Yields P Q x)
    (hf : ∀ a, P a → Yields P' Q (f a)) : Yields P' Q (x >>= f) := by
  cases x with
  | ok a => exact hf a h
  | error e => exact h

end Yields

/-! ### Two steps that correspond -/

/-- Two steps give results that are related, or errors that are. -/
inductive Corresponds {ε' α' : Type} (Q : ε → ε' → Prop) (P : α → α' → Prop) :
    Except ε α → Except ε' α' → Prop
  | error {e : ε} {e' : ε'} (h : Q e e') : Corresponds Q P (.error e) (.error e')
  | ok {a : α} {a' : α'} (h : P a a') : Corresponds Q P (.ok a) (.ok a')

namespace Corresponds

variable {ε' α' β' : Type} {Q : ε → ε' → Prop} {P : α → α' → Prop} {P' : β → β' → Prop}
  {x : Except ε α} {x' : Except ε' α'}

lemma of_error {e : ε} (h : Corresponds Q P x x') (hx : x = .error e) :
    ∃ e', x' = .error e' ∧ Q e e' := by
  cases h with
  | error h =>
    cases hx
    exact ⟨_, rfl, h⟩
  | ok h => cases hx

lemma of_ok {a : α} (h : Corresponds Q P x x') (hx : x = .ok a) : ∃ a', x' = .ok a' ∧ P a a' := by
  cases h with
  | error h => cases hx
  | ok h =>
    cases hx
    exact ⟨_, rfl, h⟩

lemma map {f : α → β} {f' : α' → β'} (h : Corresponds Q P x x')
    (hf : ∀ a a', P a a' → P' (f a) (f' a')) : Corresponds Q P' (x.map f) (x'.map f') := by
  cases h with
  | error h => exact .error h
  | ok h => exact .ok (hf _ _ h)

lemma bind {f : α → Except ε β} {f' : α' → Except ε' β'} (h : Corresponds Q P x x')
    (hf : ∀ a a', P a a' → Corresponds Q P' (f a) (f' a')) :
    Corresponds Q P' (x >>= f) (x' >>= f') := by
  cases h with
  | error h => exact .error h
  | ok h => exact hf _ _ h

end Corresponds

end MicroAsm
