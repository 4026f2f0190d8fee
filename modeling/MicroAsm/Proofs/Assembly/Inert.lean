import MicroAsm.Proofs.Assembly.Step

/-!
# Changes that no operation notices

The operations look at the symbols and the code of a state only, and they add to its messages. So a
change of the other parts has the same effect before an operation and behind it.
-/

namespace MicroAsm

namespace Assembly

/-- The change leaves symbols and code alone, and it does not matter whether it is made before or
after messages are added and symbols, code and the mark of the end are set. -/
structure Inert (f : Assembly → Assembly) : Prop where
  symbols : ∀ a, (f a).symbols = a.symbols
  code : ∀ a, (f a).code = a.code
  report : ∀ a ms, (f a).report ms = f (a.report ms)
  setSymbols : ∀ a symbols, ({ f a with symbols } : Assembly) = f { a with symbols }
  setCode : ∀ a code, ({ f a with code } : Assembly) = f { a with code }
  setEnded : ∀ a, ({ f a with ended := true } : Assembly) = f { a with ended := true }

namespace Inert

variable {f : Assembly → Assembly} (h : Inert f) (a : Assembly)
include h

lemma error (location : Location) (text : String) :
    (f a).error location text = f (a.error location text) :=
  h.report a _

lemma emit (bs : List UInt8) (location : Location) :
    (f a).emit bs location = f (a.emit bs location) := by
  rcases Nat.lt_or_ge 0x10000 (a.code.endAddress + bs.length) with hlt | hle
  · rw [a.emit_of_lt location hlt, (f a).emit_of_lt location (by rwa [h.code]), h.code, h.error,
      h.setCode]
  · rw [a.emit_of_le location hle, (f a).emit_of_le location (by rwa [h.code]), h.code, h.setCode]

lemma withSymbols (result : Except SymbolError SymbolTable) (location : Location) :
    (f a).withSymbols result location = f (a.withSymbols result location) := by
  cases result with
  | ok symbols => exact h.setSymbols a symbols
  | error e => exact h.error a location e.text

lemma defineLabel (label : Option Token) (value : UInt16) :
    (f a).defineLabel label value = f (a.defineLabel label value) := by
  cases label with
  | none => rfl
  | some t =>
    rw [Assembly.defineLabel, h.symbols]
    exact h.withSymbols a _ _

lemma moveTo (target : UInt16) (location : Location) :
    (f a).moveTo target location = f (a.moveTo target location) := by
  rw [Assembly.moveTo, Assembly.moveTo, h.code, h.setCode, h.emit, h.error, apply_ite f,
    apply_ite f]

lemma assign (how : Assignment) (location : Location) (label : Option Token)
    (value : Option UInt16) :
    (f a).assign how location label value = f (a.assign how location label value) := by
  cases label with
  | none => exact h.error a _ _
  | some t =>
    cases value with
    | none => rfl
    | some v =>
      cases how with
      | equ =>
        simp only [Assembly.assign, h.symbols]
        exact h.withSymbols a _ _
      | set =>
        simp only [Assembly.assign, h.symbols]
        exact h.withSymbols a _ _

lemma put (e : Emission) (location : Location) :
    (f a).put e location = f (a.put e location) := by
  rw [Assembly.put, Assembly.put, h.report, h.emit, apply_ite f]

/-- A statement that selects no processor does not notice the change, and neither do its nodes. -/
lemma execute (here : UInt16) (label : Option Token) {statement : Statement}
    (hcpu : ∀ location name, statement ≠ .cpu location name) :
    (f a).execute here label statement =
      (f (a.execute here label statement).1, (a.execute here label statement).2) := by
  cases statement with
  | empty location => simp only [Assembly.execute, h.defineLabel]
  | cpu location name => exact absurd rfl (hcpu location name)
  | endUnit location => simp only [Assembly.execute, h.defineLabel, h.setEnded]
  | org location origin =>
    simp only [Assembly.execute, h.symbols, h.report]
    cases (origin.evaluate a.symbols here).1 with
    | none => simp only [h.code, h.defineLabel]
    | some target => simp only [h.moveTo, h.code, h.defineLabel]
  | assign how location v => simp only [Assembly.execute, h.symbols, h.report, h.assign]
  | data width location items =>
    simp only [Assembly.execute, h.defineLabel, h.symbols, h.put]
  | instruction i location arguments =>
    simp only [Assembly.execute, h.defineLabel, h.symbols, h.put]

lemma examine (here : UInt16) (label : Option Token) (fragment : Fragment) :
    (f a).examine here label fragment =
      (f (a.examine here label fragment).1, (a.examine here label fragment).2) := by
  cases fragment with
  | nothing => simp only [Assembly.examine, h.defineLabel]
  | org location | assign how location => rfl
  | data width location items | instruction i location arguments =>
    simp only [Assembly.examine, h.defineLabel, h.symbols, h.report]

lemma warnAfterEnd (lines : List SourceLine) :
    (f a).warnAfterEnd lines = f (a.warnAfterEnd lines) := by
  rw [Assembly.warnAfterEnd, Assembly.warnAfterEnd]
  split
  · exact h.report a _
  · rfl

end Inert

end Assembly

end MicroAsm
