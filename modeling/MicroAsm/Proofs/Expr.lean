import Mathlib.Algebra.BigOperators.Group.List.Basic
import Mathlib.Algebra.Ring.Int.Defs
import Mathlib.Data.List.Induction
import MicroAsm.Assembly.Program
import MicroAsm.Proofs.Outcome
import MicroAsm.Proofs.Word

/-!
# Exact sums

An expression is added up in words that stop at their least and their greatest value. The sum is
exact as long as no partial sum lies beyond these. Where only the last one does, the sum stops far
outside of what fits in 16 bits. So a value that is accepted is exact, unless an earlier partial
sum has stopped and later terms have brought it back.
-/

namespace MicroAsm

/-- The number fits in a signed 64-bit word. -/
def Int64Range.Holds (v : Int) : Prop :=
  Int64Range.least ≤ v ∧ v ≤ Int64Range.greatest

instance : DecidablePred Int64Range.Holds :=
  fun _ => inferInstanceAs (Decidable (_ ∧ _))

/-- What a signed term adds to a sum. -/
def SignedTerm.addend (symbols : SymbolTable) (here : UInt16) (t : SignedTerm) :
    Except String Int :=
  (t.term.eval symbols here).map fun v => if t.negative then -v else v

/-- What the terms of an expression add, from left to right, or the first name without a value. -/
def Expr.addends (e : Expr) (symbols : SymbolTable) (here : UInt16) : Except String (List Int) :=
  e.terms.mapM (SignedTerm.addend symbols here)

/-- The sum of numbers in words that stop at their least and greatest value. -/
def saturatedSum (addends : List Int) : Int :=
  addends.foldl (fun sum v => saturate (sum + v)) 0

lemma saturatedSum_concat (addends : List Int) (v : Int) :
    saturatedSum (addends ++ [v]) = saturate (saturatedSum addends + v) := by
  simp [saturatedSum]

/-! ### Values and addends -/

lemma Expr.accumulate_eq (symbols : SymbolTable) (here : UInt16) (sum : Int) (t : SignedTerm) :
    Expr.accumulate symbols here sum t =
      (t.addend symbols here).map fun v => saturate (sum + v) := by
  rw [Expr.accumulate, SignedTerm.addend]
  cases t.term.eval symbols here with
  | error name => rfl
  | ok v =>
    cases t.negative with
    | false => rfl
    | true => simp [Except.map, Int.sub_eq_add_neg]

/-- The value of an expression is the saturated sum of its addends. -/
lemma Expr.eval_eq_map_addends (e : Expr) (symbols : SymbolTable) (here : UInt16) :
    e.eval symbols here = (e.addends symbols here).map saturatedSum := by
  obtain ⟨terms⟩ := e
  have hfold : ∀ sum, terms.foldlM (Expr.accumulate symbols here) sum =
      (terms.mapM (SignedTerm.addend symbols here)).map
        (List.foldl (fun sum v => saturate (sum + v)) sum) := by
    induction terms with
    | nil => exact fun sum => rfl
    | cons t terms ih =>
      intro sum
      rw [List.foldlM_cons, List.mapM_cons, Expr.accumulate_eq]
      cases t.addend symbols here with
      | error name => rfl
      | ok v =>
        have hrest := ih (saturate (sum + v))
        cases hterms : terms.mapM (SignedTerm.addend symbols here) with
        | error name =>
          rw [hterms] at hrest
          exact hrest
        | ok vs =>
          rw [hterms] at hrest
          exact hrest
  exact hfold 0

/-! ### Sums that do not stop -/

lemma saturate_of_holds {v : Int} (h : Int64Range.Holds v) : saturate v = v := by
  rw [saturate, Int.min_eq_left h.2, Int.max_eq_right h.1]

lemma saturate_toNat (v : UInt16) : saturate v.toNat = v.toNat := by
  have hv := v.toNat_lt
  apply saturate_of_holds
  simp only [Int64Range.Holds, Int64Range.least, Int64Range.greatest]
  omega

namespace Expr

variable {e : Expr}

/-- One term without a sign has the value of the term, if this is a 16-bit word. -/
lemma eval_of_terms {term : Term} {symbols : SymbolTable} {here v : UInt16}
    (hterms : e.terms = [⟨false, term⟩]) (hterm : term.eval symbols here = .ok (v.toNat : Int)) :
    e.eval symbols here = .ok (v.toNat : Int) := by
  have hadd : Expr.accumulate symbols here 0 ⟨false, term⟩ = .ok (saturate (0 + v.toNat)) := by
    rw [accumulate, hterm]
    rfl
  rw [eval, hterms, List.foldlM_cons, hadd, Int.zero_add, saturate_toNat]
  rfl

/-- The location counter is the address of the line. -/
lemma eval_of_isLocationCounter (h : e.isLocationCounter = true) (symbols : SymbolTable)
    (here : UInt16) : e.eval symbols here = .ok (here.toNat : Int) := by
  rw [isLocationCounter] at h
  split at h
  · rename_i hterms
    exact eval_of_terms hterms rfl
  · cases h

end Expr

/-- A sum is exact if all its partial sums are words. -/
lemma saturatedSum_eq_sum {addends : List Int}
    (h : ∀ k ≤ addends.length, Int64Range.Holds (addends.take k).sum) :
    saturatedSum addends = addends.sum := by
  induction addends using List.reverseRecOn with
  | nil => rfl
  | append_singleton addends v ih =>
    have hfront : ∀ k ≤ addends.length, Int64Range.Holds (addends.take k).sum := by
      intro k hk
      have hpartial := h k (by rw [List.length_append]; omega)
      rwa [List.take_append_of_le_length hk] at hpartial
    have hwhole := h (addends ++ [v]).length (Nat.le_refl _)
    rw [List.take_length, List.sum_append, List.sum_singleton] at hwhole
    rw [saturatedSum_concat, ih hfront, saturate_of_holds hwhole, List.sum_append,
      List.sum_singleton]

/-- A sum that stops is far too large or too small for 16 bits. -/
lemma eq_of_saturate_eq {v w : Int} (h : saturate v = w) (hleast : 0 ≤ w) (hgreatest : w ≤ 65535) :
    v = w := by
  simp only [saturate, Int64Range.least, Int64Range.greatest] at h
  omega

/-- A value of an expression that fits in 16 bits is the sum of its terms over all integers,
provided that no partial sum of fewer terms lies outside of the signed 64-bit words. -/
theorem eval_eq_sum_of_fits (e : Expr) (symbols : SymbolTable) (here : UInt16) (v : Int)
    (heval : e.eval symbols here = .ok v) (hleast : 0 ≤ v) (hgreatest : v ≤ 65535) :
    ∃ addends, e.addends symbols here = .ok addends ∧
      ((∀ k < addends.length, Int64Range.Holds (addends.take k).sum) → v = addends.sum) := by
  rw [Expr.eval_eq_map_addends] at heval
  obtain ⟨addends, haddends, hsum⟩ := map_eq_ok_iff.mp heval
  refine ⟨addends, haddends, ?_⟩
  intro hpartial
  rcases List.eq_nil_or_concat' addends with rfl | ⟨front, last, rfl⟩
  · exact hsum.symm
  · -- Up to the last term nothing stops, and if it stopped there, the value would not fit.
    have hfront : ∀ k ≤ front.length, Int64Range.Holds (front.take k).sum := by
      intro k hk
      have hk' := hpartial k (by rw [List.length_append, List.length_singleton]; omega)
      rwa [List.take_append_of_le_length hk] at hk'
    rw [saturatedSum_concat, saturatedSum_eq_sum hfront] at hsum
    rw [List.sum_append, List.sum_singleton]
    exact (eq_of_saturate_eq hsum hleast hgreatest).symm

/-- The greatest word less itself, and something more. -/
theorem eval_eq_sum_of_balanced :
    let e : Expr := ⟨[⟨false, .number Int64Range.greatest⟩, ⟨true, .number Int64Range.greatest⟩,
      ⟨false, .char 'A'⟩, ⟨true, .locationCounter⟩]⟩
    e.eval {} 5 = .ok 60 ∧ ∃ addends, e.addends {} 5 = .ok addends ∧
      (∀ k < addends.length, Int64Range.Holds (addends.take k).sum) ∧ 60 = addends.sum := by
  intro e
  have heval : e.eval {} 5 = .ok 60 := rfl
  obtain ⟨addends, haddends, hsum⟩ := eval_eq_sum_of_fits e {} 5 60 heval (by decide) (by decide)
  have hknown : e.addends {} 5 = .ok [Int64Range.greatest, -Int64Range.greatest, 65, -5] := rfl
  cases haddends.symm.trans hknown
  have hpartial : ∀ k < 4, Int64Range.Holds
      ([Int64Range.greatest, -Int64Range.greatest, 65, -5].take k).sum := by
    decide
  exact ⟨heval, _, hknown, hpartial, hsum hpartial⟩

/-- Where the greatest word is passed and then taken off again, a word of data is accepted without
an error, and its value is zero, though the terms add up to one. -/
theorem eval_ne_sum_of_saturation :
    let e : Expr := ⟨[⟨false, .number Int64Range.greatest⟩, ⟨false, .number 1⟩,
      ⟨true, .number Int64Range.greatest⟩]⟩
    e.eval {} 0 = .ok 0 ∧
      e.addends {} 0 = .ok [Int64Range.greatest, 1, -Int64Range.greatest] ∧
      [Int64Range.greatest, 1, -Int64Range.greatest].sum = 1 ∧
      let source := "DW 9223372036854775807+1-9223372036854775807"
      (assemble .intel8080 "MAIN" source).2.errors = 0 ∧
        ((assemble .intel8080 "MAIN" source).1.object.get? .code).map (·.bytes.toList) =
          some [0, 0] :=
  ⟨rfl, rfl, by decide, by decide +kernel, by decide +kernel⟩

end MicroAsm
