import Mathlib.Tactic.Common
import MicroAsm.Word

/-!
# Words and their bytes

A word is read back from its two bytes, and the bytes of a number that fits are its digits in base
256, the low one first.
-/

namespace MicroAsm

lemma toNat_wordOf (low high : UInt8) : (wordOf low high).toNat = low.toNat + 256 * high.toNat := by
  have hl := low.toNat_lt
  have hh := high.toNat_lt
  have hdisj : low.toNat ||| 2 ^ 8 * high.toNat = low.toNat + 2 ^ 8 * high.toNat := by
    rw [Nat.or_comm, ← Nat.two_pow_add_eq_or_of_lt hl, Nat.add_comm]
  simp only [wordOf, UInt16.toNat_or, UInt16.toNat_shiftLeft, UInt8.toNat_toUInt16]
  rw [Nat.shiftLeft_eq, Nat.mod_eq_of_lt (by simp; omega)]
  simp only [UInt16.reduceToNat, Nat.reduceMod]
  have hpow : 2 ^ 8 * high.toNat = 256 * high.toNat := rfl
  rw [Nat.mul_comm, hdisj, hpow]

/-- A word is made of its low byte and its high byte. -/
@[simp] lemma wordOf_bytes (v : UInt16) : wordOf v.toUInt8 (v >>> 8).toUInt8 = v := by
  apply UInt16.toNat_inj.mp
  have hv := v.toNat_lt
  rw [toNat_wordOf]
  simp only [UInt16.toNat_toUInt8, UInt16.toNat_shiftRight, Nat.shiftRight_eq_div_pow]
  simp only [UInt16.reduceToNat, Nat.reduceMod]
  omega

lemma wordBytes_wordOf (low high : UInt8) : wordBytes (wordOf low high) = [low, high] := by
  have hlow := low.toNat_lt
  have hhigh := high.toNat_lt
  have hword := toNat_wordOf low high
  rw [wordBytes]
  congr 1
  · apply UInt8.toNat_inj.mp
    rw [UInt16.toNat_toUInt8, hword]
    omega
  · congr 1
    apply UInt8.toNat_inj.mp
    simp only [UInt16.toNat_toUInt8, UInt16.toNat_shiftRight, Nat.shiftRight_eq_div_pow, hword]
    simp only [UInt16.reduceToNat, Nat.reduceMod]
    omega

@[simp] lemma length_wordBytes (v : UInt16) : (wordBytes v).length = 2 := rfl

/-- The bytes of a word are its digits in base 256, the low one first. -/
lemma wordBytes_eq_digits (v : UInt16) :
    wordBytes v = [UInt8.ofNat (v.toNat % 256), UInt8.ofNat (v.toNat / 256)] := by
  have hlow : v.toUInt8 = UInt8.ofNat (v.toNat % 256) := by
    apply UInt8.toNat_inj.mp
    simp
  have hhigh : (v >>> 8).toUInt8 = UInt8.ofNat (v.toNat / 256) := by
    apply UInt8.toNat_inj.mp
    simp [Nat.shiftRight_eq_div_pow]
  rw [wordBytes, hlow, hhigh]

lemma fits_iff {bits : Nat} {n : Int} : fits bits n = true ↔ 0 ≤ n ∧ n.toNat < 1 <<< bits := by
  simp only [fits, Bool.and_eq_true, decide_eq_true_eq]
  omega

/-- A word fits if it is small enough, since it has no sign. -/
lemma fits_toNat {bits : Nat} {v : UInt16} (h : v.toNat < 1 <<< bits) :
    fits bits v.toNat = true := by
  rw [fits_iff, Int.toNat_natCast]
  exact ⟨Int.natCast_nonneg _, h⟩

/-- A number that fits in a word is the number of its word. -/
lemma toNat_wordOfInt {bits : Nat} {n : Int} (hbits : bits ≤ 16) (h : fits bits n = true) :
    ((wordOfInt n).toNat : Int) = n := by
  obtain ⟨hsign, hlt⟩ := fits_iff.mp h
  rw [Nat.one_shiftLeft] at hlt
  have hle : 2 ^ bits ≤ 2 ^ 16 := Nat.pow_le_pow_right (by decide) hbits
  rw [wordOfInt, UInt16.toNat_ofNat_of_lt' (Nat.lt_of_lt_of_le hlt hle), Int.toNat_of_nonneg hsign]

lemma wordOfInt_toNat (v : UInt16) : wordOfInt v.toNat = v := by
  rw [wordOfInt, Int.toNat_natCast, UInt16.ofNat_toNat]

lemma Width.bits_le (width : Width) : width.bits ≤ 16 := by
  cases width <;> decide

end MicroAsm
