import Mathlib.Tactic.Common
import MicroAsm.Text.AsciiCase
import MicroAsm.Text.Capital

/-!
# Letter case

A text has the same capital form as the text with its ASCII capitals made small, so texts that
differ at most in the case of ASCII letters have the same capital form.
-/

namespace MicroAsm.Text

lemma capital_toLower (c : Char) : capital c.toLower = capital c := by
  by_cases hcapital : c.val ≥ 'A'.val ∧ c.val ≤ 'Z'.val
  · have hall : ∀ k < 26, capital (Char.ofNat (65 + k)).toLower = capital (Char.ofNat (65 + k)) := by
      decide +kernel
    have hrange : 65 ≤ c.toNat ∧ c.toNat ≤ 90 := hcapital
    have hc := hall (c.toNat - 65) (by omega)
    rwa [Nat.add_sub_cancel' hrange.1, Char.ofNat_toNat] at hc
  · have hself : c.toLower = c := dif_neg hcapital
    rw [hself]

lemma upper_lowerAscii (s : String) : upper (lowerAscii s) = upper s := by
  rw [upper, upper, lowerAscii, String.toList_ofList, List.flatMap_map]
  simp only [capital_toLower]

lemma upper_eq_of_eqIgnoringCase {s t : String} (h : eqIgnoringCase s t = true) :
    upper s = upper t := by
  have hlower : lowerAscii s = lowerAscii t := by
    rw [lowerAscii, lowerAscii, eq_of_beq h]
  rw [← upper_lowerAscii s, hlower, upper_lowerAscii]

end MicroAsm.Text
