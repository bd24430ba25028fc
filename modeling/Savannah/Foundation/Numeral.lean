import Mathlib.Data.Nat.Digits.Lemmas
import Mathlib.Data.List.GetD

/-!
# Numerals

`numeral b n` is the canonical numeral of `n` in base `b`, the highest digit first: no leading
zeros, and one zero for zero.  Programs find it from its lower end, dividing by the base until
nothing is left (`numeral_of_le`), or from a table of all digits whose leading zeros are skipped
(`numeral_eq_table`); they read it from its upper end.
-/

namespace Foundation

/-- The canonical numeral, the highest digit first. -/
def numeral (b n : ℕ) : List ℕ := if n = 0 then [0] else (b.digits n).reverse

variable {b n : ℕ}

/-- A number below the base is one digit. -/
theorem numeral_of_lt (h : n < b) : numeral b n = [n] := by
  rcases Nat.eq_zero_or_pos n with rfl | hn
  · rw [numeral, if_pos rfl]
  · rw [numeral, if_neg hn.ne', Nat.digits_of_lt b n hn.ne' h, List.reverse_singleton]

/-- The lowest digit is the last one. -/
theorem numeral_of_le (hb : 1 < b) (h : b ≤ n) : numeral b n = numeral b (n / b) ++ [n % b] := by
  have hdiv : n / b ≠ 0 := (Nat.div_pos h (by omega)).ne'
  rw [numeral, if_neg (by omega), numeral, if_neg hdiv, Nat.digits_def' hb (by omega),
    List.reverse_cons]

/-- Digits are below the base. -/
theorem lt_of_mem_numeral (hb : 1 < b) {d : ℕ} (h : d ∈ numeral b n) : d < b := by
  unfold numeral at h
  split at h
  · rw [List.mem_singleton.mp h]
    omega
  · exact Nat.digits_lt_base hb (List.mem_reverse.mp h)

/-- No leading zero. -/
theorem head_numeral_ne_zero (hn : n ≠ 0) : (numeral b n).head? ≠ some 0 := by
  rw [numeral, if_neg hn, List.head?_reverse]
  intro h
  rw [List.getLast?_eq_some_getLast (Nat.digits_ne_nil_iff_ne_zero.mpr hn)] at h
  exact Nat.getLast_digit_ne_zero b hn (Option.some.inj h)

/-- A bound for the number of digits. -/
theorem numeral_length_le (hb : 1 < b) {k : ℕ} (hk : 0 < k) (h : n < b ^ k) :
    (numeral b n).length ≤ k := by
  unfold numeral
  split
  · exact hk
  · rw [List.length_reverse]
    exact (Nat.digits_length_le_iff hb n).mpr h

/-- The digits, from a table of them. -/
theorem numeral_eq_table (hb : 1 < b) (hn : n ≠ 0) :
    numeral b n = ((List.range (numeral b n).length).map fun i => n / b ^ i % b).reverse := by
  rw [numeral, if_neg hn, List.length_reverse]
  congr 1
  refine List.ext_getElem (by simp) fun i hi _ => ?_
  rw [List.getElem_map, List.getElem_range, ← Nat.getD_digits n i hb, List.getD_eq_getElem _ _ hi]

/-- The highest digit of the table that is not zero. -/
theorem table_numeral_length (hb : 1 < b) (hn : n ≠ 0) {k : ℕ} (h : (numeral b n).length = k + 1) :
    n / b ^ k % b ≠ 0 := by
  rw [numeral, if_neg hn, List.length_reverse] at h
  have hne : b.digits n ≠ [] := List.ne_nil_of_length_pos (by omega)
  have hlast := Nat.getLast_digit_ne_zero b hn
  rw [List.getLast_eq_getElem] at hlast
  rw [← Nat.getD_digits n k hb, List.getD_eq_getElem _ _ (by omega)]
  simpa only [h, Nat.add_sub_cancel] using hlast

/-- Above it all digits of the table are zero. -/
theorem table_eq_zero (hb : 1 < b) (hn : n ≠ 0) {k : ℕ} (h : (numeral b n).length ≤ k) :
    n / b ^ k % b = 0 := by
  rw [numeral, if_neg hn, List.length_reverse] at h
  rw [← Nat.getD_digits n k hb, List.getD_eq_default _ _ h]

end Foundation
