import Savannah.Lib.Truncation

/-!
# Reading a number back

`atoi` of `lib/stdlib.c`, and the numbers that `init` passes to the console driver as strings:
`snprintf` writes them, `atoi` reads them.  `atoi` adds the character before it takes `'0'` away, so
that the sum is 48 more than the number read so far.
-/

namespace Savannah.Format

open Foundation

/-- `isdigit` -/
def isdigit (c : UInt8) : Bool := char '0' ≤ c && c ≤ char '9'

/-- A value of type `int`. -/
def toInt (z : ℤ) : Except Fault ℤ := if -2 ^ 31 ≤ z ∧ z < 2 ^ 31 then .ok z else .error .overflow

/-- The loop of `atoi`, `i = i * 10 + *s++ - '0'`, from the bytes that can be read at `s`. -/
def atoiLoop : List UInt8 → ℤ → Except Fault ℤ
  | [], _ => .error .outside
  | c :: s, i =>
    if isdigit c then do
      let tens ← toInt (i * 10)
      let sum ← toInt (tens + c.toNat)
      let i ← toInt (sum - (char '0').toNat)
      atoiLoop s i
    else .ok i

/-- `atoi` -/
def atoi (s : List UInt8) : Except Fault ℤ := atoiLoop s 0

/-- `snprintf (buf, "%d", n, v)` leaves a string without leading zeros from which `atoi` reads
`v`. -/
def RoundTrip (buf : Bytes) (n : ℕ) (v : BitVec 32) : Prop :=
  ∃ buf', snprintf buf ⟨['%', 'd'].map char, by decide⟩ n [.int v] = .ok buf' ∧
    (((buf'.load 0 n).takeWhile (· ≠ 0)).head? = some (char '0') →
      (buf'.load 0 n).takeWhile (· ≠ 0) = [char '0']) ∧
    atoi (buf'.load 0 n) = .ok v.toInt

section Atoi

theorem ok_bind {α β : Type} (a : α) (f : α → Except Fault β) : (.ok a >>= f) = f a := rfl

theorem error_bind {α β : Type} (e : Fault) (f : α → Except Fault β) :
    (.error e >>= f) = .error e := rfl

theorem toInt_of_mem {z : ℤ} (h₀ : 0 ≤ z) (h₁ : z < 2 ^ 31) : toInt z = .ok z :=
  if_pos ⟨by omega, h₁⟩

/-- The value of a digit. -/
theorem toNat_digitChar {d : ℕ} (hd : d < 10) :
    isdigit (digitChar d) = true ∧ (digitChar d).toNat = 48 + d := by
  revert d
  decide

/-- One digit more: the sum before `'0'` is taken away may overflow. -/
theorem atoiLoop_digit {d i : ℕ} (hd : d < 10) (hi : i * 10 + d < 2 ^ 31) (s : List UInt8) :
    atoiLoop (digitChar d :: s) i =
      if i * 10 + d + 48 < 2 ^ 31 then atoiLoop s (i * 10 + d : ℕ) else .error .overflow := by
  obtain ⟨hdigit, hvalue⟩ := toNat_digitChar hd
  have hzero : (char '0').toNat = 48 := by decide
  rw [atoiLoop, if_pos hdigit, toInt_of_mem (by omega) (by omega), ok_bind, hvalue, hzero]
  by_cases hsum : i * 10 + d + 48 < 2 ^ 31
  · rw [if_pos hsum, toInt_of_mem (by omega) (by omega), ok_bind,
      toInt_of_mem (by omega) (by omega), ok_bind]
    exact congrArg _ (by omega)
  · rw [if_neg hsum, toInt, if_neg (by omega), error_bind]

/-- A numeral and what follows. -/
theorem atoiLoop_numeral {m : ℕ} (hm : m < 2 ^ 31) (s : List UInt8) :
    atoiLoop ((numeral 10 m).map digitChar ++ s) 0 =
      if m + 48 < 2 ^ 31 then atoiLoop s m else .error .overflow := by
  induction m using Nat.strong_induction_on generalizing s with
  | h m ih =>
    rcases Nat.lt_or_ge m 10 with hlt | hge
    · have h := atoiLoop_digit (i := 0) hlt (by omega) s
      rw [Nat.zero_mul, Nat.zero_add] at h
      rw [numeral_of_lt hlt]
      exact h
    · -- the sum overflows at the last digit or not at all
      rw [numeral_of_le (by decide) hge, List.map_append, List.append_assoc,
        ih (m / 10) (by omega) (by omega), if_pos (by omega)]
      have h := atoiLoop_digit (i := m / 10) (Nat.mod_lt m (by decide)) (by omega) s
      rw [Nat.div_add_mod' m 10] at h
      exact h

theorem digitChar_ne_zero {d : ℕ} (hd : d < 10) : digitChar d ≠ 0 := by
  revert d
  decide

/-- No leading zero. -/
theorem head_numeral_digitChar {m : ℕ}
    (h : ((numeral 10 m).map digitChar).head? = some (char '0')) :
    (numeral 10 m).map digitChar = [char '0'] := by
  rcases eq_or_ne m 0 with rfl | hm
  · rfl
  · rw [List.head?_map] at h
    obtain ⟨d, hd, hchar⟩ := Option.map_eq_some_iff.mp h
    have hlt : d < 10 := lt_of_mem_numeral (by decide) (List.mem_of_mem_head? hd)
    obtain rfl : d = 0 := (digitChar_eq_zero_iff (by omega)).mp hchar
    exact absurd hd (head_numeral_ne_zero hm)

/-- The string that `snprintf` leaves for `%d`, with the bytes behind it. -/
theorem snprintf_decimal {v : BitVec 32} (hv : 0 ≤ v.toInt) {n : ℕ}
    (hn : (numeral 10 v.toInt.natAbs).length < n) (buf : Bytes) :
    ∃ buf' rest, snprintf buf ⟨['%', 'd'].map char, by decide⟩ n [.int v] = .ok buf' ∧
      buf'.load 0 n = (numeral 10 v.toInt.natAbs).map digitChar ++ 0 :: rest := by
  have hlt : v.toInt < 2 ^ 31 := v.toInt_lt
  have hlen : (numeral 10 v.toInt.natAbs).length ≤ 10 :=
    numeral_length_le (by decide) (by decide) (by omega)
  have htext : render [.decimal v] = (numeral 10 v.toInt.natAbs).map digitChar := by
    rw [render, List.flatMap_singleton, Item.text, if_neg (by omega), List.nil_append]
  have hgood : Good (n - 1) [.decimal v] 0 := by
    refine .inr ⟨show v.toInt ≠ -2 ^ 31 by omega, ?_, ?_⟩
    · have : (Item.decimal v).text.length = (numeral 10 v.toInt.natAbs).length := by
        rw [Item.text, if_neg (by omega), List.nil_append, List.length_map]
      show 0 + min ((Item.decimal v).text.length + 0) (n - 1 - 0) < 2 ^ 31
      omega
    · rw [if_neg (by simp [Item.zeros])]
      trivial
  obtain ⟨buf', hok, hload, -⟩ :=
    (format_iff ⟨['%', 'd'].map char, by decide⟩ [.int v] rfl (by omega) buf).mpr hgood
  rw [htext, List.take_of_length_le (by rw [List.length_map]; omega), List.length_map] at hload
  obtain ⟨k, rfl⟩ := Nat.exists_eq_add_of_lt hn
  refine ⟨buf', buf'.load (0 + ((numeral 10 v.toInt.natAbs).length + 1)) k, hok, ?_⟩
  rw [Nat.add_right_comm, Bytes.load_add, hload, List.append_assoc]
  rfl

/-- What `atoi` makes of that string. -/
theorem atoi_snprintf {v : BitVec 32} (hv : 0 ≤ v.toInt) {n : ℕ}
    (hn : (numeral 10 v.toInt.natAbs).length < n) (buf : Bytes) :
    ∃ buf', snprintf buf ⟨['%', 'd'].map char, by decide⟩ n [.int v] = .ok buf' ∧
      (buf'.load 0 n).takeWhile (· ≠ 0) = (numeral 10 v.toInt.natAbs).map digitChar ∧
      atoi (buf'.load 0 n) = if v.toInt + 48 < 2 ^ 31 then .ok v.toInt else .error .overflow := by
  have hlt : v.toInt < 2 ^ 31 := v.toInt_lt
  have habs : (v.toInt.natAbs : ℤ) = v.toInt := by omega
  obtain ⟨buf', rest, hok, hload⟩ := snprintf_decimal hv hn buf
  refine ⟨buf', hok, ?_, ?_⟩
  · rw [hload, List.takeWhile_append_of_pos]
    · simp
    · intro c hc
      obtain ⟨d, hd, rfl⟩ := List.mem_map.mp hc
      exact decide_eq_true (digitChar_ne_zero (lt_of_mem_numeral (by decide) hd))
  · rw [hload, atoi, atoiLoop_numeral (by omega), habs]
    exact if_congr (by omega) rfl rfl

/-- The round trip succeeds as long as the number and `'0'` together are an `int`. -/
theorem decimal_roundTrip_iff {v : BitVec 32} (hv : 0 ≤ v.toInt) {n : ℕ}
    (hn : (numeral 10 v.toInt.natAbs).length < n) (buf : Bytes) :
    RoundTrip buf n v ↔ v.toInt + 48 < 2 ^ 31 := by
  obtain ⟨buf', hok, hstring, hatoi⟩ := atoi_snprintf hv hn buf
  constructor
  · rintro ⟨b, hb, -, hvalue⟩
    obtain rfl : buf' = b := Except.ok.inj (hok.symm.trans hb)
    rw [hatoi] at hvalue
    split at hvalue
    · assumption
    · cases hvalue
  · intro hsum
    refine ⟨buf', hok, ?_, ?_⟩
    · rw [hstring]
      exact head_numeral_digitChar
    · rw [hatoi, if_pos hsum]

/-- The column 79, in the buffer of three bytes that `init` has for it. -/
theorem roundTrip_column : RoundTrip (fun _ => 0) 3 79 :=
  (decimal_roundTrip_iff (by decide) (by decide) _).mpr (by decide)

/-- The greatest `int` does not make the trip. -/
theorem not_roundTrip_max : ¬ RoundTrip (fun _ => 0) 11 2147483647 := by
  obtain ⟨buf', hok, -, hatoi⟩ :=
    atoi_snprintf (v := 2147483647) (n := 11) (by decide) (by decide) fun _ => 0
  rintro ⟨b, hb, -, hvalue⟩
  obtain rfl : buf' = b := Except.ok.inj (hok.symm.trans hb)
  rw [hatoi, if_neg (by decide)] at hvalue
  cases hvalue

end Atoi

end Savannah.Format
