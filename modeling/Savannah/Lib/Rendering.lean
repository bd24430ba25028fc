import Savannah.Lib.Format

/-!
# Rendering of numbers

What `sn_put_hex` and `sn_put_decimal` append to a buffer, for every number, start index and room,
and what their copies `put_hex` and `put_decimal` print.  The copies in `boot/stage2/printk.c`,
`lib/debug.c` and `lib/panic.c` have the same loops with a function that prints a character in the
place of the buffer.

All of them render the canonical numeral except at one number each.  The scan that skips the leading
zeros has no lower bound and runs out of `buffer` at zero, and the magnitude of the least `int` is
not an `int`.
-/

namespace Savannah.Format

open Foundation

/-! ## The copies that print -/

/-- `while (i >= 0) kputc (buffer[i--], color)`, with `i + 1` for `i`. -/
def printOut (buffer : ℕ → UInt8) : ℕ → List UInt8
  | 0 => []
  | i + 1 => buffer i :: printOut buffer i

/-- `put_hex`: the characters that it prints. -/
def putHex (num : BitVec 64) : Except Fault (List UInt8) := do
  let i ← skipZeros (hexBuffer num) 16
  .ok ((if i = 0 then [char '0'] else []) ++ printOut (hexBuffer num) i)

/-- `put_decimal`: the characters that it prints. -/
def putDecimal (num : BitVec 32) : Except Fault (List UInt8) := do
  let buffer ← magnitude num.toInt >>= takeApart 20
  .ok ((if num.toInt < 0 then [char '-'] else []) ++
    printOut (fun i => char '0' + .ofNat (buffer.getD i 0)) buffer.length)

/-- What is printed is what goes to a buffer without a limit. -/
theorem printOut_eq (buffer : ℕ → UInt8) (i : ℕ) :
    printOut buffer i = ((List.range i).map buffer).reverse := by
  induction i with
  | zero => rfl
  | succ i ih =>
    rw [printOut, ih, List.range_succ, List.map_append, List.reverse_append]
    rfl

theorem putHex_zero : putHex 0 = .error .outside := by
  rw [putHex, skipZeros_zero]
  rfl

/-- `put_hex` prints the number. -/
theorem putHex_eq {num : BitVec 64} (hnum : num ≠ 0) : putHex num = .ok (Item.hex num).text := by
  obtain ⟨i, hi, hpos, -, htext⟩ := hexBuffer_text hnum
  rw [putHex, hi]
  show Except.ok _ = _
  rw [if_neg hpos.ne', printOut_eq, htext]
  rfl

theorem putDecimal_min {num : BitVec 32} (hnum : num.toInt = -2 ^ 31) :
    putDecimal num = .error .overflow := by
  have hmin : magnitude (-2 ^ 31) = .error .overflow := by decide
  rw [putDecimal, hnum, hmin]
  rfl

/-- `put_decimal` prints the number. -/
theorem putDecimal_eq {num : BitVec 32} (hnum : num.toInt ≠ -2 ^ 31) :
    putDecimal num = .ok (Item.decimal num).text := by
  have hlt : num.toInt < 2 ^ 31 := num.toInt_lt
  have hle : -2 ^ 31 ≤ num.toInt := num.le_toInt
  rw [putDecimal, magnitude_eq hnum hle]
  dsimp only [bind, Except.bind]
  rw [takeApart_eq (by omega) (by decide)]
  dsimp only
  rw [printOut_eq, digits_text]
  rfl

/-! ## The functions with a buffer -/

/-- A call that began with the buffer and index `o` has appended a text: its characters stand from
the index on as far as there is room up to `max`, nothing else was written, and the index has moved
by their number and not beyond `max`. -/
def Appends (max : ℕ) (text : List UInt8) (o : Out) (res : Except Fault Out) : Prop :=
  ∃ o', res = .ok o' ∧ o'.buf = o.buf.store o.idx (text.take (max - o.idx)) ∧
    o'.idx = o.idx + (text.take (max - o.idx)).length ∧ (o.idx ≤ max → o'.idx ≤ max)

/-- The index behind the part of a text for which there is room is an `int`. -/
def EndsInt (max : ℕ) (text : List UInt8) (idx : ℕ) : Prop :=
  idx + min text.length (max - idx) < 2 ^ 31

instance (max : ℕ) (text : List UInt8) (idx : ℕ) : Decidable (EndsInt max text idx) :=
  inferInstanceAs (Decidable (_ < _))

/-- `sn_put_hex` looks at `buffer` only from 15 down to an index that is not negative. -/
def ScanInside (num : BitVec 64) : Prop :=
  ∃ i, skipZeros (hexBuffer num) 16 = .ok (i + 1) ∧ i ≤ 15

section Rendering

variable {n max : ℕ} {o : Out}

theorem not_appends_error {text : List UInt8} {e : Fault} : ¬ Appends max text o (.error e) := by
  rintro ⟨o', h, -⟩
  cases h

/-- Writing a text as far as there is room appends it, unless the index overflows. -/
theorem appends_puts_iff {text : List UInt8} (hmax : max ≤ n) (hidx : o.idx < 2 ^ 31) :
    Appends max text o (puts n max text o) ↔ EndsInt max text o.idx := by
  rw [puts_eq hmax hidx, EndsInt]
  split
  · rename_i hend
    refine ⟨fun _ => hend, fun _ => ⟨_, rfl, rfl, ?_, fun hle => ?_⟩⟩
    · rw [List.length_take, Nat.min_comm]
    · show o.idx + min text.length (max - o.idx) ≤ max
      omega
  · rename_i hend
    exact ⟨fun h => absurd h not_appends_error, fun h => absurd h hend⟩

theorem scanInside_iff (num : BitVec 64) : ScanInside num ↔ num ≠ 0 := by
  constructor
  · rintro ⟨i, hi, -⟩ rfl
    rw [skipZeros_zero] at hi
    cases hi
  · intro hnum
    obtain ⟨i, hi, hpos, hle, -⟩ := hexBuffer_text hnum
    exact ⟨i - 1, by rw [hi, Nat.sub_add_cancel hpos], by omega⟩

/-- When `sn_put_hex` is right. -/
theorem appends_snPutHex_iff (hmax : max ≤ n) (hidx : o.idx < 2 ^ 31) (num : BitVec 64) :
    Appends max (Item.hex num).text o (snPutHex n num max o) ↔
      num ≠ 0 ∧ EndsInt max (Item.hex num).text o.idx := by
  by_cases hnum : num = 0
  · subst hnum
    rw [snPutHex_zero]
    exact ⟨fun h => absurd h not_appends_error, fun h => absurd rfl h.1⟩
  · rw [snPutHex_eq hnum, appends_puts_iff hmax hidx]
    exact (and_iff_right hnum).symm

/-- When `sn_put_decimal` is right. -/
theorem appends_snPutDecimal_iff (hmax : max ≤ n) (hidx : o.idx < 2 ^ 31) (num : BitVec 32) :
    Appends max (Item.decimal num).text o (snPutDecimal n num max o) ↔
      num.toInt ≠ -2 ^ 31 ∧ EndsInt max (Item.decimal num).text o.idx := by
  by_cases hnum : num.toInt = -2 ^ 31
  · rw [snPutDecimal_min hnum]
    exact ⟨fun h => absurd h not_appends_error, fun h => absurd hnum h.1⟩
  · rw [snPutDecimal_eq hnum, appends_puts_iff hmax hidx]
    exact (and_iff_right hnum).symm

/-- When `put_hex` is right. -/
theorem putHex_iff (num : BitVec 64) : putHex num = .ok (Item.hex num).text ↔ num ≠ 0 := by
  constructor
  · rintro h rfl
    rw [putHex_zero] at h
    cases h
  · exact putHex_eq

/-- When `put_decimal` is right. -/
theorem putDecimal_iff (num : BitVec 32) :
    putDecimal num = .ok (Item.decimal num).text ↔ num.toInt ≠ -2 ^ 31 := by
  constructor
  · intro h hnum
    rw [putDecimal_min hnum] at h
    cases h
  · exact putDecimal_eq

/-- Where the numbers are rendered by their canonical numerals: everywhere but at zero for the
hexadecimal functions and at the least `int` for the decimal ones, as long as the index behind the
text is an `int`.  The buffer has at least `max` bytes. -/
theorem rendering_iff (hmax : max ≤ n) (hidx : o.idx < 2 ^ 31) :
    (∀ num : BitVec 64,
      (ScanInside num ∧ Appends max (Item.hex num).text o (snPutHex n num max o) ↔
        num ≠ 0 ∧ EndsInt max (Item.hex num).text o.idx) ∧
      (putHex num = .ok (Item.hex num).text ↔ num ≠ 0)) ∧
    ∀ num : BitVec 32,
      (Appends max (Item.decimal num).text o (snPutDecimal n num max o) ↔
        num.toInt ≠ -2 ^ 31 ∧ EndsInt max (Item.decimal num).text o.idx) ∧
      (putDecimal num = .ok (Item.decimal num).text ↔ num.toInt ≠ -2 ^ 31) := by
  refine ⟨fun num => ⟨?_, putHex_iff num⟩, fun num => ⟨?_, putDecimal_iff num⟩⟩
  · rw [appends_snPutHex_iff hmax hidx, scanInside_iff, ← and_assoc, and_self_iff]
  · exact appends_snPutDecimal_iff hmax hidx num

/-- In a buffer of four bytes, from index 1 with room up to 3, the numbers `0x2F4` and `-57` leave
the first two characters of their numerals. -/
theorem rendering_four :
    (Item.hex 0x2F4).text = ['2', 'F', '4'].map char ∧
    Appends 3 (Item.hex 0x2F4).text ⟨fun _ => 0, 1⟩ (snPutHex 4 0x2F4 3 ⟨fun _ => 0, 1⟩) ∧
    (Item.decimal (-57)).text = ['-', '5', '7'].map char ∧
    Appends 3 (Item.decimal (-57)).text ⟨fun _ => 0, 1⟩
      (snPutDecimal 4 (-57) 3 ⟨fun _ => 0, 1⟩) := by
  have h := rendering_iff (o := ⟨fun _ => 0, 1⟩) (show 3 ≤ 4 by norm_num) (by norm_num)
  have hhex : (Item.hex 0x2F4).text = ['2', 'F', '4'].map char := by
    simp [Item.text, numeral, digitChar, hexDigits]
  have hdec : (Item.decimal (-57)).text = ['-', '5', '7'].map char := by
    simp [Item.text, numeral, digitChar, hexDigits]
  refine ⟨hhex, (((h.1 _).1).mpr ⟨by decide, ?_⟩).2, hdec, ((h.2 _).1).mpr ⟨by decide, ?_⟩⟩
  · rw [hhex]
    decide
  · rw [hdec]
    decide

/-- Zero and the least `int` are not rendered, whatever the room. -/
theorem not_rendered :
    ¬ ScanInside 0 ∧
    ¬ Appends 3 (Item.hex 0).text ⟨fun _ => 0, 1⟩ (snPutHex 4 0 3 ⟨fun _ => 0, 1⟩) ∧
    ¬ Appends 3 (Item.decimal (BitVec.intMin 32)).text ⟨fun _ => 0, 1⟩
      (snPutDecimal 4 (BitVec.intMin 32) 3 ⟨fun _ => 0, 1⟩) := by
  refine ⟨?_, ?_, ?_⟩
  · rw [scanInside_iff]
    exact not_not.mpr rfl
  · rw [snPutHex_zero]
    exact not_appends_error
  · rw [snPutDecimal_min (by decide)]
    exact not_appends_error

end Rendering

end Savannah.Format
