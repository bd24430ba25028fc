import Mathlib

/-!
# The words and addresses of message passing

The bit helpers of `lib/bitmap.c` and the addresses that `lib/ipc.c` computes.  A server has one
64-bit ready word with a bit for each CPU; the outboxes of the CPUs are pages of 4KB, one behind the
other, and so are the inboxes, each of which is an array of messages of 64 bytes.

The mask of a bit is computed as an `int` and then extended to 64 bits.  It is the bit itself up to
bit 30 (`bitMask_eq`); for bit 31 the extension sets all higher bits.  So the helpers work for
machines with at most 31 CPUs, and only for those (`addressing_iff`), although the boot code accepts
up to 255.
-/

namespace Savannah.Ipc

/-- `MSG_DATA_SIZE` -/
abbrev msgDataSize : ℕ := 48

/-! ### `lib/bitmap.c` -/

/-- The mask `1 << bit`, an `int` that is converted to `uint64_t`.  A shift by 32 or more is left
open by the language; the processor takes the count modulo 32. -/
def bitMask (bit : ℕ) : BitVec 64 := (1#32 <<< (bit % 32)).signExtend 64

/-- `set_bit` -/
def setBit (bitmap : BitVec 64) (bit : ℕ) : BitVec 64 := bitmap ||| bitMask bit

/-- `clear_bit` -/
def clearBit (bitmap : BitVec 64) (bit : ℕ) : BitVec 64 :=
  bitmap &&& (~~~(1#32 <<< (bit % 32))).signExtend 64

/-- `check_bit`; the result is converted to `int`. -/
def checkBit (bitmap : BitVec 64) (bit : ℕ) : ℤ :=
  (((bitmap &&& bitMask bit) >>> (bit % 64)).setWidth 32).toInt

/-! ### `lib/ipc.c` -/

/-- The search of `msg_check`; `none` when `from` keeps the value `-1`. -/
def firstReady (ncpus : ℕ) (bitmap : BitVec 64) : Option ℕ :=
  (List.range ncpus).find? fun i => checkBit bitmap i = 1

/-- `msg_check` of the server `id` with the outbox `msgOutput`, once its word is not zero: the
address of the message and the new word. -/
def msgCheck (ncpus id msgOutput : ℕ) (bitmap : BitVec 64) : Option (ℕ × BitVec 64) :=
  (firstReady ncpus bitmap).map fun i => (msgOutput - 4096 * id + 4096 * i, clearBit bitmap i)

/-- The inbox cell that `msg_reply` of the server `id` with the inbox `msgInput` fills for the CPU
`dst`, in the slot of `src`. -/
def inboxCell (id msgInput dst src : ℕ) : ℕ := msgInput - 4096 * id + 4096 * dst + 64 * src

/-! ### Up to 31 CPUs -/

section Small

variable {w : BitVec 64} {a b n : ℕ}

theorem bitMask_eq (ha : a < 31) : bitMask a = BitVec.twoPow 64 a := by
  have key : ∀ a : Fin 31, bitMask a = BitVec.twoPow 64 a := by decide
  exact key ⟨a, ha⟩

theorem clearBit_eq (ha : a < 31) : clearBit w a = w &&& ~~~BitVec.twoPow 64 a := by
  have key : ∀ a : Fin 31, (~~~(1#32 <<< ((a : ℕ) % 32))).signExtend 64 =
      ~~~BitVec.twoPow 64 a := by
    decide
  rw [clearBit, key ⟨a, ha⟩]

/-- `check_bit` reads the bit. -/
theorem checkBit_eq (ha : a < 31) : checkBit w a = if w.getLsbD a then 1 else 0 := by
  have key : ∀ a : Fin 31,
      ((BitVec.twoPow 64 a >>> ((a : ℕ) % 64)).setWidth 32).toInt = 1 ∧
      ((0#64 >>> ((a : ℕ) % 64)).setWidth 32).toInt = 0 := by decide
  obtain ⟨hone, hzero⟩ := key ⟨a, ha⟩
  unfold checkBit
  rw [bitMask_eq ha, BitVec.and_twoPow]
  split
  · exact hone
  · exact hzero

/-- The bits after setting one. -/
theorem getLsbD_setBit (ha : a < 31) (b : ℕ) :
    (setBit w a).getLsbD b = (w.getLsbD b || decide (a = b)) := by
  rw [setBit, bitMask_eq ha, BitVec.getLsbD_or, BitVec.getLsbD_twoPow,
    decide_eq_true (show a < 64 by omega), Bool.true_and]

/-- The bits after clearing one. -/
theorem getLsbD_clearBit (ha : a < 31) (b : ℕ) :
    (clearBit w a).getLsbD b = (w.getLsbD b && !decide (a = b)) := by
  rw [clearBit_eq ha, BitVec.getLsbD_and, BitVec.getLsbD_not, BitVec.getLsbD_twoPow,
    decide_eq_true (show a < 64 by omega), Bool.true_and]
  by_cases hb : b < 64
  · rw [decide_eq_true hb, Bool.true_and]
  · rw [BitVec.getLsbD_of_ge w b (by omega), Bool.false_and, Bool.false_and]

/-- `msg_check` finds the smallest CPU whose bit is set. -/
theorem firstReady_eq_some (hn : n ≤ 31) :
    firstReady n w = some a ↔ a < n ∧ w.getLsbD a = true ∧ ∀ j < a, w.getLsbD j = false := by
  have hbit : ∀ i < n, checkBit w i = 1 ↔ w.getLsbD i = true := by
    intro i hi
    rw [checkBit_eq (by omega)]
    split <;> simp [*]
  unfold firstReady
  rw [List.find?_range_eq_some]
  simp only [decide_eq_true_eq, List.mem_range, Bool.not_eq_true', decide_eq_false_iff_not]
  constructor
  · rintro ⟨hone, ha, hnone⟩
    refine ⟨ha, (hbit a ha).mp hone, fun j hj => ?_⟩
    have := hnone j hj
    rw [hbit j (by omega)] at this
    exact Bool.not_eq_true _ ▸ this
  · rintro ⟨ha, hone, hnone⟩
    refine ⟨(hbit a ha).mpr hone, ha, fun j hj => ?_⟩
    rw [hbit j (by omega), hnone j hj]
    exact Bool.false_ne_true

end Small

/-! ### Every machine -/

/-- A machine with `ncpus` CPUs: setting and clearing the bit of a CPU changes what `check_bit` says
of that CPU only; `msg_check` returns the outbox of the smallest CPU whose bit is set and clears
that bit only; and the inbox cells of `msg_reply` are distinct. -/
structure AddressingOk (ncpus : ℕ) : Prop where
  set_self : ∀ w, ∀ a < ncpus, checkBit (setBit w a) a = 1
  set_other : ∀ w, ∀ a < ncpus, ∀ b < ncpus, b ≠ a → checkBit (setBit w a) b = checkBit w b
  clear_self : ∀ w, ∀ a < ncpus, checkBit (clearBit w a) a = 0
  clear_other : ∀ w, ∀ a < ncpus, ∀ b < ncpus, b ≠ a → checkBit (clearBit w a) b = checkBit w b
  check : ∀ w, ∀ id < ncpus, ∀ outboxes, (∃ i < ncpus, w.getLsbD i = true) →
    ∃ i < ncpus, w.getLsbD i = true ∧ (∀ j < i, w.getLsbD j = false) ∧
      ∃ w', msgCheck ncpus id (outboxes + 4096 * id) w = some (outboxes + 4096 * i, w') ∧
        ∀ j, w'.getLsbD j = (w.getLsbD j && !decide (i = j))
  cells : ∀ id < ncpus, ∀ inboxes, ∀ d < ncpus, ∀ d' < ncpus, ∀ f < ncpus, ∀ f' < ncpus,
    inboxCell id (inboxes + 4096 * id) d f = inboxCell id (inboxes + 4096 * id) d' f' →
      d = d' ∧ f = f'

/-- With at most 31 CPUs the words and the addresses are large enough. -/
theorem addressingOk_of_le {n : ℕ} (hn : n ≤ 31) : AddressingOk n where
  set_self w a ha := by
    rw [checkBit_eq (by omega), getLsbD_setBit (by omega), if_pos (by simp)]
  set_other w a ha b hb hne := by
    rw [checkBit_eq (by omega), checkBit_eq (by omega), getLsbD_setBit (by omega),
      decide_eq_false hne.symm, Bool.or_false]
  clear_self w a ha := by
    rw [checkBit_eq (by omega), getLsbD_clearBit (by omega), if_neg (by simp)]
  clear_other w a ha b hb hne := by
    rw [checkBit_eq (by omega), checkBit_eq (by omega), getLsbD_clearBit (by omega),
      decide_eq_false hne.symm, Bool.not_false, Bool.and_true]
  check w id _ outboxes hex := by
    classical
    let i := Nat.find hex
    have hi : i < n ∧ w.getLsbD i = true := Nat.find_spec hex
    have hmin : ∀ j < i, w.getLsbD j = false := by
      intro j hj
      by_contra hset
      exact Nat.find_min hex hj ⟨by omega, by simpa using hset⟩
    have hfirst : firstReady n w = some i := (firstReady_eq_some hn).mpr ⟨hi.1, hi.2, hmin⟩
    refine ⟨i, hi.1, hi.2, hmin, clearBit w i, ?_, fun j => getLsbD_clearBit (by omega) j⟩
    rw [msgCheck, hfirst, Nat.add_sub_cancel]
    rfl
  cells id _ inboxes d hd d' hd' f hf f' hf' heq := by
    unfold inboxCell at heq
    omega

/-- The words and addresses fit exactly the machines with at most 31 CPUs. -/
theorem addressing_iff (ncpus : ℕ) : AddressingOk ncpus ↔ ncpus ≤ 31 := by
  refine ⟨fun h => ?_, addressingOk_of_le⟩
  by_contra hlt
  -- the mask of bit 31 is negative
  exact absurd (h.set_self 0 31 (by omega)) (by decide)

/-- On a machine with 32 CPUs, setting bit 31 of an empty word sets all higher bits as well, and
`check_bit` returns -1. -/
theorem addressing_32 :
    ¬ AddressingOk 32 ∧ setBit 0 31 = 0xFFFFFFFF80000000#64 ∧ checkBit (setBit 0 31) 31 = -1 :=
  ⟨fun h => absurd (h.set_self 0 31 (by decide)) (by decide), by decide, by decide⟩

end Savannah.Ipc
