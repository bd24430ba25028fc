import Mathlib

/-!
# C integers and the ways a computation stops

Addresses and sizes (`phys_addr_t`, `virt_addr_t`, `size_t`) are 64-bit unsigned and are modelled by
`ℕ`, with an explicit `% 2 ^ 64` where the arithmetic of the source can wrap.  `int` is a 32-bit
two's complement number modelled by `ℤ`; `int32` is the conversion to it.

A C function either returns or stops the machine: through `panic`, by an access outside an array or
through a null pointer or a signed overflow (to which the language gives no meaning), or by not
terminating.
-/

namespace Savannah

/-- Conversion of a mathematical integer to `int`: the representative modulo `2 ^ 32` in
`[-2 ^ 31, 2 ^ 31)`. -/
def int32 (z : ℤ) : ℤ := Int.bmod z (2 ^ 32)

/-- Conversion of an `int` to the unsigned 64-bit `size_t`, as in a comparison of the two. -/
def toSize (z : ℤ) : ℕ := (z % 2 ^ 64).toNat

/-- `ALIGN (addr, 0x1000)`: the next multiple of the page size. -/
def alignPage (addr : ℕ) : ℕ := (addr + 4095) % 2 ^ 64 / 4096 * 4096

/-- The number of pages of `pgsz` bytes that hold `sz` bytes (`pages` in `vms/pm/main.c`). -/
def pages (sz pgsz : ℕ) : ℕ := sz / pgsz + if sz % pgsz > 0 then 1 else 0

/-- A small non-negative number survives the conversion to `int`. -/
theorem int32_of_lt {n : ℕ} (h : n < 2 ^ 31) : int32 n = n := by
  unfold int32 Int.bmod
  have hmod : (n : ℤ) % ((2 ^ 32 : ℕ) : ℤ) = n := by omega
  simp only [hmod]
  rw [if_pos (by omega)]

/-- `int32` is exact on the range of `int`. -/
theorem int32_of_mem {z : ℤ} (h₀ : -2 ^ 31 ≤ z) (h₁ : z < 2 ^ 31) : int32 z = z := by
  unfold int32 Int.bmod
  dsimp only
  split <;> omega

/-- `2 ^ 31` itself is converted to the most negative `int`. -/
theorem int32_two_pow : int32 (2 ^ 31) = -2 ^ 31 := by decide

/-- `2 ^ 32` is converted to zero. -/
theorem int32_two_pow_32 : int32 (2 ^ 32) = 0 := by decide

/-- The conversion of a number keeps its lower 32 bits, read as a signed number. -/
theorem int32_natCast (n : ℕ) :
    int32 n = if n % 2 ^ 32 < 2 ^ 31 then ((n % 2 ^ 32 : ℕ) : ℤ) else
    (n % 2 ^ 32 : ℕ) - 2 ^ 32 := by
  unfold int32 Int.bmod
  dsimp only
  split <;> split <;> omega

/-- The conversion never exceeds the number converted. -/
theorem int32_toNat_le (n : ℕ) : (int32 n).toNat ≤ n := by
  unfold int32 Int.bmod
  dsimp only
  split <;> omega

-- The equations above are all that the proofs use; the arithmetic behind them stays closed.
attribute [irreducible] int32

/-- A non-negative `int` keeps its value as a `size_t`. -/
theorem toSize_natCast {n : ℕ} (h : n < 2 ^ 64) : toSize n = n := by
  unfold toSize
  omega

/-- Aligning an address that does not wrap rounds it up to a page. -/
theorem alignPage_spec {a : ℕ} (h : a < 2 ^ 63) :
    a ≤ alignPage a ∧ alignPage a < a + 4096 ∧ alignPage a % 4096 = 0 := by
  unfold alignPage
  rw [Nat.mod_eq_of_lt (by omega)]
  refine ⟨?_, ?_, Nat.mul_mod_left _ _⟩ <;> omega

/-- A page count covers the size and exceeds it by less than a page. -/
theorem pages_spec (sz : ℕ) {pgsz : ℕ} (h : 0 < pgsz) :
    sz ≤ pages sz pgsz * pgsz ∧ pages sz pgsz * pgsz < sz + pgsz := by
  unfold pages
  have hdiv := Nat.div_add_mod sz pgsz
  have hlt := Nat.mod_lt sz h
  have hcomm : pgsz * (sz / pgsz) = sz / pgsz * pgsz := Nat.mul_comm _ _
  split
  · rw [Nat.add_mul, Nat.one_mul]
    omega
  · rw [Nat.add_zero]
    omega

/-- What ends a computation other than returning. -/
inductive Stop (π : Type) where
  /-- A call of `panic`, which halts the processor. -/
  | panic (p : π)
  /-- An access outside an array, at the given index. -/
  | outOfBounds (idx : ℤ)
  /-- An access through a null pointer. -/
  | nullPointer
  /-- A signed integer overflow. -/
  | overflow
  /-- A loop that does not end. -/
  | diverges
  deriving DecidableEq, Repr

namespace Stop

/-- Reading the panics of a part of the program as panics of the whole. -/
def map {π ρ : Type} (f : π → ρ) : Stop π → Stop ρ
  | panic p => panic (f p)
  | outOfBounds idx => outOfBounds idx
  | nullPointer => nullPointer
  | overflow => overflow
  | diverges => diverges

end Stop

end Savannah
