import Mathlib

/-!
# Layouts of bytes

Numbers written with their least significant byte first, fields at a fixed position of a list, and
records of one width laid out one after another.  A reader that knows the widths finds what a writer
put there: `number_littleEndian` for one number, `drop_flatten` for a record of an array.
-/

namespace Foundation

/-- The `w` bytes of a number, the least significant one first. -/
def littleEndian : ℕ → ℕ → List UInt8
  | 0, _ => []
  | w + 1, n => UInt8.ofNat n :: littleEndian w (n / 256)

/-- The number that bytes stand for, the least significant one first. -/
def number : List UInt8 → ℕ
  | [] => 0
  | b :: bs => b.toNat + 256 * number bs

@[simp] theorem length_littleEndian (w n : ℕ) : (littleEndian w n).length = w := by
  induction w generalizing n with
  | zero => rfl
  | succ w ih => rw [littleEndian, List.length_cons, ih]

/-- The byte `i` of a number. -/
theorem getElem?_littleEndian {w i : ℕ} (hi : i < w) (n : ℕ) :
    (littleEndian w n)[i]? = some (UInt8.ofNat (n / 256 ^ i)) := by
  induction w generalizing n i with
  | zero => exact absurd hi (Nat.not_lt_zero i)
  | succ w ih =>
    cases i with
    | zero => simp [littleEndian]
    | succ i =>
      rw [littleEndian, List.getElem?_cons_succ, ih (Nat.lt_of_succ_lt_succ hi), pow_succ',
        Nat.div_div_eq_div_mul]

/-- A number that fits is read back. -/
theorem number_littleEndian {w n : ℕ} (h : n < 256 ^ w) : number (littleEndian w n) = n := by
  induction w generalizing n with
  | zero => rw [pow_zero] at h; exact (Nat.lt_one_iff.mp h).symm
  | succ w ih =>
    have hdiv : n / 256 < 256 ^ w := Nat.div_lt_of_lt_mul (by rwa [pow_succ'] at h)
    rw [littleEndian, number, ih hdiv, UInt8.toNat_ofNat']
    exact Nat.mod_add_div n 256

/-- The `w` bytes from `pos` on. -/
def field (l : List UInt8) (pos w : ℕ) : List UInt8 := (l.drop pos).take w

/-- A field is found behind what precedes it. -/
theorem field_append {l₁ l₂ l₃ : List UInt8} {pos w : ℕ} (hpos : l₁.length = pos)
    (hw : l₂.length = w) : field (l₁ ++ (l₂ ++ l₃)) pos w = l₂ := by
  rw [field, List.drop_left' hpos, List.take_left' hw]

/-- A field behind another part is looked up in the rest. -/
theorem field_append_right (l₁ l₂ : List UInt8) (pos w : ℕ) :
    field (l₁ ++ l₂) (l₁.length + pos) w = field l₂ pos w := by
  rw [field, field, ← List.drop_drop, List.drop_left]

/-- The bytes of an array of records from its `i`-th record on. -/
theorem drop_flatten {w : ℕ} {l : List (List UInt8)} (hl : ∀ r ∈ l, r.length = w) (i : ℕ) :
    l.flatten.drop (w * i) = (l.drop i).flatten := by
  induction l generalizing i with
  | nil => simp
  | cons r l ih =>
    have hr := hl r List.mem_cons_self
    cases i with
    | zero => rfl
    | succ i =>
      rw [List.flatten_cons, List.drop_succ_cons, Nat.mul_succ, Nat.add_comm, ← List.drop_drop,
        List.drop_left' hr]
      exact ih (fun x hx => hl x (List.mem_cons_of_mem r hx)) i

/-- The size of an array of records. -/
theorem length_flatten {w : ℕ} {l : List (List UInt8)} (hl : ∀ r ∈ l, r.length = w) :
    l.flatten.length = w * l.length := by
  rw [List.length_flatten, List.map_congr_left hl, List.map_const', List.sum_replicate, smul_eq_mul,
    Nat.mul_comm]

end Foundation
