import Savannah.Foundation.Layout

/-!
# A memory of bytes

Reading and writing a range of a memory that is a function from addresses to bytes, and the
functions of the C library on it.  A write is seen by a read of the same range (`load_store`) and
not by one of a range apart from it (`load_store_of_disjoint`).

`copy` is `memcpy`, byte by byte from the lower end; for ranges that do not overlap the target holds
afterwards what the source held before (`copy_apply`).
-/

namespace Foundation

/-- A memory of bytes. -/
abbrev Bytes := ℕ → UInt8

namespace Bytes

/-- The `n` bytes from `a` on. -/
def load (m : Bytes) (a n : ℕ) : List UInt8 := (List.range n).map fun i => m (a + i)

/-- The memory with the bytes `l` from `a` on. -/
def store (m : Bytes) (a : ℕ) (l : List UInt8) : Bytes :=
  fun x => if a ≤ x then l.getD (x - a) (m x) else m x

/-- `memcpy`: the memory after `n` iterations. -/
def copy (m : Bytes) (dst src : ℕ) : ℕ → Bytes
  | 0 => m
  | n + 1 => Function.update (m.copy dst src n) (dst + n) (m.copy dst src n (src + n))

section Store

variable {m : Bytes} {a b n x : ℕ} {l : List UInt8}

@[simp] theorem length_load : (m.load a n).length = n := by simp [load]

/-- A load in two parts. -/
theorem load_add (k : ℕ) : m.load a (n + k) = m.load a n ++ m.load (a + n) k := by
  simp only [load, List.range_add, List.map_append, List.map_map]
  refine congrArg _ (List.map_congr_left fun i _ => ?_)
  simp only [Function.comp_apply, Nat.add_assoc]

/-- A load depends on its bytes only. -/
theorem load_congr {m' : Bytes} (h : ∀ i < n, m' (a + i) = m (a + i)) : m'.load a n = m.load a n :=
  List.map_congr_left fun i hi => h i (List.mem_range.mp hi)

/-- Outside the range a write changes nothing. -/
theorem store_of_disjoint (h : x < a ∨ a + l.length ≤ x) : m.store a l x = m x := by
  unfold store
  split
  · rw [List.getD_eq_default _ _ (by omega)]
  · rfl

/-- Inside the range a write puts its bytes. -/
theorem store_apply {i : ℕ} (h : i < l.length) : m.store a l (a + i) = l[i] := by
  rw [store, if_pos (Nat.le_add_right a i), Nat.add_sub_cancel_left, List.getD_eq_getElem _ _ h]

@[simp] theorem store_nil : m.store a [] = m := by
  funext x
  exact store_of_disjoint (Nat.lt_or_ge x a)

/-- Writing the first byte and then the others. -/
theorem store_update (b : UInt8) :
    Bytes.store (Function.update m a b) (a + 1) l = m.store a (b :: l) := by
  funext x
  unfold store
  rcases lt_trichotomy x a with hlt | rfl | hgt
  · rw [if_neg (by omega), if_neg (by omega), Function.update_of_ne hlt.ne]
  · rw [if_neg (by omega), if_pos le_rfl, Nat.sub_self, Function.update_self]
    rfl
  · rw [if_pos (Nat.succ_le_of_lt hgt), if_pos hgt.le, Function.update_of_ne hgt.ne',
      show x - a = x - (a + 1) + 1 by omega, List.getD_cons_succ]

/-- Writing a range in two parts. -/
theorem store_store (l' : List UInt8) :
    (m.store a l).store (a + l.length) l' = m.store a (l ++ l') := by
  funext x
  unfold store
  by_cases hx : a + l.length ≤ x
  · rw [if_pos hx, if_pos (by omega), if_pos (by omega), List.getD_append_right _ _ _ _ (by omega),
      List.getD_eq_default l _ (by omega), Nat.sub_sub]
  · rw [if_neg hx]
    by_cases ha : a ≤ x
    · rw [if_pos ha, if_pos ha, List.getD_append _ _ _ _ (by omega)]
    · rw [if_neg ha, if_neg ha]

/-- What was stored is loaded. -/
theorem load_store : (m.store a l).load a l.length = l :=
  List.ext_getElem length_load fun i _ hi => by
    simp only [load, List.getElem_map, List.getElem_range]
    exact store_apply hi

/-- A store elsewhere does not matter. -/
theorem load_store_of_disjoint (h : b + n ≤ a ∨ a + l.length ≤ b) :
    (m.store a l).load b n = m.load b n :=
  load_congr fun i hi => store_of_disjoint (by omega)

/-- A part of what was written. -/
theorem load_store_field {i w : ℕ} (h : i + w ≤ l.length) :
    (m.store a l).load (a + i) w = field l i w := by
  have hlen : (field l i w).length = w := by
    rw [field, List.length_take, List.length_drop]
    omega
  refine List.ext_getElem (by rw [length_load, hlen]) fun j hj _ => ?_
  rw [length_load] at hj
  simp only [load, field, List.getElem_map, List.getElem_range, List.getElem_take,
    List.getElem_drop,
    Nat.add_assoc]
  exact store_apply (by omega)

/-- A copy between ranges that do not overlap. -/
theorem copy_apply {dst src : ℕ} (h : dst + n ≤ src ∨ src + n ≤ dst) :
    m.copy dst src n x = if dst ≤ x ∧ x < dst + n then m (src + (x - dst)) else m x := by
  induction n generalizing x with
  | zero => rw [copy, if_neg (by omega)]
  | succ n ih =>
    have ih {x} := ih (x := x) (by omega)
    rw [copy, Function.update_apply, ih, ih,
      if_neg (show ¬ (dst ≤ src + n ∧ src + n < dst + n) by omega)]
    by_cases hx : x = dst + n
    · rw [if_pos hx, if_pos (by omega), hx, Nat.add_sub_cancel_left]
    · rw [if_neg hx]
      exact if_congr (by omega) rfl rfl

/-- A copy of bytes of `B` to a place apart from `B`: it changes no byte of `B`. -/
theorem copy_free {B : Set ℕ} {dst src : ℕ} (hsrc : ∀ i < n, src + i ∈ B)
    (hdst : ∀ b ∈ B, ¬ (dst ≤ b ∧ b < dst + n)) :
    (∀ b ∈ B, m.copy dst src n b = m b) ∧ ∀ i < n, m.copy dst src n (dst + i) = m (src + i) := by
  have hapart : dst + n ≤ src ∨ src + n ≤ dst := by
    by_contra hover
    -- the first byte of the range that starts later is in both
    rcases Nat.le_total dst src with hle | hle
    · exact hdst src (hsrc 0 (by omega)) ⟨hle, by omega⟩
    · have hmem := hsrc (dst - src) (by omega)
      exact hdst _ hmem ⟨by omega, by omega⟩
  constructor
  · intro b hb
    rw [copy_apply hapart, if_neg (hdst b hb)]
  · intro i hi
    rw [copy_apply hapart, if_pos ⟨Nat.le_add_right _ _, Nat.add_lt_add_left hi _⟩,
      Nat.add_sub_cancel_left]

end Store

end Bytes

end Foundation
