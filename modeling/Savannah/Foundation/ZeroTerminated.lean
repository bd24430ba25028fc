import Mathlib

/-!
# Zero-terminated arrays

An array of `n` entries holds a list when the list stands at its start and the rest is zero
(`ZeroTerminated`); no element of the list is zero, so that the array determines it.  An array that
is full has no terminator.

The lemmas say what the usual loops over such an array do: the search for the first zero finds the
place behind the last element, writing there appends an element, and moving the entries behind an
element one place down removes it.
-/

namespace Foundation

variable {α : Type} [Zero α]

/-- The first `n` entries of `f` are the elements of `l`, followed by zeros. -/
structure ZeroTerminated (n : ℕ) (f : ℕ → α) (l : List α) : Prop where
  length_le : l.length ≤ n
  get : ∀ i < n, f i = l.getD i 0
  nonzero : (0 : α) ∉ l

/-- The entries of `f` from `j` up to `k`, moved one place down. -/
def moved {α : Type} (f : ℕ → α) (j k i : ℕ) : α := if j ≤ i ∧ i < k then f (i + 1) else f i

namespace ZeroTerminated

variable {n i j : ℕ} {f f' : ℕ → α} {l l' : List α} {a : α}

/-- Only zeros: the empty list. -/
theorem empty (h : ∀ i < n, f i = 0) : ZeroTerminated n f [] :=
  ⟨Nat.zero_le n, h, List.not_mem_nil⟩

/-- An array in which no entry is zero. -/
theorem full (h : ∀ i < n, f i ≠ 0) : ZeroTerminated n f ((List.range n).map f) := by
  refine ⟨by simp, fun i hi => ?_, fun hmem => ?_⟩
  · simp [List.getD_eq_getElem?_getD, hi]
  · obtain ⟨i, hi, hzero⟩ := List.mem_map.mp hmem
    exact h i (List.mem_range.mp hi) hzero

/-- The elements of the list are the first entries. -/
theorem get_of_lt (h : ZeroTerminated n f l) (hi : i < l.length) : f i = l[i] := by
  rw [h.get i (hi.trans_le h.length_le)]
  exact List.getD_eq_getElem l 0 hi

/-- The zeros begin at the end of the list. -/
theorem eq_zero_iff (h : ZeroTerminated n f l) (hi : i < n) : f i = 0 ↔ l.length ≤ i := by
  constructor
  · intro hzero
    by_contra hlt
    refine h.nonzero ?_
    rw [← hzero, h.get_of_lt (not_le.mp hlt)]
    exact List.getElem_mem _
  · intro hle
    rw [h.get i hi]
    exact List.getD_eq_default l 0 hle

/-- The items are not zero. -/
theorem ne_zero (h : ZeroTerminated n f l) (hi : i < l.length) : f i ≠ 0 := fun hzero =>
  absurd ((h.eq_zero_iff (hi.trans_le h.length_le)).mp hzero) (not_le.mpr hi)

/-- The elements are the entries that are not zero. -/
theorem mem_iff (h : ZeroTerminated n f l) : a ∈ l ↔ a ≠ 0 ∧ ∃ i < n, f i = a := by
  constructor
  · intro ha
    obtain ⟨i, hi, rfl⟩ := List.getElem_of_mem ha
    exact ⟨fun hzero => h.nonzero (hzero ▸ ha), i, hi.trans_le h.length_le, h.get_of_lt hi⟩
  · rintro ⟨hne, i, hi, rfl⟩
    have hlt : i < l.length := by
      by_contra hle
      exact hne ((h.eq_zero_iff hi).mpr (not_lt.mp hle))
    rw [h.get_of_lt hlt]
    exact List.getElem_mem hlt

/-- The search for a free entry. -/
theorem find_zero [DecidableEq α] (h : ZeroTerminated n f l) :
    (List.range n).find? (fun i => f i = 0) = if l.length < n then some l.length else none := by
  split
  · rename_i hlt
    rw [List.find?_range_eq_some]
    refine ⟨decide_eq_true ((h.eq_zero_iff hlt).mpr le_rfl), List.mem_range.mpr hlt, fun j hj => ?_⟩
    have hne : f j ≠ 0 := fun hzero => by
      have := (h.eq_zero_iff (hj.trans hlt)).mp hzero
      omega
    simpa using hne
  · rename_i hfull
    rw [List.find?_range_eq_none]
    intro i hi
    have hne : f i ≠ 0 := fun hzero => by
      have := (h.eq_zero_iff hi).mp hzero
      omega
    simpa using hne

/-- Writing behind the last element. -/
theorem push (h : ZeroTerminated n f l) (hlt : l.length < n) (ha : a ≠ 0) (hnew : f' l.length = a)
    (hother : ∀ i < n, i ≠ l.length → f' i = f i) : ZeroTerminated n f' (l ++ [a]) := by
  refine ⟨by simpa using hlt, fun i hi => ?_, fun hmem => ?_⟩
  · rcases lt_trichotomy i l.length with hil | rfl | hil
    · rw [hother i hi hil.ne, h.get i hi, List.getD_append _ _ _ _ hil]
    · rw [hnew, List.getD_append_right _ _ _ _ le_rfl, Nat.sub_self]
      rfl
    · rw [hother i hi hil.ne', (h.eq_zero_iff hi).mpr hil.le]
      exact (List.getD_eq_default _ _ (by simpa using hil)).symm
  · rcases List.mem_append.mp hmem with hmem | hmem
    · exact h.nonzero hmem
    · exact ha (List.mem_singleton.mp hmem).symm

/-- Moving the entries behind an element one place down, in an array that is not full. -/
theorem shift (h : ZeroTerminated n f l) (hlt : l.length < n) (hj : j < l.length)
    (hlow : ∀ i < j, f' i = f i) (hmid : ∀ i, j ≤ i → i < l.length → f' i = f (i + 1))
    (hhigh : ∀ i, l.length ≤ i → i < n → f' i = 0) : ZeroTerminated n f' (l.eraseIdx j) := by
  have hlen : (l.eraseIdx j).length = l.length - 1 := List.length_eraseIdx_of_lt hj
  refine ⟨by omega, fun i hi => ?_, fun hmem => h.nonzero (List.mem_of_mem_eraseIdx hmem)⟩
  by_cases hend : l.length ≤ i
  · rw [hhigh i hend hi]
    exact (List.getD_eq_default _ _ (by omega)).symm
  rw [List.getD_eq_getElem?_getD, List.getElem?_eraseIdx]
  by_cases hij : i < j
  · rw [hlow i hij, if_pos hij, h.get i hi, List.getD_eq_getElem?_getD]
  · rw [hmid i (by omega) (by omega), if_neg hij, h.get (i + 1) (by omega),
      List.getD_eq_getElem?_getD]

end ZeroTerminated

end Foundation
