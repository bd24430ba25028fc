import Mathlib

/-!
# Positions on a circle

The positions are `0, …, n - 1`, and `ahead n p q` is the number of steps from `p` forward to `q`.
`FirstFrom n s P p` says that `p` is the first position from `s` on with the property `P`.

A server that goes round the circle takes in each round the first position from the one behind the
last on (`Rounds`).  As long as a position `q` has the property and is not taken, the positions that
are taken come closer and closer to it (`Rounds.pairwise_ahead`); in particular none is taken twice.
-/

namespace Foundation

/-- The number of steps from `p` forward to `q` on a circle of `n` positions. -/
def ahead (n p q : ℕ) : ℕ := if p ≤ q then q - p else q + n - p

/-- The position behind `p`. -/
def next (n p : ℕ) : ℕ := if p + 1 < n then p + 1 else 0

section Ahead

variable {n p q r : ℕ}

/-- The next position is a position. -/
theorem next_lt (h : 0 < n) : next n p < n := by
  unfold next
  split <;> omega

@[simp] theorem ahead_self : ahead n p p = 0 := by simp [ahead]

/-- A distance is below `n`. -/
theorem ahead_lt (hp : p < n) (hq : q < n) : ahead n p q < n := by
  unfold ahead
  split <;> omega

/-- A position is known by its distance. -/
theorem ahead_injective (hp : p < n) (hq : q < n) (hr : r < n) (h : ahead n p q = ahead n p r) :
    q = r := by
  unfold ahead at h
  split at h <;> split at h <;> omega

/-- On the way from `p` to `r`, the position `q` is passed. -/
theorem ahead_of_le (hp : p < n) (hq : q < n) (hr : r < n) (h : ahead n p q ≤ ahead n p r) :
    ahead n p q + ahead n q r = ahead n p r := by
  unfold ahead at *
  grind

/-- From `q` back to `r`, which lies before it as seen from `p`, it is a whole round less the
way. -/
theorem ahead_of_lt (hp : p < n) (hq : q < n) (h : ahead n p r < ahead n p q) :
    ahead n p q + ahead n q r = n + ahead n p r := by
  unfold ahead at *
  grind

/-- One step forward comes one step closer. -/
theorem ahead_next (hp : p < n) (hq : q < n) (h : p ≠ q) :
    ahead n (next n p) q + 1 = ahead n p q := by
  unfold ahead next
  grind

end Ahead

/-- The first position from `s` on with the property `P`. -/
structure FirstFrom (n s : ℕ) (P : ℕ → Prop) (p : ℕ) : Prop where
  lt : p < n
  holds : P p
  before : ∀ r < n, ahead n s r < ahead n s p → ¬ P r

namespace FirstFrom

variable {n s p q : ℕ} {P : ℕ → Prop}

/-- If some position has the property, there is a first one. -/
theorem exists_of_exists (h : ∃ q < n, P q) : ∃ p, FirstFrom n s P p := by
  classical
  obtain ⟨q, hq, hP⟩ := h
  have hd : ∃ d, ∃ p < n, P p ∧ ahead n s p = d := ⟨_, q, hq, hP, rfl⟩
  obtain ⟨p, hp, hPp, hpd⟩ := Nat.find_spec hd
  refine ⟨p, hp, hPp, ?_⟩
  intro r hr hlt hPr
  exact Nat.find_min hd (hpd ▸ hlt) ⟨r, hr, hPr, rfl⟩

/-- Up to the first position, every other one with the property lies behind it. -/
theorem ahead_le (h : FirstFrom n s P p) (hq : q < n) (hP : P q) : ahead n s p ≤ ahead n s q :=
  not_lt.mp fun hlt => h.before q hq hlt hP

/-- A position that is waiting comes closer when the first one is taken. -/
theorem ahead_taken_le (h : FirstFrom n s P p) (hs : s < n) (hq : q < n) (hP : P q) :
    ahead n p q ≤ ahead n s q :=
  (ahead_of_le hs h.lt hq (h.ahead_le hq hP)).le.trans' (Nat.le_add_left _ _)

end FirstFrom

/-- The positions that are taken in consecutive rounds from `s` on, with what has the property in
each round. -/
inductive Rounds (n : ℕ) : ℕ → List ((ℕ → Prop) × ℕ) → Prop
  | nil (s : ℕ) : Rounds n s []
  | cons {s p : ℕ} {P : ℕ → Prop} {l : List ((ℕ → Prop) × ℕ)} (h : FirstFrom n s P p)
      (hl : Rounds n (next n p) l) : Rounds n s ((P, p) :: l)

/-- Only positions are served. -/
theorem Rounds.lt {n s : ℕ} {l : List ((ℕ → Prop) × ℕ)} (h : Rounds n s l) : ∀ x ∈ l, x.2 < n := by
  induction h with
  | nil s => exact fun _ hx => absurd hx List.not_mem_nil
  | cons h hrest ih => exact List.forall_mem_cons.mpr ⟨h.lt, ih⟩

/-- While `q` has the property and is not taken, every position that is taken is closer to it than
the ones before. -/
theorem Rounds.pairwise_ahead {n s q : ℕ} {l : List ((ℕ → Prop) × ℕ)} (h : Rounds n s l)
    (hs : s < n)
    (hq : q < n) (hl : ∀ x ∈ l, x.1 q ∧ x.2 ≠ q) :
    (∀ x ∈ l, ahead n x.2 q ≤ ahead n s q) ∧
      l.Pairwise fun x y => ahead n y.2 q < ahead n x.2 q := by
  induction h with
  | nil s => exact ⟨fun _ hx => absurd hx List.not_mem_nil, List.Pairwise.nil⟩
  | @cons s p P l h hrest ih =>
    obtain ⟨hP, hne⟩ := hl _ List.mem_cons_self
    obtain ⟨hbound, hpairs⟩ := ih (next_lt (by omega)) fun x hx => hl x (List.mem_cons_of_mem _ hx)
    have hfirst := h.ahead_taken_le hs hq hP
    have hnext := ahead_next h.lt hq hne
    have hcloser : ∀ x ∈ l, ahead n x.2 q < ahead n p q := by
      intro x hx
      exact lt_of_le_of_lt (hbound x hx) (by omega)
    refine ⟨?_, List.pairwise_cons.mpr ⟨hcloser, hpairs⟩⟩
    intro x hx
    rcases List.mem_cons.mp hx with rfl | hx
    · exact hfirst
    · exact (hcloser x hx).le.trans hfirst

end Foundation
