import Mathlib.Data.Nat.ModEq
import Mathlib.Data.List.Basic

/-!
# The slots of a ring

A ring of `n` slots that are filled in turn: the `k`-th element of a sequence goes to the slot `k %
n`. `InSlots n w R l` says that the last `w` elements of the sequence `l` are still in their slots,
where `R j a` says that the slot `j` has the element `a`.  Writing to the slot of the next element
spoils at most the element that came `n` earlier (`InSlots.write`), and once the next element is in
its slot there is one more (`InSlots.append`).
-/

namespace Foundation

variable {α : Type*} {n w : ℕ} {R R' : ℕ → α → Prop} {l : List α} {a : α}

/-- The last `w` elements of `l` are in their slots. -/
def InSlots (n w : ℕ) (R : ℕ → α → Prop) (l : List α) : Prop :=
  ∀ k a, l[k]? = some a → l.length ≤ k + w → R (k % n) a

/-- An element of an extended sequence. -/
theorem getElem?_snoc {k : ℕ} {b : α} (h : (l ++ [a])[k]? = some b) :
    l[k]? = some b ∨ k = l.length ∧ a = b := by
  rcases Nat.lt_or_ge k l.length with hlt | hge
  · left
    rwa [List.getElem?_append_left hlt] at h
  · right
    rw [List.getElem?_append_right hge, List.getElem?_singleton] at h
    split at h
    · exact ⟨by omega, Option.some.inj h⟩
    · cases h

/-- The elements before stay where they were. -/
theorem getElem?_append_of_eq_some {k : ℕ} {b : α} (h : l[k]? = some b) (l' : List α) :
    (l ++ l')[k]? = some b := by
  rwa [List.getElem?_append_left (List.getElem?_eq_some_iff.mp h).1]

namespace InSlots

theorem nil : InSlots n w R [] := fun _ _ h => by simp at h

theorem mono {v : ℕ} (h : InSlots n w R l) (hv : v ≤ w) : InSlots n v R l :=
  fun k a hk hle => h k a hk (by omega)

/-- Changes that leave all slots but that of the next element. -/
theorem write (h : InSlots n w R l) (hw : w < n)
    (hkeep : ∀ j < n, j ≠ l.length % n → ∀ a, R j a → R' j a) : InSlots n w R' l := by
  intro k a hk hle
  have hlt : k < l.length := (List.getElem?_eq_some_iff.mp hk).1
  refine hkeep _ (Nat.mod_lt _ (by omega)) (fun heq => ?_) a (h k a hk hle)
  -- two numbers less than `n` apart are not congruent
  have hdvd : n ∣ l.length - k := (Nat.modEq_iff_dvd' hlt.le).mp heq
  have := Nat.le_of_dvd (by omega) hdvd
  omega

/-- The next element, in its slot. -/
theorem append (h : InSlots n w R l) (ha : R (l.length % n) a) :
    InSlots n (w + 1) R (l ++ [a]) := by
  intro k b hk hle
  rw [List.length_append, List.length_singleton] at hle
  rcases getElem?_snoc hk with hk | ⟨rfl, rfl⟩
  · exact h k b hk (by omega)
  · exact ha

end InSlots

end Foundation
