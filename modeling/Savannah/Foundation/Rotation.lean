import Savannah.Foundation.Cyclic

/-!
# Taking turns in a list that grows

A `Rotation` is a list with a position in it.  A turn moves the position to the next item, from the
last one back to the first; items can be appended at any time.

Between two turns of an item every other item that was in the list has exactly one turn
(`Rotation.count_selected`), however many items are appended meanwhile.  The proof counts the turns
of the item at `j` on the way from the position `k` to the target `k₀`: there is one if `j` lies
between them in the cyclic order, which does not depend on the length of the list (`Between`).
-/

namespace Foundation

variable {α : Type}

/-- A list and a position in it. -/
structure Rotation (α : Type) where
  items : List α
  pos : ℕ
  pos_lt : pos < items.length

inductive Move (α : Type) where
  | append (a : α)
  | turn
  deriving DecidableEq, Repr

namespace Rotation

/-- The item whose turn it is. -/
def current (r : Rotation α) : α := r.items.get ⟨r.pos, r.pos_lt⟩

/-- A new item at the end. -/
def append (r : Rotation α) (a : α) : Rotation α where
  items := r.items ++ [a]
  pos := r.pos
  pos_lt := by
    rw [List.length_append]
    exact Nat.lt_add_right _ r.pos_lt

/-- The turn of the next item. -/
def turn (r : Rotation α) : Rotation α where
  items := r.items
  pos := next r.items.length r.pos
  pos_lt := next_lt (Nat.zero_lt_of_lt r.pos_lt)

def apply (r : Rotation α) : Move α → Rotation α
  | .append a => r.append a
  | .turn => r.turn

/-- The items that have a turn in a sequence of moves. -/
def selected (r : Rotation α) : List (Move α) → List α
  | [] => []
  | .append a :: ms => (r.append a).selected ms
  | .turn :: ms => r.turn.current :: r.turn.selected ms

section Basic

variable {r : Rotation α} {a : α}

theorem getElem?_pos (r : Rotation α) : r.items[r.pos]? = some r.current :=
  List.getElem?_eq_getElem r.pos_lt

/-- The current item is an item. -/
theorem current_mem (r : Rotation α) : r.current ∈ r.items := List.get_mem _ _

@[simp] theorem current_append : (r.append a).current = r.current := by
  have h := (r.append a).getElem?_pos
  rw [show (r.append a).items[(r.append a).pos]? = some r.current from
    (List.getElem?_append_left r.pos_lt).trans r.getElem?_pos] at h
  exact (Option.some.inj h).symm

/-- Moves only append to the list. -/
theorem isPrefix_foldl (ms : List (Move α)) :
    ∀ r : Rotation α, r.items <+: (ms.foldl apply r).items := by
  induction ms with
  | nil => exact fun r => List.prefix_rfl
  | cons m ms ih =>
    intro r
    refine List.IsPrefix.trans ?_ (ih (r.apply m))
    cases m with
    | append a => exact List.prefix_append _ _
    | turn => exact List.prefix_rfl

end Basic

/-- On the way round from `k` to `k₀`, the position `j` is passed. -/
def Between (k j k₀ : ℕ) : Prop := (k < j ∧ j < k₀) ∨ (k₀ ≤ k ∧ (k < j ∨ j < k₀))

instance (k j k₀ : ℕ) : Decidable (Between k j k₀) := inferInstanceAs (Decidable (_ ∨ _))

/-- The positions that are passed from `k` on are the next one and those that are passed from
there. -/
theorem between_next {n k j k₀ : ℕ} (hk : k < n) (hj : j < n) (hk₀ : k₀ < n) (hne : next n k ≠ k₀) :
    Between k j k₀ ↔ j = next n k ∨ Between (next n k) j k₀ := by
  unfold Between
  unfold next at *
  split_ifs at * <;> omega

/-- Nothing is between a position and itself. -/
theorem not_between_self {k k₀ : ℕ} : ¬ Between k k k₀ := by
  unfold Between
  omega

/-- Nothing is passed from the position before the target. -/
theorem not_between_of_next {n k j k₀ : ℕ} (hk : k < n) (hj : j < n) (hne : next n k = k₀) :
    ¬ Between k j k₀ := by
  unfold Between
  unfold next at hne
  split_ifs at hne <;> omega

/-- Two items at known positions of a list without duplicates. -/
theorem eq_iff_of_nodup {a v : α} {l : List α} (h : l.Nodup) {i j : ℕ} (hi : l[i]? = some a)
    (hj : l[j]? = some v) : a = v ↔ i = j := by
  constructor
  · rintro rfl
    obtain ⟨hlt, -⟩ := List.getElem?_eq_some_iff.mp hi
    exact (List.getElem?_inj hlt h).mp (hi.trans hj.symm)
  · rintro rfl
    exact Option.some.inj (hi.symm.trans hj)

section Count

variable [DecidableEq α] {a v : α}

/-- The number of turns of the item `a` at `j` until the turn before that of the item `v` at
`k₀`. -/
theorem count_selected_of_getElem? {j k₀ : ℕ} (ms : List (Move α)) :
    ∀ r : Rotation α, (ms.foldl apply r).items.Nodup → r.items[j]? = some a →
    r.items[k₀]? = some v → v ∉ r.selected ms → (ms.foldl apply r).turn.current = v →
      (r.selected ms).count a = if Between r.pos j k₀ then 1 else 0 := by
  induction ms with
  | nil =>
    intro r hnodup hj hk₀ _ hback
    have hnext := (eq_iff_of_nodup hnodup r.turn.getElem?_pos hk₀).mp hback
    obtain ⟨hjlt, -⟩ := List.getElem?_eq_some_iff.mp hj
    rw [if_neg (not_between_of_next r.pos_lt hjlt hnext)]
    rfl
  | cons m ms ih =>
    intro r hnodup hj hk₀ hnot hback
    obtain ⟨hjlt, -⟩ := List.getElem?_eq_some_iff.mp hj
    obtain ⟨hklt, -⟩ := List.getElem?_eq_some_iff.mp hk₀
    cases m with
    | append b =>
      exact ih (r.append b) hnodup ((List.getElem?_append_left hjlt).trans hj)
        ((List.getElem?_append_left hklt).trans hk₀) hnot hback
    | turn =>
      have hv : v ≠ r.turn.current := List.ne_of_not_mem_cons hnot
      have hnot : v ∉ r.turn.selected ms := List.not_mem_of_not_mem_cons hnot
      have hnodup' : r.items.Nodup := hnodup.sublist (isPrefix_foldl _ r).sublist
      have hnext : next r.items.length r.pos ≠ k₀ := by
        intro heq
        exact hv ((eq_iff_of_nodup hnodup' r.turn.getElem?_pos hk₀).mpr heq).symm
      have hself := eq_iff_of_nodup hnodup' r.turn.getElem?_pos hj
      have hsplit := between_next r.pos_lt hjlt hklt hnext
      have hrest : (r.turn.selected ms).count a =
          if Between (next r.items.length r.pos) j k₀ then 1 else 0 :=
        ih r.turn hnodup hj hk₀ hnot hback
      rw [selected, List.count_cons, hrest]
      by_cases heq : r.turn.current = a
      · have hj : next r.items.length r.pos = j := hself.mp heq
        subst hj
        rw [if_neg not_between_self, if_pos (beq_iff_eq.mpr heq), if_pos (hsplit.mpr (.inl rfl))]
      · have hj : j ≠ next r.items.length r.pos := fun h => heq (hself.mpr h.symm)
        rw [beq_false_of_ne heq, if_neg Bool.false_ne_true, Nat.add_zero]
        exact if_congr (hsplit.trans (or_iff_right hj)).symm rfl rfl

/-- Until an item has its next turn, every other item of the list has one turn. -/
theorem count_selected {r : Rotation α} {ms : List (Move α)}
    (hnodup : (ms.foldl apply r).items.Nodup)
    (hnot : r.current ∉ r.selected ms) (hback : (ms.foldl apply r).turn.current = r.current)
    (ha : a ∈ r.items) (hne : a ≠ r.current) : (r.selected ms).count a = 1 := by
  obtain ⟨j, hjlt, hj⟩ := List.mem_iff_getElem.mp ha
  have hj' : r.items[j]? = some a := List.getElem?_eq_some_iff.mpr ⟨hjlt, hj⟩
  rw [count_selected_of_getElem? ms r hnodup hj' r.getElem?_pos hnot hback]
  refine if_pos (Or.inr ⟨le_rfl, ?_⟩)
  refine lt_or_gt_of_ne ?_
  rintro rfl
  exact hne (Option.some.inj (hj'.symm.trans r.getElem?_pos))

end Count

end Rotation

end Foundation
