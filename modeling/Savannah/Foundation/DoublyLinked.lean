import Mathlib

/-!
# Doubly linked lists

`Links next pre p L q` says that the nodes of `L` are linked both ways by the pointer fields `next`
and `pre`, entered from `p` and left to `q` (`none` is the null pointer).  The two edits of such a
list are `Links.insertAfter` and `Links.removeAfter`; each is stated for arbitrary new pointer
fields that agree with the old ones away from the edit, so that it applies to any order of field
assignments that performs it.
-/

namespace Foundation

variable {ι : Type*} {next pre next' pre' : ι → Option ι} {p q : Option ι} {i j : ι}
  {L A C : List ι}

/-- The nodes of `L` form a doubly linked segment entered from `p` and left to `q`. -/
def Links (next pre : ι → Option ι) : Option ι → List ι → Option ι → Prop
  | _, [], _ => True
  | p, i :: L, q => pre i = p ∧ next i = L.head?.or q ∧ Links next pre (some i) L q

@[simp] theorem links_nil : Links next pre p [] q := trivial

@[simp] theorem links_cons :
    Links next pre p (i :: L) q ↔
      pre i = p ∧ next i = L.head?.or q ∧ Links next pre (some i) L q := Iff.rfl

/-- A concatenation is linked iff both halves are, each leading to the other. -/
theorem links_append :
    Links next pre p (A ++ C) q ↔
      Links next pre p A (C.head?.or q) ∧ Links next pre (A.getLast?.or p) C q := by
  induction A generalizing p with
  | nil => simp
  | cons i A ih =>
    have hlast : ((i :: A).getLast?).or p = A.getLast?.or (some i) := by
      rw [List.getLast?_cons]
      cases A.getLast? <;> rfl
    rw [List.cons_append, links_cons, links_cons, ih, hlast, List.head?_append, Option.or_assoc]
    simp only [and_assoc]

/-- The links of a segment only read the pointer fields of its own nodes. -/
theorem Links.congr (h : ∀ k ∈ L, next' k = next k ∧ pre' k = pre k)
    (hL : Links next pre p L q) : Links next' pre' p L q := by
  induction L generalizing p with
  | nil => trivial
  | cons i L ih =>
    obtain ⟨h₁, h₂, h₃⟩ := hL
    obtain ⟨hn, hp⟩ := h i List.mem_cons_self
    exact ⟨hp.trans h₁, hn.trans h₂, ih (fun k hk => h k (List.mem_cons_of_mem _ hk)) h₃⟩

/-- The successor of a node is the first node behind it. -/
theorem Links.next_eq (h : Links next pre none (A ++ i :: C) none) : next i = C.head? := by
  have hi := (links_append.mp h).2.2.1
  rwa [Option.or_none] at hi

/-- The predecessor of a node is the last node before it. -/
theorem Links.pre_eq (h : Links next pre none (A ++ i :: C) none) : pre i = A.getLast? := by
  have hi := (links_append.mp h).2.1
  rwa [Option.or_none] at hi

/-- Following `next` from a node leads to the next position of the list. -/
theorem Links.next_getElem? {k : ℕ} (h : Links next pre p L none) (hk : L[k]? = some i) :
    next i = L[k + 1]? := by
  induction L generalizing p k with
  | nil => simp at hk
  | cons j L ih =>
    obtain ⟨-, hn, hL⟩ := h
    cases k with
    | zero =>
      obtain rfl : j = i := by simpa using hk
      rw [hn, Option.or_none, List.head?_eq_getElem?]
      rfl
    | succ k => exact ih hL hk

/-- Following `pre` from a node leads to the previous position of the list. -/
theorem Links.pre_getElem? {k : ℕ} (h : Links next pre p L q) (hk : L[k + 1]? = some i) :
    pre i = L[k]? := by
  induction L generalizing p k with
  | nil => simp at hk
  | cons j L ih =>
    obtain ⟨-, -, hL⟩ := h
    cases k with
    | zero =>
      cases L with
      | nil => simp at hk
      | cons l L =>
        obtain rfl : l = i := by simpa using hk
        exact hL.1
    | succ k => exact ih hL hk

/-- Re-entering a segment from another node changes the backward link of its first node only. -/
theorem Links.reenter (h : Links next pre p C q)
    (hhead : ∀ k, C.head? = some k → pre' k = some i ∧ next' k = next k)
    (htail : ∀ k ∈ C.tail, next' k = next k ∧ pre' k = pre k) :
    Links next' pre' (some i) C q := by
  cases C with
  | nil => trivial
  | cons k C =>
    obtain ⟨hp, hn⟩ := hhead k rfl
    exact ⟨hp, hn.trans h.2.1, h.2.2.congr htail⟩

/-- Linking the node `j` in behind the node `i`. -/
theorem Links.insertAfter (h : Links next pre none (A ++ i :: C) none)
    (hi : next' i = some j ∧ pre' i = pre i) (hj : next' j = next i ∧ pre' j = some i)
    (hhead : ∀ k, C.head? = some k → pre' k = some j ∧ next' k = next k)
    (htail : ∀ k ∈ C.tail, next' k = next k ∧ pre' k = pre k)
    (hA : ∀ k ∈ A, next' k = next k ∧ pre' k = pre k) :
    Links next' pre' none (A ++ i :: j :: C) none := by
  obtain ⟨h₁, h₂, h₃, h₄⟩ := links_append.mp h
  refine links_append.mpr ⟨h₁.congr hA, hi.2.trans h₂, by simpa using hi.1, hj.2, ?_, ?_⟩
  · rw [hj.1, h₃]
  · exact h₄.reenter hhead htail

/-- Unlinking the node `j` behind the node `i`. -/
theorem Links.removeAfter (h : Links next pre none (A ++ i :: j :: C) none)
    (hi : next' i = next j ∧ pre' i = pre i)
    (hhead : ∀ k, C.head? = some k → pre' k = some i ∧ next' k = next k)
    (htail : ∀ k ∈ C.tail, next' k = next k ∧ pre' k = pre k)
    (hA : ∀ k ∈ A, next' k = next k ∧ pre' k = pre k) :
    Links next' pre' none (A ++ i :: C) none := by
  obtain ⟨h₁, h₂, -, -, h₅, h₆⟩ := links_append.mp h
  refine links_append.mpr ⟨h₁.congr hA, hi.2.trans h₂, ?_, ?_⟩
  · rw [hi.1, h₅]
  · exact h₆.reenter hhead htail

end Foundation
