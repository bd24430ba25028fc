import Mathlib

/-!
# Weakest preconditions for stateful computations that may stop

A computation is an `EStateM ε σ α`: from a state it returns a value and a new state, or it stops
with an error, keeping the state it had reached.  `wp x Q E s` says that running `x` from `s` ends
either in a return that satisfies `Q` or in a stop that satisfies `E`.  There is one rule for each
construct (`wp_pure`, `wp_bind`, `wp_get`, …), the rule of consequence `wp.mono`, and invariant
rules for the iteration over a list, `wp_forM` and `wp_foldlM`.

`Within R x` says that `x` moves the state along the relation `R`, however it ends; for the relation
`Same f` it says that `x` never changes the part `f` of the state, and for `Preserves I` that `I` is
an invariant of `x`.  The class `IsWithin` derives it from the structure of `x`.
-/

namespace Foundation

variable {ε σ α β γ ι : Type}

/-- The weakest precondition of `x` for the postcondition `Q` and the condition `E` on stops. -/
def wp (x : EStateM ε σ α) (Q : α → σ → Prop) (E : ε → σ → Prop) (s : σ) : Prop :=
  match x s with
  | .ok a s' => Q a s'
  | .error e s' => E e s'

section Rules

variable {x : EStateM ε σ α} {f : α → EStateM ε σ β} {Q Q' : α → σ → Prop} {R : β → σ → Prop}
  {E E' : ε → σ → Prop} {s : σ}

@[simp] theorem wp_pure {a : α} : wp (pure a : EStateM ε σ α) Q E s ↔ Q a s := Iff.rfl

/-- A sequence, by the middle condition. -/
theorem wp_bind :
    wp (x >>= f) R E s ↔ wp x (fun a s' => wp (f a) R E s') E s := by
  simp only [wp, bind, EStateM.bind]
  cases x s <;> rfl

@[simp] theorem wp_get {P : σ → σ → Prop} {F : ε → σ → Prop} :
    wp (get : EStateM ε σ σ) P F s ↔ P s s := Iff.rfl

@[simp] theorem wp_set {t : σ} {P : PUnit → σ → Prop} :
    wp (set t : EStateM ε σ PUnit) P E s ↔ P ⟨⟩ t := Iff.rfl

@[simp] theorem wp_modify {g : σ → σ} {P : PUnit → σ → Prop} :
    wp (modify g : EStateM ε σ PUnit) P E s ↔ P ⟨⟩ (g s) := Iff.rfl

@[simp] theorem wp_throw {e : ε} : wp (throw e : EStateM ε σ α) Q E s ↔ E e s := Iff.rfl

/-- A branch. -/
theorem wp_ite {c : Prop} [Decidable c] {y : EStateM ε σ α} :
    wp (if c then x else y) Q E s ↔ (c → wp x Q E s) ∧ (¬ c → wp y Q E s) := by
  split <;> simp [*]

/-- The rule of consequence. -/
theorem wp.mono (h : wp x Q E s) (hQ : ∀ a s', Q a s' → Q' a s')
    (hE : ∀ e s', E e s' → E' e s') : wp x Q' E' s := by
  unfold wp at *
  cases hx : x s with
  | ok a s' => rw [hx] at h; exact hQ a s' h
  | error e s' => rw [hx] at h; exact hE e s' h

/-- Sequencing with a known specification of the first part. -/
theorem wp.bind (h : wp x Q E s) (hQ : ∀ a s', Q a s' → wp (f a) R E s') : wp (x >>= f) R E s :=
  wp_bind.mpr (h.mono hQ fun _ _ he => he)

/-- Two specifications of one run hold together. -/
theorem wp.and (h : wp x Q E s) (h' : wp x Q' E' s) :
    wp x (fun a s' => Q a s' ∧ Q' a s') (fun e s' => E e s' ∧ E' e s') s := by
  unfold wp at *
  cases hx : x s with
  | ok a s' => rw [hx] at h h'; exact ⟨h, h'⟩
  | error e s' => rw [hx] at h h'; exact ⟨h, h'⟩

/-- What a specification says of a run that returns. -/
theorem wp.ok {a : α} {s' : σ} (h : wp x Q E s) (hx : x s = .ok a s') : Q a s' := by
  unfold wp at h
  rwa [hx] at h

/-- What a specification says of a run that stops. -/
theorem wp.error {e : ε} {s' : σ} (h : wp x Q E s) (hx : x s = .error e s') : E e s' := by
  unfold wp at h
  rwa [hx] at h

/-- A program that cannot stop returns. -/
theorem wp.exists_ok (h : wp x Q E s) (hE : ∀ e s', ¬ E e s') :
    ∃ a s', x s = .ok a s' ∧ Q a s' := by
  cases hx : x s with
  | ok a s' => exact ⟨a, s', rfl, h.ok hx⟩
  | error e s' => exact absurd (h.error hx) (hE e s')

/-- If stops do not matter, only the returns have to be looked at. -/
theorem wp.of_returns (h : ∀ a s', Q a s') : wp x Q (fun _ _ => True) s := by
  unfold wp
  cases x s with
  | ok a s' => exact h a s'
  | error e s' => trivial

/-- Iterating over a list keeps an invariant that may depend on the rest of the list. -/
theorem wp_forM {l : List ι} {g : ι → EStateM ε σ PUnit} {I : List ι → σ → Prop}
    (hstep : ∀ i is s, (∃ pre, l = pre ++ i :: is) → I (i :: is) s →
      wp (g i) (fun _ s' => I is s') E s)
    (hs : I l s) : wp (l.forM g) (fun _ s' => I [] s') E s := by
  have key : ∀ (is : List ι), (∃ pre, l = pre ++ is) → ∀ s, I is s →
      wp (is.forM g) (fun _ s' => I [] s') E s := by
    intro is
    induction is with
    | nil => exact fun _ s h => h
    | cons i is ih =>
      rintro ⟨pre, hpre⟩ s h
      change wp (g i >>= fun _ => is.forM g) _ E s
      refine (hstep i is s ⟨pre, hpre⟩ h).bind fun _ s' h' => ih ⟨pre ++ [i], ?_⟩ s' h'
      rw [hpre, List.append_assoc, List.singleton_append]
  exact key l ⟨[], rfl⟩ s hs

/-- The same for a loop that carries a value. -/
theorem wp_foldlM {l : List ι} {g : α → ι → EStateM ε σ α} {I : List ι → α → σ → Prop} {a : α}
    (hstep : ∀ i is a s, (∃ pre, l = pre ++ i :: is) → I (i :: is) a s →
      wp (g a i) (fun b s' => I is b s') E s)
    (hs : I l a s) : wp (l.foldlM g a) (fun b s' => I [] b s') E s := by
  have key : ∀ (is : List ι), (∃ pre, l = pre ++ is) → ∀ a s, I is a s →
      wp (is.foldlM g a) (fun b s' => I [] b s') E s := by
    intro is
    induction is with
    | nil => exact fun _ a s h => h
    | cons i is ih =>
      rintro ⟨pre, hpre⟩ a s h
      rw [List.foldlM_cons]
      refine (hstep i is a s ⟨pre, hpre⟩ h).bind fun b s' h' => ih ⟨pre ++ [i], ?_⟩ b s' h'
      rw [hpre, List.append_assoc, List.singleton_append]
  exact key l ⟨[], rfl⟩ a s hs

/-- Iterating over a list keeps what every iteration keeps. -/
theorem wp_forM_const {l : List ι} {g : ι → EStateM ε σ PUnit} {I : σ → Prop}
    (hstep : ∀ i ∈ l, ∀ s, I s → wp (g i) (fun _ s' => I s') E s) (hs : I s) :
    wp (l.forM g) (fun _ s' => I s') E s :=
  wp_forM (I := fun _ => I) (fun i _ s ⟨pre, hpre⟩ h =>
    hstep i (hpre ▸ List.mem_append_right pre List.mem_cons_self) s h) hs

end Rules

/-! ### Steps that a computation stays within -/

/-- However `x` ends, it has moved the state along the relation `R`. -/
def Within (R : σ → σ → Prop) (x : EStateM ε σ α) : Prop :=
  ∀ s, wp x (fun _ s' => R s s') (fun _ s' => R s s') s

namespace Within

variable {R R' : σ → σ → Prop} {x y : EStateM ε σ α} {g : α → EStateM ε σ β}

/-- A weaker relation. -/
theorem mono (hx : Within R x) (h : ∀ s s', R s s' → R' s s') : Within R' x := fun s =>
  (hx s).mono (fun _ s' => h s s') fun _ s' => h s s'

theorem modify {h : σ → σ} (hR : ∀ s, R s (h s)) : Within R (modify h : EStateM ε σ PUnit) := hR

theorem ite {c : Prop} [Decidable c] (hx : Within R x) (hy : Within R y) :
    Within R (if c then x else y) := by
  split
  · exact hx
  · exact hy

/-- A sequence stays within a transitive relation. -/
theorem bind [IsTrans σ R] (hx : Within R x) (hg : ∀ a, Within R (g a)) :
    Within R (x >>= g) := fun s =>
  wp_bind.mpr ((hx s).mono
    (fun a s' h => (hg a s').mono (fun _ _ h' => trans_of R h h') fun _ _ h' => trans_of R h h')
    fun _ _ h => h)

variable [Std.Refl R]

theorem pure (a : α) : Within R (pure a : EStateM ε σ α) := fun s => refl_of R s

theorem throw (e : ε) : Within R (throw e : EStateM ε σ α) := fun s => refl_of R s

theorem get : Within R (get : EStateM ε σ σ) := fun s => refl_of R s

variable [IsTrans σ R]

/-- A loop. -/
theorem forM {l : List ι} {k : ι → EStateM ε σ PUnit} (hk : ∀ i, Within R (k i)) :
    Within R (l.forM k) := by
  induction l with
  | nil => exact pure _
  | cons i l ih => exact bind (hk i) fun _ => ih

/-- A loop with an accumulator. -/
theorem foldlM {l : List ι} {k : α → ι → EStateM ε σ α} (hk : ∀ a i, Within R (k a i)) (a : α) :
    Within R (l.foldlM k a) := by
  induction l generalizing a with
  | nil => exact pure _
  | cons i l ih =>
    rw [List.foldlM_cons]
    exact bind (hk a i) fun b => ih b

end Within

/-- The computations that are known to stay within `R`; the instances follow the structure of a
program. -/
class IsWithin (R : σ → σ → Prop) (x : EStateM ε σ α) : Prop where
  within : Within R x

namespace IsWithin

variable {R : σ → σ → Prop} {x y : EStateM ε σ α} {f : α → EStateM ε σ β}

instance {c : Prop} [Decidable c] [IsWithin R x] [IsWithin R y] :
    IsWithin R (if c then x else y) := ⟨within.ite within⟩

instance [IsTrans σ R] [IsWithin R x] [∀ a, IsWithin R (f a)] : IsWithin R (x >>= f) :=
  ⟨within.bind fun _ => within⟩

variable [Std.Refl R]

instance (a : α) : IsWithin R (pure a : EStateM ε σ α) := ⟨Within.pure a⟩

instance (e : ε) : IsWithin R (throw e : EStateM ε σ α) := ⟨Within.throw e⟩

instance : IsWithin R (get : EStateM ε σ σ) := ⟨Within.get⟩

variable [IsTrans σ R]

instance {l : List ι} {g : ι → EStateM ε σ PUnit} [∀ i, IsWithin R (g i)] :
    IsWithin R (l.forM g) := ⟨Within.forM fun _ => within⟩

instance {l : List ι} {g : α → ι → EStateM ε σ α} [∀ a i, IsWithin R (g a i)] (a : α) :
    IsWithin R (l.foldlM g a) := ⟨Within.foldlM (fun _ _ => within) a⟩

end IsWithin

/-- The part `f` of the state stays as it is. -/
def Same (f : σ → γ) (s s' : σ) : Prop := f s' = f s

instance (f : σ → γ) : Std.Refl (Same f) := ⟨fun _ => rfl⟩

instance (f : σ → γ) : IsTrans σ (Same f) := ⟨fun _ _ _ h h' => Eq.trans h' h⟩

/-- A computation that keeps `f`, in front of one that is specified from every state with that
`f`. -/
theorem wp.of_same {f : σ → γ} {x : EStateM ε σ α} [hx : IsWithin (Same f) x] {Q : α → σ → Prop}
    {E : ε → σ → Prop} {s : σ} (hQ : ∀ a s', f s' = f s → Q a s')
    (hE : ∀ e s', f s' = f s → E e s') : wp x Q E s :=
  (hx.within s).mono (fun a s' h => hQ a s' h) fun e s' h => hE e s' h

/-- The condition `I` is kept. -/
def Preserves (I : σ → Prop) (s s' : σ) : Prop := I s → I s'

instance (I : σ → Prop) : Std.Refl (Preserves I) := ⟨fun _ h => h⟩

instance (I : σ → Prop) : IsTrans σ (Preserves I) := ⟨fun _ _ _ h h' x => h' (h x)⟩

end Foundation
