import Mathlib

/-!
# Runs of labelled transition relations

A system is a relation `R : σ → ι → σ → Prop` between the state before a step, the label of the
step and the state after it.  `Run R s cs t` says that performing the labels `cs` in order leads
from `s` to `t`.  A guard on the steps is part of the relation, so that "every run whose steps all
meet a condition" is again a run, of the guarded relation `R.guarded`.
-/

namespace Foundation

variable {σ ι : Type*}

/-- `Run R s cs t`: the labels `cs`, taken in order, lead from `s` to `t`. -/
inductive Run (R : σ → ι → σ → Prop) : σ → List ι → σ → Prop
  | nil (s : σ) : Run R s [] s
  | cons {s t u : σ} {c : ι} {cs : List ι} (hstep : R s c t) (hrest : Run R t cs u) :
      Run R s (c :: cs) u

/-- The steps of `R` that meet the condition `G` on the state before the step and its label. -/
def guarded (R : σ → ι → σ → Prop) (G : σ → ι → Prop) : σ → ι → σ → Prop :=
  fun s c t => G s c ∧ R s c t

namespace Run

variable {R S : σ → ι → σ → Prop} {s t u : σ} {c : ι} {cs ds : List ι}

/-- A predicate that every step preserves holds at the end of a run if it holds at its start. -/
theorem invariant {I : σ → Prop} (hstep : ∀ s c t, R s c t → I s → I t)
    (hrun : Run R s cs t) (hs : I s) : I t := by
  induction hrun with
  | nil s => exact hs
  | cons h _ ih => exact ih (hstep _ _ _ h hs)

/-- Enlarging the step relation keeps the runs. -/
theorem mono (hRS : ∀ s c t, R s c t → S s c t) (hrun : Run R s cs t) : Run S s cs t := by
  induction hrun with
  | nil s => exact .nil s
  | cons h _ ih => exact .cons (hRS _ _ _ h) ih

/-- The image of a run under an abstraction of the states. -/
theorem map {τ : Type*} {T : τ → ι → τ → Prop} {f : σ → τ}
    (hRT : ∀ s c t, R s c t → T (f s) c (f t)) (hrun : Run R s cs t) : Run T (f s) cs (f t) := by
  induction hrun with
  | nil s => exact .nil (f s)
  | cons h _ ih => exact .cons (hRT _ _ _ h) ih

/-- A condition on the labels of a run may be added to its steps. -/
theorem with_labels {G : ι → Prop} (hrun : Run R s cs t) (hG : ∀ c ∈ cs, G c) :
    Run (fun s c t => R s c t ∧ G c) s cs t := by
  induction hrun with
  | nil s => exact .nil s
  | cons h _ ih =>
    exact .cons ⟨h, hG _ List.mem_cons_self⟩ (ih fun c hc => hG c (List.mem_cons_of_mem _ hc))

/-- Two runs compose. -/
theorem append (h₁ : Run R s cs t) (h₂ : Run R t ds u) : Run R s (cs ++ ds) u := by
  induction h₁ with
  | nil s => exact h₂
  | cons h _ ih => exact .cons h (ih h₂)

/-- One more step at the end of a run. -/
theorem snoc (h : Run R s cs t) (hstep : R t c u) : Run R s (cs ++ [c]) u :=
  h.append (.cons hstep (.nil u))

/-- A run over a concatenation passes through a state between its two halves. -/
theorem split (h : Run R s (cs ++ ds) u) : ∃ t, Run R s cs t ∧ Run R t ds u := by
  induction cs generalizing s with
  | nil => exact ⟨s, .nil s, h⟩
  | cons c cs ih =>
    cases h with
    | cons hstep hrest =>
      obtain ⟨t, h₁, h₂⟩ := ih hrest
      exact ⟨t, .cons hstep h₁, h₂⟩

/-- A predicate on the labels performed so far and the state, which every step at the end of a run
extends. -/
theorem history {I : List ι → σ → Prop} (hnil : I [] s)
    (hstep : ∀ ds u c w, Run R s ds u → R u c w → I ds u → I (ds ++ [c]) w)
    (hrun : Run R s cs t) : I cs t := by
  induction cs using List.reverseRecOn generalizing t with
  | nil =>
    cases hrun
    exact hnil
  | append_singleton ds c ih =>
    obtain ⟨u, hinit, hlast⟩ := hrun.split
    cases hlast with
    | cons hc hrest =>
      cases hrest
      exact hstep ds u c _ hinit hc (ih hinit)

/-- The run of a step function. -/
theorem of_foldlM {f : σ → ι → Option σ} (h : cs.foldlM f s = some t) :
    Run (fun s c t => f s c = some t) s cs t := by
  induction cs generalizing s with
  | nil => exact Option.some.inj h ▸ .nil s
  | cons c cs ih =>
    rw [List.foldlM_cons] at h
    obtain ⟨u, hstep, hrest⟩ := Option.bind_eq_some_iff.mp h
    exact .cons hstep (ih hrest)

/-- The run of a step function whose steps meet a condition. -/
theorem of_foldlM_guarded {f : σ → ι → Option σ} {G : σ → ι → Prop} [∀ s c, Decidable (G s c)]
    (h : cs.foldlM (fun s c => if G s c then f s c else none) s = some t) :
    Run (guarded (fun s c t => f s c = some t) G) s cs t :=
  (of_foldlM h).mono fun _ _ _ hstep => by simpa [guarded] using hstep

end Run

/-! ### Counting along a run -/

/-- The number of the steps of a run of the step function `f` that satisfy `P`. -/
def tally (f : σ → ι → Option σ) (P : σ → ι → Bool) : σ → List ι → ℕ
  | _, [] => 0
  | s, c :: cs => (P s c).toNat + match f s c with
    | some t => tally f P t cs
    | none => 0

/-- A measure that grows by one with each of the steps that are counted. -/
theorem tally_eq {f : σ → ι → Option σ} {P : σ → ι → Bool} {I : σ → Prop} {m : σ → ℕ} {s t : σ}
    {cs : List ι}
    (hstep : ∀ s c t, f s c = some t → I s → I t ∧ m t = m s + (P s c).toNat)
    (hrun : Run (fun s c t => f s c = some t) s cs t) (hs : I s) :
    m t = m s + tally f P s cs := by
  induction hrun with
  | nil s => rfl
  | cons hc _ ih =>
    obtain ⟨hI, hm⟩ := hstep _ _ _ hc hs
    simp only [tally, hc]
    rw [ih hI, hm, Nat.add_assoc]

end Foundation
