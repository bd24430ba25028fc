import Savannah.Foundation.ZeroTerminated
import Savannah.Pm.Frame

/-!
# The channels of the drivers

A driver has an array `vm_channels` of `MAX_CHANNELS` addresses, which ends at the first zero.
`add_channel_list` appends an address if the array has a free entry, and otherwise does nothing;
`remove_channel_list` looks for an address in the arrays of all CPUs and moves the later entries one
place down.  The loop that moves them stops one entry too early for an array that is full, and
writes a zero behind it, so that the entries behave like a list only while the array is not full.
-/

namespace Savannah

open Foundation PmState

/-! ### Assignments to the arrays -/

/-- From `s` to `s'`, entries of arrays were assigned for which `P` holds (array, index), and
nothing else has changed. -/
def ArraySteps (P : ℕ → ℕ → Prop) (s s' : PmState) : Prop :=
  ∃ w l, s' = { s with words := w, arrayWrites := s.arrayWrites ++ l } ∧
    (∀ t i, ¬ P t i → w t i = s.words t i) ∧ ∀ x ∈ l, P x.1 x.2

namespace ArraySteps

variable {P Q : ℕ → ℕ → Prop} {s s' t : PmState}

theorem refl (P : ℕ → ℕ → Prop) (s : PmState) : ArraySteps P s s :=
  ⟨s.words, [], by rw [List.append_nil], fun _ _ _ => rfl, fun _ h => absurd h List.not_mem_nil⟩

/-- Two runs. -/
theorem trans (h : ArraySteps P s s') (h' : ArraySteps P s' t) : ArraySteps P s t := by
  obtain ⟨w, l, rfl, hw, hl⟩ := h
  obtain ⟨w', l', rfl, hw', hl'⟩ := h'
  refine ⟨w', l ++ l', by rw [← List.append_assoc], fun t i hP => ?_, fun x hx => ?_⟩
  · exact (hw' t i hP).trans (hw t i hP)
  · rcases List.mem_append.mp hx with hx | hx
    · exact hl x hx
    · exact hl' x hx

theorem mono (h : ArraySteps P s s') (hPQ : ∀ t i, P t i → Q t i) : ArraySteps Q s s' := by
  obtain ⟨w, l, rfl, hw, hl⟩ := h
  exact ⟨w, l, rfl, fun t i hQ => hw t i fun hP => hQ (hPQ t i hP), fun x hx => hPQ _ _ (hl x hx)⟩

/-- The other words stay. -/
theorem words (h : ArraySteps P s s') {t i : ℕ} (hP : ¬ P t i) : s'.words t i = s.words t i := by
  obtain ⟨w, l, rfl, hw, -⟩ := h
  exact hw t i hP

/-- The pages without such entries. -/
theorem page (h : ArraySteps P s s') {t : ℕ} (hP : ∀ i, ¬ P t i) : s'.words t = s.words t :=
  funext fun i => h.words (hP i)

theorem cpus (h : ArraySteps P s s') : s'.cpus = s.cpus := by
  obtain ⟨w, l, rfl, -, -⟩ := h
  rfl

end ArraySteps

section Arrays

variable {s : PmState} {E : PmStop → PmState → Prop} {page channel c n k m : ℕ} {l : List ℕ}

/-- One word is assigned. -/
theorem setChannel_spec {Q : PUnit → PmState → Prop} (e : ℕ)
    (h : ∀ s', ArraySteps (fun t i => t = page ∧ i = k) s s' → s'.words page k = e → Q ⟨⟩ s') :
    wp (setChannel page k e) Q E s := by
  refine h _ ⟨s.words.set page k e, [(page, k)], rfl, fun t i hne => if_neg hne, fun x hx => ?_⟩
    (set_self s.words page k e)
  rw [List.mem_singleton.mp hx]
  exact ⟨rfl, rfl⟩

/-- The loop moves the entries from `k` up to the first zero `m` one place down, if there are enough
iterations. -/
theorem shiftChannels_spec (hk : k ≤ m) (hm : m ≤ k + n)
    (hne : ∀ i, k ≤ i → i < m → s.words page i ≠ 0) (hz : m < k + n → s.words page m = 0) :
    wp (shiftChannels page n k) (fun k' s' => k' = m ∧
      ArraySteps (fun t i => t = page ∧ k ≤ i ∧ i < m) s s' ∧
      ∀ i, k ≤ i → i < m → s'.words page i = s.words page (i + 1)) E s := by
  induction n generalizing k s with
  | zero =>
    obtain rfl : k = m := by omega
    exact ⟨rfl, .refl _ s, fun i hi hlt => absurd hlt (by omega)⟩
  | succ n ih =>
    unfold shiftChannels
    rw [wp_bind, wp_get]
    by_cases hkm : k = m
    · subst hkm
      rw [if_pos (hz (by omega))]
      exact ⟨rfl, .refl _ s, fun i hi hlt => absurd hlt (by omega)⟩
    rw [if_neg (hne k le_rfl (by omega)), wp_bind]
    refine setChannel_spec _ fun s₁ h₁ hnew => ?_
    have hlater : ∀ i, k < i → s₁.words page i = s.words page i :=
      fun i hi => h₁.words fun hP => hi.ne' hP.2
    refine (ih (k := k + 1) (by omega) (by omega) (fun i hi hlt => ?_) (fun hlt => ?_)).mono ?_
      fun _ _ h => h
    · rw [hlater i (by omega)]
      exact hne i (by omega) hlt
    · rw [hlater m (by omega)]
      exact hz (by omega)
    rintro k' s' ⟨rfl, h₂, hmoved⟩
    refine ⟨rfl, (h₁.mono ?_).trans (h₂.mono ?_), fun i hi hlt => ?_⟩
    · rintro t i ⟨rfl, rfl⟩
      exact ⟨rfl, le_rfl, by omega⟩
    · rintro t i ⟨rfl, hi, hlt⟩
      exact ⟨rfl, by omega, hlt⟩
    · by_cases hik : i = k
      · rw [hik, h₂.words fun hP => absurd hP.2.1 (by omega), hnew]
      · rw [hmoved i (by omega) hlt, hlater (i + 1) (by omega)]

/-- An array without the channel is left alone. -/
theorem removeFrom_absent {is : List ℕ} {found : Bool} (habs : ∀ j ∈ is, s.words page j ≠ channel) :
    wp (is.foldlM (fun found j => do
        if (← get).words page j = channel then
          let k ← shiftChannels page (maxChannels - 1 - j) j
          setChannel page (k + 1) 0
          return true
        else
          return found) found) (fun b s' => b = found ∧ s' = s) E s := by
  refine wp_foldlM (I := fun _ b s' => b = found ∧ s' = s) ?_ ⟨rfl, rfl⟩
  rintro j is' b s' ⟨pre, hpre⟩ ⟨rfl, rfl⟩
  rw [wp_bind, wp_get, if_neg (habs j (hpre ▸ List.mem_append_right pre List.mem_cons_self)),
    wp_pure]
  exact ⟨rfl, rfl⟩

/-- Removing the channel at the index `j` moves the channels behind it; but the last entry of the
array is never moved away from. -/
theorem removeAt_moved {j : ℕ} (h : ZeroTerminated maxChannels (s.words page) l)
    (hj : j < l.length) :
    wp (do
        let k ← shiftChannels page (maxChannels - 1 - j) j
        setChannel page (k + 1) 0
        return true : Pm Bool) (fun b s' => b = true ∧
      (∀ i < maxChannels,
        s'.words page i = moved (s.words page) j (min l.length (maxChannels - 1)) i) ∧
      ArraySteps (fun t i => t = page ∧ i < l.length + 2) s s') E s := by
  have hmax := h.length_le
  refine (shiftChannels_spec (m := min l.length (maxChannels - 1)) (by omega) (by omega)
    (fun i hi hlt => h.ne_zero (by omega)) fun hlt => ?_).bind ?_
  · exact (h.eq_zero_iff (by omega)).mpr (by omega)
  rintro k s₁ ⟨rfl, h₁, hmoved⟩
  rw [wp_bind]
  refine setChannel_spec 0 fun s₂ h₂ hlast => ?_
  rw [wp_pure]
  refine ⟨rfl, fun i hi => ?_, (h₁.mono ?_).trans (h₂.mono ?_)⟩
  · by_cases hend : i = min l.length (maxChannels - 1) + 1
    · -- the zero is written where there was one, or behind the array
      rw [moved, if_neg (by omega), hend, hlast]
      exact ((h.eq_zero_iff (hend ▸ hi)).mpr (by omega)).symm
    · rw [h₂.words fun hP => hend hP.2, moved]
      split
      · rename_i hmove
        exact hmoved i hmove.1 hmove.2
      · rename_i hkeep
        exact h₁.words fun hP => hkeep hP.2
  · rintro t i ⟨rfl, -, hlt⟩
    exact ⟨rfl, by omega⟩
  · rintro t i ⟨rfl, rfl⟩
    exact ⟨rfl, by omega⟩

/-- Removing the channel at the index `j` of an array that is not full. -/
theorem removeAt_spec {j : ℕ} (h : ZeroTerminated maxChannels (s.words page) l)
    (hroom : l.length < maxChannels) (hj : j < l.length) :
    wp (do
        let k ← shiftChannels page (maxChannels - 1 - j) j
        setChannel page (k + 1) 0
        return true : Pm Bool) (fun b s' => b = true ∧
      ZeroTerminated maxChannels (s'.words page) (l.eraseIdx j) ∧
      ArraySteps (fun t i => t = page ∧ i < l.length + 2) s s') E s := by
  refine (removeAt_moved h hj).mono ?_ fun _ _ he => he
  rintro b s' ⟨rfl, hmoved, hsteps⟩
  rw [min_eq_left (by omega)] at hmoved
  refine ⟨rfl, h.shift hroom hj (fun i hi => ?_) (fun i hi hlt => ?_) (fun i hle hlt => ?_), hsteps⟩
  · rw [hmoved i (by omega), moved, if_neg (by omega)]
  · rw [hmoved i (by omega), moved, if_pos ⟨hi, hlt⟩]
  · rw [hmoved i hlt, moved, if_neg (by omega), (h.eq_zero_iff hlt).mpr hle]

/-- The loop over one array removes the channel. -/
theorem removeFrom_spec {found : Bool} (h : ZeroTerminated maxChannels (s.words page) l)
    (hnd : l.Nodup) (hne : channel ≠ 0) (hroom : channel ∈ l → l.length < maxChannels) :
    wp (removeFrom page channel found) (fun b s' => b = (found || decide (channel ∈ l)) ∧
      ZeroTerminated maxChannels (s'.words page) (l.erase channel) ∧
      ArraySteps (fun t i => t = page ∧ channel ∈ l ∧ i < l.length + 2) s s') E s := by
  unfold removeFrom
  by_cases hmem : channel ∈ l
  · have hroom := hroom hmem
    have hj : l.idxOf channel < l.length := List.idxOf_lt_length_iff.mpr hmem
    set j := l.idxOf channel with hjdef
    have hat : s.words page j = channel := by
      rw [h.get_of_lt hj]
      exact List.getElem_idxOf hj
    -- the channel is found once, at its index
    obtain ⟨pre, post, hsplit⟩ := List.append_of_mem (List.mem_range.mpr (hj.trans hroom))
    have hrange : (pre ++ j :: post).Nodup := hsplit ▸ List.nodup_range
    have hpre : ∀ i ∈ pre, s.words page i ≠ channel := by
      intro i hi heq
      have hlt : i < maxChannels := List.mem_range.mp (hsplit ▸ List.mem_append_left _ hi)
      have hil : i < l.length := by
        by_contra hle
        exact hne (heq.symm.trans ((h.eq_zero_iff hlt).mpr (not_lt.mp hle)))
      have hij : i = j := by
        rw [hjdef, ← heq, h.get_of_lt hil]
        exact (hnd.idxOf_getElem i hil).symm
      exact (List.nodup_append.mp hrange).2.2 i hi j List.mem_cons_self hij
    rw [hsplit, List.foldlM_append]
    refine (removeFrom_absent hpre).bind ?_
    rintro b s' ⟨rfl, rfl⟩
    rw [List.foldlM_cons, wp_bind, wp_bind, wp_get, if_pos hat]
    refine (removeAt_spec h hroom hj).mono ?_ fun _ _ he => he
    rintro b' s₁ ⟨rfl, harray, hsteps⟩
    have herase : l.erase channel = l.eraseIdx j := List.erase_eq_eraseIdx_of_idxOf hjdef.symm
    rw [← herase] at harray
    refine (removeFrom_absent fun i hi heq => ?_).mono ?_ fun _ _ he => he
    · have hlt : i < maxChannels :=
        List.mem_range.mp (hsplit ▸ List.mem_append_right _ (List.mem_cons_of_mem _ hi))
      exact hnd.not_mem_erase (harray.mem_iff.mpr ⟨hne, i, hlt, heq⟩)
    rintro b s₂ ⟨rfl, rfl⟩
    refine ⟨by simp [hmem], harray, hsteps.mono ?_⟩
    rintro t i ⟨rfl, hi⟩
    exact ⟨rfl, hmem, hi⟩
  · have habs : ∀ j ∈ List.range maxChannels, s.words page j ≠ channel := fun j hj heq =>
      hmem (h.mem_iff.mpr ⟨hne, j, List.mem_range.mp hj, heq⟩)
    refine (removeFrom_absent habs).mono ?_ fun _ _ he => he
    rintro b s' ⟨rfl, rfl⟩
    refine ⟨by simp [hmem], ?_, .refl _ _⟩
    rwa [List.erase_of_not_mem hmem]

end Arrays

/-! ### All arrays -/

/-- The array of each CPU that has one holds its list, and no two CPUs have the same. -/
structure PmState.Arrays (lists : ℕ → List ℕ) (s : PmState) : Prop where
  array : ∀ d, (s.cpus d).vm.channels ≠ 0 →
    ZeroTerminated maxChannels (s.words (s.cpus d).vm.channels) (lists d)
  apart : ∀ d e, (s.cpus d).vm.channels ≠ 0 →
    (s.cpus d).vm.channels = (s.cpus e).vm.channels → d = e

/-- The entries that removing `channel` may assign. -/
def PmState.RemovesAt (s : PmState) (lists : ℕ → List ℕ) (channel t i : ℕ) : Prop :=
  ∃ d, t = (s.cpus d).vm.channels ∧ t ≠ 0 ∧ channel ∈ lists d ∧ i < (lists d).length + 2

section Lists

variable {s s' : PmState} {E : PmStop → PmState → Prop} {channel c : ℕ} {lists : ℕ → List ℕ}

/-- `remove_channel_list` removes the channel from the lists; it is found in one of them. -/
theorem removeChannelList_spec (h : s.Arrays lists) (hncpus : s.ncpus ≤ maxCpus)
    (hall : ∀ d, (s.cpus d).vm.channels ≠ 0 → d < s.ncpus) (hnd : ∀ d, (lists d).Nodup)
    (hroom : ∀ d, (s.cpus d).vm.channels ≠ 0 → channel ∈ lists d → (lists d).length < maxChannels)
    (hzero : channel = 0 → E (.panic .removeZero) s)
    (habs : (∀ d, (s.cpus d).vm.channels ≠ 0 → channel ∉ lists d) →
      ∀ s', E (.panic .channelNotFound) s') :
    wp (removeChannelList channel) (fun _ s' =>
      (∃ d, (s.cpus d).vm.channels ≠ 0 ∧ channel ∈ lists d) ∧
      s'.Arrays (fun d => (lists d).erase channel) ∧
      ArraySteps (s.RemovesAt lists channel) s s') E s := by
  unfold removeChannelList
  by_cases h0 : channel = 0
  · rw [if_pos h0]
    exact hzero h0
  rw [if_neg h0]
  simp only [wp_bind, wp_get]
  -- the CPUs that are left keep their lists
  let I (is : List ℕ) (found : Bool) (s' : PmState) : Prop :=
    ArraySteps (s.RemovesAt lists channel) s s' ∧
    (∀ d, (s.cpus d).vm.channels ≠ 0 → ZeroTerminated maxChannels
      (s'.words (s.cpus d).vm.channels) (if d ∈ is then lists d else (lists d).erase channel)) ∧
    (found = true ↔ ∃ d, d ∉ is ∧ (s.cpus d).vm.channels ≠ 0 ∧ channel ∈ lists d)
  have hloop := wp_foldlM (E := E) (l := List.range s.ncpus) (a := false) (s := s) (I := I)
    (g := fun found i => do
      let c ← derefCpu i
      let page := ((← get).cpus c).vm.channels
      if page = 0 then
        return found
      else
        removeFrom page channel found) ?_ ?_
  · refine hloop.mono ?_ fun _ _ he => he
    rintro found s' ⟨hsteps, harrays, hfound⟩
    cases found with
    | false =>
      refine habs (fun d hd hmem => ?_) s'
      exact Bool.false_ne_true (hfound.mpr ⟨d, List.not_mem_nil, hd, hmem⟩)
    | true =>
      obtain ⟨d, -, hd, hmem⟩ := hfound.mp rfl
      refine ⟨⟨d, hd, hmem⟩, ⟨?_, ?_⟩, hsteps⟩
      · rw [hsteps.cpus]
        intro e he
        have := harrays e he
        rwa [if_neg List.not_mem_nil] at this
      · rw [hsteps.cpus]
        exact h.apart
  · rintro i is found s₁ ⟨pre, hpre⟩ ⟨hsteps, harrays, hfound⟩
    have hi : i < s.ncpus := List.mem_range.mp (hpre ▸ List.mem_append_right pre List.mem_cons_self)
    have hnotin : i ∉ is :=
      (List.nodup_cons.mp (List.nodup_append.mp (hpre ▸ List.nodup_range)).2.1).1
    have hderef : derefCpu i = pure i := by
      unfold derefCpu getCpuInfo
      rw [if_neg (by omega)]
    rw [hderef, pure_bind, wp_bind, wp_get, hsteps.cpus]
    by_cases hpage : (s.cpus i).vm.channels = 0
    · rw [if_pos hpage, wp_pure]
      refine ⟨hsteps, fun d hd => ?_, ?_⟩
      · have hdi : d ≠ i := fun heq => hd (heq ▸ hpage)
        have := harrays d hd
        simp only [List.mem_cons, hdi, false_or] at this
        exact this
      · rw [hfound]
        constructor
        · rintro ⟨d, hd, hrest⟩
          exact ⟨d, fun hmem => hd (List.mem_cons_of_mem _ hmem), hrest⟩
        · rintro ⟨d, hd, hch, hmem⟩
          exact ⟨d, List.not_mem_cons_of_ne_of_not_mem (fun heq => hch (heq ▸ hpage)) hd, hch, hmem⟩
    rw [if_neg hpage]
    have harray := harrays i hpage
    rw [if_pos List.mem_cons_self] at harray
    refine (removeFrom_spec harray (hnd i) h0 (hroom i hpage)).mono ?_ fun _ _ he => he
    rintro found' s₂ ⟨rfl, hnew, hsteps₂⟩
    refine ⟨hsteps.trans (hsteps₂.mono ?_), fun d hd => ?_, ?_⟩
    · rintro t j ⟨rfl, hmem, hj⟩
      exact ⟨i, rfl, hpage, hmem, hj⟩
    · by_cases hdi : d = i
      · subst hdi
        rw [if_neg hnotin]
        exact hnew
      · have hold := harrays d hd
        simp only [List.mem_cons, hdi, false_or] at hold
        rwa [hsteps₂.page fun j hP => hdi (h.apart d i hd hP.1)]
    · rw [Bool.or_eq_true, hfound, decide_eq_true_eq]
      constructor
      · rintro (⟨d, hd, hrest⟩ | hmem)
        · exact ⟨d, fun hmem => hd (List.mem_cons_of_mem _ hmem), hrest⟩
        · exact ⟨i, hnotin, hpage, hmem⟩
      · rintro ⟨d, hd, hch, hmem⟩
        by_cases hdi : d = i
        · exact Or.inr (hdi ▸ hmem)
        · exact Or.inl ⟨d, List.not_mem_cons_of_ne_of_not_mem hdi hd, hch, hmem⟩
  · refine ⟨.refl _ s, fun d hd => ?_, iff_of_false Bool.false_ne_true ?_⟩
    · rw [if_pos (List.mem_range.mpr (hall d hd))]
      exact h.array d hd
    · rintro ⟨d, hd, hch, -⟩
      exact hd (List.mem_range.mpr (hall d hch))

/-- The list after `add_channel_list`: a full array stays as it is. -/
def addTo (l : List ℕ) (channel : ℕ) : List ℕ :=
  if l.length < maxChannels then l ++ [channel] else l

/-- `add_channel_list` appends the channel to the list of the driver, if there is room. -/
theorem addChannelList_spec (h : s.Arrays lists) (hchannel : channel ≠ 0)
    (hnone : (s.cpus c).vm.channels = 0 → E (.panic .noChannels) s) :
    wp (addChannelList c channel) (fun _ s' => (s.cpus c).vm.channels ≠ 0 ∧
      s'.Arrays (Function.update lists c (addTo (lists c) channel)) ∧
      ArraySteps (fun t i => t = (s.cpus c).vm.channels ∧ i < maxChannels) s s') E s := by
  unfold addChannelList
  rw [wp_bind, wp_get]
  dsimp only
  by_cases hpage : (s.cpus c).vm.channels = 0
  · rw [if_pos hpage]
    exact hnone hpage
  have harray := h.array c hpage
  rw [if_neg hpage, if_neg hchannel, harray.find_zero]
  by_cases hroom : (lists c).length < maxChannels
  · rw [if_pos hroom]
    refine setChannel_spec channel fun s' hsteps hnew => ?_
    have hother : ∀ i < maxChannels, i ≠ (lists c).length →
        s'.words (s.cpus c).vm.channels i = s.words (s.cpus c).vm.channels i :=
      fun i _ hi => hsteps.words fun hP => hi hP.2
    refine ⟨hpage, ⟨fun d hd => ?_, ?_⟩, hsteps.mono ?_⟩
    · rw [hsteps.cpus] at hd ⊢
      by_cases hdc : d = c
      · subst hdc
        rw [Function.update_self, addTo, if_pos hroom]
        exact harray.push hroom hchannel hnew hother
      · rw [Function.update_of_ne hdc, hsteps.page fun i hP => hdc (h.apart d c hd hP.1)]
        exact h.array d hd
    · rw [hsteps.cpus]
      exact h.apart
    · rintro t i ⟨rfl, rfl⟩
      exact ⟨rfl, hroom⟩
  · rw [if_neg hroom]
    refine ⟨hpage, ?_, .refl _ s⟩
    rwa [addTo, if_neg hroom, Function.update_eq_self]

end Lists

end Savannah
