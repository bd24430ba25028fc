import Savannah.Ipc.ChannelUse

/-!
# The messages of a close

The close of a channel takes a course of four steps that can be seen from outside: its driver begins
to wait, the page is freed, the message is posted, and the driver receives it (`Change`).  Every
step of the system is one of these for at most one channel (`Rel.view_step`), so that the number of
waits, of messages and of ends of waits can be read off the last state of a run (`counts_of_run`).
-/

namespace Savannah.ChannelClose

open Foundation

/-! ### The messages of a run -/

/-- What there is to see of a close: whether the page is freed, the driver of the channel waits, and
a server is about to post. -/
structure View where
  freed : Bool
  waiting : Bool
  posting : Bool
  deriving DecidableEq

def Sys.view (s : Sys) (ch : ℕ) : View where
  freed := (s.chan ch).freed
  waiting := s.driver (s.chan ch).driver = .wait ch
  posting := s.fs = .post ch ∨ s.pm = .post ch

/-- The course of a close, with the steps that are counted. -/
inductive Change : View → View → Bool → Bool → Bool → Prop
  | stay (v : View) : Change v v false false false
  | enter : Change ⟨false, false, false⟩ ⟨false, true, false⟩ true false false
  | free : Change ⟨false, true, false⟩ ⟨true, true, true⟩ false false false
  | post : Change ⟨true, true, true⟩ ⟨true, true, false⟩ false true false
  | receive : Change ⟨true, true, false⟩ ⟨true, false, false⟩ false false true

/-- How many waits, messages and ends of waits there were. -/
def View.entered (v : View) : ℕ := (v.freed || v.waiting).toNat

def View.posted (v : View) : ℕ := (v.freed && !v.posting).toNat

def View.ended (v : View) : ℕ := (v.freed && !v.posting && !v.waiting).toNat

/-- Each event happens at most once. -/
theorem View.counts_le (v : View) : v.entered ≤ 1 ∧ v.posted ≤ v.entered ∧ v.ended ≤ v.posted := by
  obtain ⟨_ | _, _ | _, _ | _⟩ := v <;> decide

theorem View.ended_lt_posted (v : View) :
    v.ended < v.posted ↔ v.freed = true ∧ v.waiting = true ∧ v.posting = false := by
  obtain ⟨_ | _, _ | _, _ | _⟩ := v <;> decide

theorem View.ended_lt_entered {v : View} (h : v.posting = true → v.waiting = true) :
    v.ended < v.entered ↔ v.waiting = true := by
  obtain ⟨_ | _, _ | _, _ | _⟩ := v <;> revert h <;> decide

/-- The counts go up by the events. -/
theorem Change.counts {v v' : View} {e p d : Bool} (h : Change v v' e p d) :
    v'.entered = v.entered + e.toNat ∧ v'.posted = v.posted + p.toNat ∧
      v'.ended = v.ended + d.toNat := by
  cases h with
  | stay => simp
  | enter | free | post | receive => decide

section Messages

variable {s s' t : Sys} {use : ℕ → Use} {ev : Event} {evs : List Event} {x : Chan} {f : FsPhase}
  {p : PmPhase} {q : DriverPhase} {d ch c : ℕ}

/-- What the view depends on. -/
theorem view_congr (hfreed : (s'.chan c).freed = (s.chan c).freed)
    (hdriver : (s'.chan c).driver = (s.chan c).driver)
    (hwait : s'.driver (s.chan c).driver = .wait c ↔ s.driver (s.chan c).driver = .wait c)
    (hpost : s'.fs = .post c ∨ s'.pm = .post c ↔ s.fs = .post c ∨ s.pm = .post c) :
    s'.view c = s.view c := by
  unfold Sys.view
  rw [hfreed, hdriver]
  simp only [hwait, hpost]

/-- A change of a channel that is not seen, with moves of the servers that are not seen. -/
theorem view_set (hfreed : x.freed = (s.chan ch).freed) (hdriver : x.driver = (s.chan ch).driver)
    (hpost : f = .post c ∨ p = .post c ↔ s.fs = .post c ∨ s.pm = .post c) :
    { s.set ch x with fs := f, pm := p }.view c = s.view c := by
  by_cases hc : c = ch
  · subst hc
    exact view_congr (by simpa only [Sys.set_self] using hfreed)
      (by simpa only [Sys.set_self] using hdriver) Iff.rfl hpost
  · exact view_congr (by simp only [Sys.set_of_ne hc]) (by simp only [Sys.set_of_ne hc])
      Iff.rfl hpost

/-- A driver moves between phases in which it does not wait for the channel. -/
theorem view_move (hold : s.driver d ≠ .wait c) (hnew : q ≠ .wait c) :
    (s.move d q).view c = s.view c := by
  refine view_congr rfl rfl ?_ Iff.rfl
  by_cases hd : (s.chan c).driver = d
  · rw [hd, Sys.move_self]
    exact iff_of_false hnew hold
  · rw [Sys.move_of_ne hd]

theorem view_set_move (hfreed : x.freed = (s.chan ch).freed)
    (hdriver : x.driver = (s.chan ch).driver) (hold : s.driver d ≠ .wait c) (hnew : q ≠ .wait c) :
    ((s.set ch x).move d q).view c = s.view c :=
  (view_move (s := s.set ch x) hold hnew).trans
    (view_set (f := s.fs) (p := s.pm) hfreed hdriver Iff.rfl)

/-- The view of a channel with a page that is not freed. -/
theorem Rel.view_of_open (h : Rel s use) (hu : use c ≠ .gone) :
    s.view c = ⟨false, decide (s.driver (s.chan c).driver = .wait c), false⟩ := by
  have hfs : s.fs ≠ .post c := fun hf => by
    have hok := h.fs
    rw [hf] at hok
    exact hu hok.2.1
  have hpm : s.pm ≠ .post c := fun hp => by
    have hok := h.pm
    rw [hp] at hok
    exact hu hok.2.1
  simp [Sys.view, (h.chan c).not_freed hu, hfs, hpm]

/-- The view of a channel with a freed page. -/
theorem Rel.view_of_gone (h : Rel s use) (hu : use c = .gone) :
    s.view c = ⟨true, decide (s.driver (s.chan c).driver = .wait c),
      decide (s.fs = .post c ∨ s.pm = .post c)⟩ := by
  have hok := h.chan c
  rw [hu] at hok
  simp [Sys.view, hok.1]

theorem Change.of_eq {v v' : View} (h : v' = v) : Change v v' false false false := h ▸ .stay v

/-- The exchange of the marker is not seen. -/
theorem Marked.view {v : Closer} {u₀ u : Use} (hx : Marked v (s.chan ch) x u₀ u)
    (hok : ChanOk (s.chan ch) u₀)
    (hpost : f = .post c ∨ p = .post c ↔ s.fs = .post c ∨ s.pm = .post c) :
    { s.set ch x with fs := f, pm := p }.view c = s.view c :=
  view_set ((hx.ok.not_freed (hx.keeps.opened hx.opened).2).trans (hok.not_freed hx.opened.2).symm)
    hx.driver hpost

/-- A server posts: the close of this channel goes on, the others stay. -/
theorem Rel.view_post (h : Rel s use) (h' : Rel { s.postClose ch with fs := f, pm := p } use)
    (hgone : use ch = .gone) (hwaits : s.Waits ch)
    (hnext : s.fs = .post ch ∧ f = .idle ∧ p = s.pm ∨ s.pm = .post ch ∧ f = s.fs ∧ p = .idle) :
    Change (s.view c) ({ s.postClose ch with fs := f, pm := p }.view c) false (decide (c = ch))
      false := by
  by_cases hc : c = ch
  · subst hc
    have hslot := (h'.slot (driverOf (s.chan c).fd) c (by simp [Sys.postClose])).2.2
    rw [h.view_of_gone hgone, h'.view_of_gone hgone]
    have hold : s.fs = .post c ∨ s.pm = .post c := hnext.imp And.left And.left
    have hnew : ¬ (f = .post c ∨ p = .post c) := fun hn => hn.elim hslot.1 hslot.2
    unfold Sys.Waits at hwaits
    simp only [Sys.postClose, hwaits, hold, hnew, decide_true, decide_false]
    exact .post
  · rw [decide_eq_false hc]
    refine .of_eq (view_congr rfl rfl Iff.rfl ?_)
    rcases hnext with ⟨hs, rfl, rfl⟩ | ⟨hs, rfl, rfl⟩ <;> simp [hs, Ne.symm hc]

/-- The view of a step of FS. -/
theorem Rel.view_fs (h : Rel s use) (hstep : fsStep s = some s') :
    Change (s.view c) (s'.view c) false (decide (s.fs = .post c)) false := by
  have hfs := h.fs
  have hrel := h
  unfold fsStep at hstep
  cases hf : s.fs with
  | idle | ask c' => rw [hf] at hstep; cases hstep
  | closing st c' =>
    rw [hf] at hstep hfs
    rcases closeStep_cases (h.chan c') hfs.1 hfs.2 hstep with
      ⟨st', x, u', rfl, hx, -⟩ | ⟨x, rfl, hx⟩
    · exact .of_eq (hx.view (p := s.pm) (h.chan c') (by simp [hf]))
    · exact .of_eq (hx.view (p := s.pm) (h.chan c') (by simp [hf]))
  | post c' =>
    rw [hf] at hstep hfs
    obtain rfl := Option.some.inj hstep
    have hnext : s.fs = .post c' ∧ FsPhase.idle = .idle ∧ s.pm = s.pm ∨
        s.pm = .post c' ∧ FsPhase.idle = s.fs ∧ s.pm = .idle := Or.inl ⟨hf, rfl, rfl⟩
    have hsame : decide (FsPhase.post c' = .post c) = decide (c = c') := by simp [eq_comm]
    rw [hsame]
    exact h.view_post (h.post hfs.2.1 hfs.2.2 hnext) hfs.2.1 hfs.2.2 hnext

/-- The view of a step of PM. -/
theorem Rel.view_pm (h : Rel s use) (hstep : pmStep s = some s') :
    Change (s.view c) (s'.view c) false (decide (s.pm = .post c)) false := by
  have hpm := h.pm
  unfold pmStep at hstep
  cases hp : s.pm with
  | idle =>
    rw [hp] at hstep
    dsimp only at hstep
    split at hstep
    · rename_i c' rest hexit
      split at hstep
      · obtain rfl := Option.some.inj hstep
        have hview : { s.set c' { s.chan c' with user := .closing .pm } with
            fs := s.fs, pm := .closing .mark c' }.view c = s.view c := view_set rfl
            rfl (by simp [hp])
        exact .of_eq hview
      · cases hstep
    · obtain rfl := Option.some.inj hstep
      exact .of_eq (view_congr rfl rfl Iff.rfl (by simp [hp]))
    · cases hf : s.fs with
      | ask c' =>
        rw [hf] at hstep
        obtain rfl := Option.some.inj hstep
        exact .of_eq (view_congr rfl rfl Iff.rfl (by simp [hf, hp]))
      | idle | closing st c' | post c' => rw [hf] at hstep; cases hstep
  | closing st c' =>
    rw [hp] at hstep hpm
    rcases closeStep_cases (h.chan c') hpm.1 hpm.2 hstep with
      ⟨st', x, u', rfl, hx, -⟩ | ⟨x, rfl, hx⟩
    · exact .of_eq (hx.view (f := s.fs) (h.chan c') (by simp [hp]))
    · exact .of_eq (hx.view (f := s.fs) (h.chan c') (by simp [hp]))
  | shift own c' =>
    rw [hp] at hstep
    obtain rfl := Option.some.inj hstep
    exact .of_eq (view_congr rfl rfl Iff.rfl (by simp [hp]))
  | free own c' =>
    rw [hp] at hstep hpm
    have hfree : ∀ f p, (own = true ∧ f = s.fs ∧ p = PmPhase.post c' ∨
        own = false ∧ f = .post c' ∧ p = .idle) →
        Change (s.view c)
          ({ s.set c' { s.chan c' with freed := true } with fs := f, pm := p }.view c) false false
          false := fun f p hnext => by
      have hdone := hpm.1
      by_cases hc : c = c'
      · subst hc
        have hw := h.waits c (Or.inr hdone)
        have hnew : f = .post c ∨ p = .post c := hnext.elim (fun hn => Or.inr hn.2.2) fun hn =>
          Or.inl hn.2.1
        rw [h.view_of_open (by simp [hdone]),
          (h.free hp hnext).view_of_gone (Function.update_self ..)]
        unfold Sys.Waits at hw
        simp only [Sys.set_self, Sys.set_driver, hw, hnew, decide_true]
        exact .free
      · refine .of_eq
          (view_congr (by simp only [Sys.set_of_ne hc]) (by simp only [Sys.set_of_ne hc])
          Iff.rfl ?_)
        rcases hnext with ⟨rfl, rfl, rfl⟩ | ⟨rfl, rfl, rfl⟩
        · simp [hp, Ne.symm hc]
        · have hfs : s.fs = .ask c' := hpm.2
          simp [hp, hfs, Ne.symm hc]
    cases own with
    | true =>
      obtain rfl := Option.some.inj hstep
      exact hfree s.fs _ (Or.inl ⟨rfl, rfl, rfl⟩)
    | false =>
      obtain rfl := Option.some.inj hstep
      exact hfree _ _ (Or.inr ⟨rfl, rfl, rfl⟩)
  | post c' =>
    rw [hp] at hstep hpm
    obtain rfl := Option.some.inj hstep
    have hnext : s.fs = .post c' ∧ s.fs = .idle ∧ PmPhase.idle = s.pm ∨
        s.pm = .post c' ∧ s.fs = s.fs ∧ PmPhase.idle = .idle := Or.inr ⟨hp, rfl, rfl⟩
    have hsame : decide (PmPhase.post c' = .post c) = decide (c = c') := by simp [eq_comm]
    rw [hsame]
    exact h.view_post (h.post hpm.2.1 hpm.2.2 hnext) hpm.2.1 hpm.2.2 hnext
  | load => rw [hp] at hstep; cases hstep

/-- The view of a step of a driver. -/
theorem Rel.view_driver (h : Rel s use) (hstep : driverStep s d = some s') :
    Change (s.view c) (s'.view c) (decide (s.driver d = .flag c true)) false
      (decide (s.driver d = .wait c)) := by
  have hdriver := h.driver d
  unfold driverStep at hstep
  cases hq : s.driver d with
  | scan => rw [hq] at hstep; cases hstep
  | look c' =>
    rw [hq] at hstep
    dsimp only at hstep
    split at hstep <;> obtain rfl := Option.some.inj hstep
    · exact .of_eq (view_set_move rfl rfl (by simp [hq]) (by simp))
    · exact .of_eq (view_move (by simp [hq]) (by simp))
  | picked c' =>
    rw [hq] at hstep
    obtain rfl := Option.some.inj hstep
    exact .of_eq (view_move (by simp [hq]) (by split <;> simp))
  | serve c' | reply c' b =>
    rw [hq] at hstep
    obtain rfl := Option.some.inj hstep
    exact .of_eq (view_move (by simp [hq]) (by simp))
  | flag c' b =>
    rw [hq] at hstep hdriver
    obtain rfl := Option.some.inj hstep
    obtain ⟨hd, hb⟩ := hdriver
    by_cases hc : c = c' ∧ b = true
    · obtain ⟨rfl, rfl⟩ := hc
      -- the driver begins to wait
      have hview : ((s.set c { s.chan c with readyReply := true }).move d (.wait c)).view c =
          ⟨false, true, false⟩ := by
        have hfs : s.fs ≠ .post c := fun hf => by simpa [hf, FsOk, hb] using h.fs
        have hpm : s.pm ≠ .post c := fun hp => by simpa [hp, PmOk, hb] using h.pm
        simp [Sys.view, Sys.set, Sys.move, (h.chan c).not_freed (by simp [hb]), hd, hfs, hpm]
      rw [h.view_of_open (by simp [hb]), hd, hq]
      simp only [if_true, hview, decide_true, reduceCtorEq, decide_false]
      exact .enter
    · have hnew : (if b = true then DriverPhase.wait c' else .scan) ≠ .wait c := by
        cases b <;> simp [Ne.symm] at hc ⊢
        exact Ne.symm hc
      have hflag : decide (DriverPhase.flag c' b = .flag c true) = false := by
        simp only [DriverPhase.flag.injEq, decide_eq_false_iff_not]
        exact fun heq => hc ⟨heq.1.symm, heq.2⟩
      rw [hflag]
      exact .of_eq (view_set_move rfl rfl (by simp [hq]) hnew)
  | wait c' =>
    rw [hq] at hstep
    dsimp only at hstep
    split at hstep
    · rename_i c'' hslot
      obtain rfl := Option.some.inj hstep
      obtain ⟨hwait, hgone, hfs, hpm⟩ := h.slot d c'' hslot
      obtain rfl : c' = c'' := by simpa [hq] using hwait
      by_cases hc : c = c'
      · subst hc
        have hd := hdriver.driver (by rw [hq]; rfl)
        rw [h.view_of_gone hgone, (h.receive hslot).view_of_gone hgone]
        simp only [Sys.move, hd, hq, Function.update_self, hfs, hpm, or_self, decide_true,
          reduceCtorEq, decide_false]
        exact .receive
      · have hne : s.driver d ≠ .wait c := by simpa [hq] using Ne.symm hc
        have hends : decide (DriverPhase.wait c' = .wait c) = false := by simpa using Ne.symm hc
        rw [hends]
        exact .of_eq (view_move hne (by simp : DriverPhase.scan ≠ .wait c))
    · cases hstep

/-- The view of every step. -/
theorem Rel.view_step (h : Rel s use) (hstep : Step s ev s') (c : ℕ) :
    Change (s.view c) (s'.view c) (enters c s ev) (posts c s ev) (ends c s ev) := by
  have hcreate : ∀ ch fd d, localChannel s ch fd d = some s' → s'.view c = s.view c :=
    fun ch fd d hstep => by
      unfold localChannel at hstep
      split at hstep
      swap
      · cases hstep
      rename_i hguard
      obtain rfl := Option.some.inj hstep
      by_cases hc : c = ch
      · subst hc
        have habsent := (h.chan c).absent_of_user hguard.1
        have hnot : ∀ d, s.driver d ≠ .wait c := fun d hd => by
          have hok := h.driver d
          rw [hd] at hok
          exact hok.not_absent rfl habsent
        rw [h.view_of_open (by simp [habsent])]
        have hfs : s.fs ≠ .post c := fun hf => by simpa [hf, FsOk, habsent] using h.fs
        have hpm : s.pm ≠ .post c := fun hp => by simpa [hp, PmOk, habsent] using h.pm
        simp [Sys.view, Sys.set, hnot, hfs, hpm]
      · exact view_congr (by simp only [Sys.set_of_ne hc]) (by simp only [Sys.set_of_ne hc]) Iff.rfl
          Iff.rfl
  unfold Step at hstep
  cases ev with
  | create ch dev =>
    dsimp only [step] at hstep
    split at hstep
    · exact .of_eq (hcreate _ _ _ hstep)
    · cases hstep
  | copy ch parent =>
    dsimp only [step] at hstep
    split at hstep
    · exact .of_eq (hcreate _ _ _ hstep)
    · cases hstep
  | user ch =>
    dsimp only [step] at hstep
    split at hstep
    · cases hstep
    · obtain ⟨x, rfl, hfreed, hdriver⟩ := userStep_cases hstep
      exact .of_eq (view_set (f := s.fs) (p := s.pm) hfreed hdriver Iff.rfl)
  | close ch =>
    dsimp only [step] at hstep
    split at hstep
    · rename_i hguard
      obtain rfl := Option.some.inj hstep
      exact .of_eq (view_set (p := s.pm) rfl rfl (by simp [hguard.1]))
    · cases hstep
  | exit chs =>
    dsimp only [step] at hstep
    split at hstep
    · obtain rfl := Option.some.inj hstep
      exact .of_eq (view_congr rfl rfl Iff.rfl Iff.rfl)
    · cases hstep
  | exec | load =>
    dsimp only [step] at hstep
    split at hstep
    · rename_i hguard
      obtain rfl := Option.some.inj hstep
      exact .of_eq (view_congr rfl rfl Iff.rfl (by simp [hguard.1]))
    · cases hstep
  | fs => exact h.view_fs hstep
  | pm => exact h.view_pm hstep
  | entry d ch =>
    dsimp only [step] at hstep
    split at hstep
    · rename_i hguard
      obtain rfl := Option.some.inj hstep
      exact .of_eq (view_move (by simp [hguard.1]) (by simp))
    · cases hstep
  | driver d => exact h.view_driver hstep

/-- The counts of a run are those of the view of its last state. -/
theorem counts_of_run (hs : s.Initial) (hrun : Run Step s evs t) (ch : ℕ) :
    tally step (enters ch) s evs = (t.view ch).entered ∧
      tally step (posts ch) s evs = (t.view ch).posted ∧
      tally step (ends ch) s evs = (t.view ch).ended := by
  have hstart : s.view ch = ⟨false, false, false⟩ := by
    simp [Sys.view, (hs.chan ch).2, hs.driver, hs.fs, hs.pm]
  have hrel : ∃ use, Rel s use := ⟨_, hs.rel⟩
  have hstep : ∀ s ev t, step s ev = some t → (∃ use, Rel s use) → (∃ use, Rel t use) ∧
      Change (s.view ch) (t.view ch) (enters ch s ev) (posts ch s ev) (ends ch s ev) :=
    fun s ev t hst ⟨use, h⟩ => ⟨rel_step h hst, h.view_step hst ch⟩
  have h₁ := tally_eq (m := fun s => (s.view ch).entered)
    (fun s ev t hst hI => ⟨(hstep s ev t hst hI).1, (hstep s ev t hst hI).2.counts.1⟩) hrun hrel
  have h₂ := tally_eq (m := fun s => (s.view ch).posted)
    (fun s ev t hst hI => ⟨(hstep s ev t hst hI).1, (hstep s ev t hst hI).2.counts.2.1⟩) hrun hrel
  have h₃ := tally_eq (m := fun s => (s.view ch).ended)
    (fun s ev t hst hI => ⟨(hstep s ev t hst hI).1, (hstep s ev t hst hI).2.counts.2.2⟩) hrun hrel
  rw [hstart] at h₁ h₂ h₃
  simp only [View.entered, View.posted, View.ended, Bool.or_self, Bool.false_and, Bool.toNat_false,
    Nat.zero_add] at h₁ h₂ h₃ ⊢
  exact ⟨h₁.symm, h₂.symm, h₃.symm⟩

/-- What the view of a channel says about the waits and the slots. -/
theorem Rel.atMostOne (h : Rel t use) (hent : tally step (enters ch) s evs = (t.view ch).entered)
    (hpost : tally step (posts ch) s evs = (t.view ch).posted)
    (hended : tally step (ends ch) s evs = (t.view ch).ended) : AtMostOne s evs t ch := by
  have hwait : ∀ d, t.driver d = .wait ch → (t.view ch).waiting = true := fun d hd => by
    have hdriver : (t.chan ch).driver = d := (h.driver d).driver (by rw [hd]; rfl)
    simpa [Sys.view, hdriver] using hd
  have hslot : (∃ d, t.slot d = some ch) ↔
      (t.view ch).freed = true ∧ (t.view ch).waiting = true ∧ (t.view ch).posting = false := by
    constructor
    · rintro ⟨d, hd⟩
      obtain ⟨hw, hgone, hfs, hpm⟩ := h.slot d ch hd
      refine ⟨?_, hwait d hw, by simp [Sys.view, hfs, hpm]⟩
      rw [h.view_of_gone hgone]
    · rintro ⟨hfreed, hw, hnot⟩
      refine ⟨(t.chan ch).driver, ?_⟩
      have hok := h.driver (t.chan ch).driver
      simp only [Sys.view, decide_eq_true_eq, decide_eq_false_iff_not] at hfreed hw hnot
      rw [hw] at hok
      rcases hok.2 with hend | ⟨-, hp | hp | hp⟩
      · have hopen := (h.chan ch).not_freed (by rcases hend with hu | hu <;> simp [hu])
        simp [hfreed] at hopen
      · exact absurd (Or.inl hp) hnot
      · exact absurd (Or.inr hp) hnot
      · exact hp
  have hwaiting : (∃ d, t.driver d = .wait ch) ↔ (t.view ch).waiting = true :=
    ⟨fun ⟨d, hd⟩ => hwait d hd, fun hw => ⟨_, by simpa [Sys.view] using hw⟩⟩
  -- a page is freed, and a message posted, only while the driver waits
  have hposting : (t.view ch).posting = true → (t.view ch).waiting = true := fun hp => by
    have hw : t.Waits ch := by
      simp only [Sys.view, decide_eq_true_eq] at hp
      rcases hp with hp | hp
      · have hok := h.fs
        rw [hp] at hok
        exact hok.2.2
      · have hok := h.pm
        rw [hp] at hok
        exact hok.2.2
    exact decide_eq_true hw
  obtain ⟨honce, hsent, hle⟩ := (t.view ch).counts_le
  refine ⟨hent ▸ honce, ?_, ?_, ?_, ?_⟩
  · rw [hpost, hent]
    exact hsent
  · rw [hended, hpost]
    exact hle
  · rw [hended, hent, hwaiting]
    exact View.ended_lt_entered hposting
  · rw [hended, hpost, hslot]
    exact View.ended_lt_posted _

/-- In every interleaving of clients, FS, PM and drivers, the driver has answered and waits while
its channel is removed, no page is used after it was freed, and at most the message of this close
ends the wait. -/
theorem safe_of_run (hs : s.Initial) (hrun : Run Step s evs t) :
    (∃ use, Rel t use) ∧ t.Handshake ∧ ∀ ch, AtMostOne s evs t ch := by
  obtain ⟨use, hrel⟩ : ∃ use, Rel t use :=
    hrun.invariant (I := fun s => ∃ use, Rel s use) (fun s ev t hstep ⟨use, h⟩ => rel_step h hstep)
      ⟨_, hs.rel⟩
  refine ⟨⟨use, hrel⟩, hrel.handshake, fun ch => ?_⟩
  obtain ⟨hent, hpost, hended⟩ := counts_of_run hs hrun ch
  exact hrel.atMostOne hent hpost hended

end Messages

end Savannah.ChannelClose
