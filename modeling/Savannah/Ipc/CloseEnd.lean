import Savannah.Ipc.ChannelMessages

/-!
# The end of a wait

A driver that has answered a marker waits until a server posts the message.  FS posts it after PM
has removed the channel, so that the driver waits for FS, FS for PM, and PM, which closes the
channels of a VM that exits, for the driver of one of them.  If this is the same driver, none of the
three goes on (`Sys.Stuck`), and the wait does not end (`crossedCloses_stuck`).

Under the condition `Separate` it ends.  `Sys.Ordered` is the invariant of the runs under the
condition.  While FS waits for PM, one of PM and the driver that PM waits for can make a step, and
it brings PM closer to the end of `local_exit` (`Sys.Ordered.pm_works`, with the measure
`Sys.work`). Then PM serves FS, FS posts, and the driver goes on (`Sys.Ordered.ends`).
-/

namespace Savannah.ChannelClose

open Foundation

section Leads

variable {P Q : Sys → Prop} {s s' : Sys} {ev : Event}

/-- Nothing has to be done. -/
theorem Leads.now (h : P s) : Leads P s :=
  ⟨[], s, fun _ h => absurd h List.not_mem_nil, .nil s, h⟩

/-- One more step in front. -/
theorem Leads.step (hstep : Step s ev s') (hin : ev.Inner) (h : Leads P s') : Leads P s := by
  obtain ⟨evs, t, hevs, hrun, ht⟩ := h
  exact ⟨ev :: evs, t, List.forall_mem_cons.mpr ⟨hin, hevs⟩, .cons hstep hrun, ht⟩

/-- Two phases, one after the other. -/
theorem Leads.trans (h : Leads P s) (hPQ : ∀ t, P t → Leads Q t) : Leads Q s := by
  obtain ⟨evs, t, hevs, hrun, ht⟩ := h
  obtain ⟨evs', u, hevs', hrun', hu⟩ := hPQ t ht
  refine ⟨evs ++ evs', u, fun ev hev => ?_, hrun.append hrun', hu⟩
  exact (List.mem_append.mp hev).elim (hevs ev) (hevs' ev)

/-- A measure that some step makes smaller until `Q` holds. -/
theorem Leads.of_measure (m : Sys → ℕ)
    (hstep : ∀ s, P s → ¬ Q s → ∃ ev s', ev.Inner ∧ Step s ev s' ∧ P s' ∧ m s' < m s)
    (hs : P s) : Leads (fun t => P t ∧ Q t) s := by
  induction hm : m s using Nat.strong_induction_on generalizing s with
  | _ n ih =>
    by_cases hQ : Q s
    · exact .now ⟨hs, hQ⟩
    · obtain ⟨ev, s', hin, hst, hP, hlt⟩ := hstep s hs hQ
      exact .step hst hin (ih (m s') (hm ▸ hlt) hP rfl)

end Leads

/-! ### The invariant -/

/-- The state of a run in which FS and PM do not meet at a driver. -/
structure Sys.Ordered (s : Sys) : Prop where
  rel : ∃ use, Rel s use
  nodup : s.left.Nodup
  idle : ∀ ch ∈ s.left, (s.chan ch).user = .idle
  apart : ∀ d, s.FsCloses d → ¬ s.PmNeeds d

/-- A step that takes up no new close. -/
structure Steady (s s' : Sys) : Prop where
  driver : ∀ ch, (s'.chan ch).driver = (s.chan ch).driver
  left : s'.left.Sublist s.left
  user : ∀ ch ∈ s'.left, (s'.chan ch).user = (s.chan ch).user
  fs : ∀ d, s'.FsCloses d → s.FsCloses d
  pm : ∀ d, s'.PmHeld d → s.PmNeeds d

section Invariant

variable {s s' : Sys} {use : ℕ → Use} {ev : Event} {d ch : ℕ}

/-- Such a step keeps the order. -/
theorem Sys.Ordered.steady (h : s.Ordered) (hrel : ∃ use, Rel s' use) (hs : Steady s s') :
    s'.Ordered where
  rel := hrel
  nodup := h.nodup.sublist hs.left
  idle c hc := (hs.user c hc).trans (h.idle c (hs.left.subset hc))
  apart d hfs hpm := by
    refine h.apart d (hs.fs d hfs) ?_
    rcases hpm with hpm | ⟨c, hc, hd⟩
    · exact hs.pm d hpm
    · exact Or.inr ⟨c, hs.left.subset hc, (hs.driver c).symm.trans hd⟩

/-- What FS closes depends on its phase and the drivers of the channels. -/
theorem Sys.FsCloses.of_same (h : s'.FsCloses d) (hfs : s'.fs = s.fs)
    (hdriver : ∀ c, (s'.chan c).driver = (s.chan c).driver) : s.FsCloses d := by
  simpa only [Sys.FsCloses, hfs, hdriver] using h

/-- What PM waits for depends on its phase and the drivers of the channels. -/
theorem Sys.PmHeld.of_same (h : s'.PmHeld d) (hpm : s'.pm = s.pm)
    (hdriver : ∀ c, (s'.chan c).driver = (s.chan c).driver) : s.PmHeld d := by
  simpa only [Sys.PmHeld, hpm, hdriver] using h

/-- Where the servers stay and the channels keep their clients and drivers, nothing changes. -/
theorem Steady.of_same (hfs : s'.fs = s.fs) (hpm : s'.pm = s.pm) (hexit : s'.exiting = s.exiting)
    (huser : ∀ c ∈ s.left, (s'.chan c).user = (s.chan c).user)
    (hdriver : ∀ c, (s'.chan c).driver = (s.chan c).driver) : Steady s s' := by
  have hleft : s'.left = s.left := by rw [Sys.left, hexit, Sys.left]
  exact ⟨hdriver, hleft ▸ List.Sublist.refl _, fun c hc => huser c (hleft ▸ hc),
    fun d h => h.of_same hfs hdriver, fun d h => Or.inl (h.of_same hpm hdriver)⟩

/-- A change of one channel that keeps a part `f` of it. -/
theorem set_part {α : Type} {x : Chan} (f : Chan → α) (hx : f x = f (s.chan ch)) (c : ℕ) :
    f ((s.set ch x).chan c) = f (s.chan c) := by
  by_cases hc : c = ch
  · rw [hc, Sys.set_self, hx]
  · rw [Sys.set_of_ne hc]

/-- FS goes on with its channel. -/
theorem Rel.steady_fs (h : Rel s use) (hstep : fsStep s = some s') : Steady s s' := by
  have hfs := h.fs
  unfold fsStep at hstep
  cases hf : s.fs with
  | idle | ask c => rw [hf] at hstep; cases hstep
  | closing st c =>
    rw [hf] at hstep hfs
    rcases closeStep_cases (h.chan c) hfs.1 hfs.2 hstep with ⟨st', x, u', rfl, hx, -⟩ | ⟨x, rfl, hx⟩
    all_goals
      have hdriver := set_part Chan.driver hx.driver
      refine ⟨hdriver, List.Sublist.refl _,
        fun c' _ => set_part Chan.user (hx.user.trans hfs.1.symm) c', fun d hd => ?_,
        fun d hd => Or.inl (hd.of_same rfl hdriver)⟩
      rw [Sys.FsCloses, hf]
      exact (hdriver c).symm.trans hd
  | post c =>
    rw [hf] at hstep
    obtain rfl := Option.some.inj hstep
    exact ⟨fun _ => rfl, List.Sublist.refl _, fun _ _ => rfl, fun d hd => hd.elim,
      fun d hd => Or.inl hd⟩

/-- PM goes on with its channel, or with the next one of the VM. -/
theorem Rel.steady_pm (h : Rel s use) (hnodup : s.left.Nodup) (hstep : pmStep s = some s') :
    Steady s s' := by
  have hpm := h.pm
  unfold pmStep at hstep
  cases hp : s.pm with
  | idle =>
    rw [hp] at hstep
    dsimp only at hstep
    split at hstep
    · rename_i c rest hexit
      have hleft : s.left = c :: rest := by rw [Sys.left, hexit]; rfl
      split at hstep
      · obtain rfl := Option.some.inj hstep
        rw [hleft] at hnodup
        have hdriver : ∀ c', ((s.set c { s.chan c with user := .closing .pm }).chan c').driver =
            (s.chan c').driver := set_part Chan.driver rfl
        refine ⟨hdriver, hleft ▸ List.sublist_cons_self c rest, fun c' hc => ?_,
          fun d hd => hd.of_same rfl hdriver, fun d hd => Or.inr ?_⟩
        · have hne : c' ≠ c := fun heq => (List.nodup_cons.mp hnodup).1 (heq ▸ hc)
          exact congrArg Chan.user (Sys.set_of_ne hne)
        · -- the channel was the first of the list
          exact ⟨c, hleft ▸ List.mem_cons_self, (hdriver c).symm.trans hd⟩
      · cases hstep
    · obtain rfl := Option.some.inj hstep
      exact ⟨fun _ => rfl, List.nil_sublist _, fun _ _ => rfl, fun d hd => hd, fun d hd => hd.elim⟩
    · cases hf : s.fs with
      | ask c =>
        rw [hf] at hstep
        obtain rfl := Option.some.inj hstep
        exact ⟨fun _ => rfl, List.Sublist.refl _, fun _ _ => rfl,
          fun d hd => hd.of_same hf.symm fun _ => rfl, fun d hd => hd.elim⟩
      | idle | closing st c | post c => rw [hf] at hstep; cases hstep
  | closing st c =>
    rw [hp] at hstep hpm
    rcases closeStep_cases (h.chan c) hpm.1 hpm.2 hstep with ⟨st', x, u', rfl, hx, -⟩ | ⟨x, rfl, hx⟩
    · have hdriver := set_part Chan.driver hx.driver
      refine ⟨hdriver, List.Sublist.refl _,
        fun c' _ => set_part Chan.user (hx.user.trans hpm.1.symm) c',
        fun d hd => hd.of_same rfl hdriver, fun d hd => Or.inl ?_⟩
      rw [Sys.PmHeld, hp]
      exact (hdriver c).symm.trans hd
    · have hdriver := set_part Chan.driver hx.driver
      exact ⟨hdriver, List.Sublist.refl _,
        fun c' _ => set_part Chan.user (hx.user.trans hpm.1.symm) c',
        fun d hd => hd.of_same rfl hdriver, fun d hd => hd.elim⟩
  | shift own c | post c =>
    rw [hp] at hstep
    obtain rfl := Option.some.inj hstep
    exact ⟨fun _ => rfl, List.Sublist.refl _, fun _ _ => rfl, fun d hd => hd, fun d hd => hd.elim⟩
  | free own c =>
    rw [hp] at hstep
    have hdriver : ∀ c', ((s.set c { s.chan c with freed := true }).chan c').driver =
        (s.chan c').driver := set_part Chan.driver rfl
    have huser : ∀ c', ((s.set c { s.chan c with freed := true }).chan c').user =
        (s.chan c').user := set_part Chan.user rfl
    cases own with
    | true =>
      obtain rfl := Option.some.inj hstep
      exact ⟨hdriver, List.Sublist.refl _, fun c' _ => huser c',
        fun d hd => hd.of_same rfl hdriver, fun d hd => hd.elim⟩
    | false =>
      obtain rfl := Option.some.inj hstep
      exact ⟨hdriver, List.Sublist.refl _, fun c' _ => huser c', fun d hd => hd.elim,
        fun d hd => hd.elim⟩
  | load => rw [hp] at hstep; cases hstep

/-- A driver changes flags of channels only. -/
theorem steady_driver (hstep : driverStep s d = some s') : Steady s s' := by
  have hset : ∀ c x q, x.user = (s.chan c).user → x.driver = (s.chan c).driver →
      Steady s ((s.set c x).move d q) := fun c x q hu hd =>
    .of_same rfl rfl rfl (fun c' _ => set_part Chan.user hu c') (set_part Chan.driver hd)
  have hmove : ∀ q, Steady s (s.move d q) := fun q =>
    .of_same rfl rfl rfl (fun _ _ => rfl) fun _ => rfl
  unfold driverStep at hstep
  cases hq : s.driver d with
  | scan => rw [hq] at hstep; cases hstep
  | look c =>
    rw [hq] at hstep
    dsimp only at hstep
    split at hstep <;> obtain rfl := Option.some.inj hstep
    · exact hset _ _ _ rfl rfl
    · exact hmove _
  | picked c | serve c | reply c b =>
    rw [hq] at hstep
    obtain rfl := Option.some.inj hstep
    exact hmove _
  | flag c b =>
    rw [hq] at hstep
    obtain rfl := Option.some.inj hstep
    exact hset _ _ _ rfl rfl
  | wait c =>
    rw [hq] at hstep
    dsimp only at hstep
    split at hstep
    · obtain rfl := Option.some.inj hstep
      exact .of_same rfl rfl rfl (fun _ _ => rfl) fun _ => rfl
    · cases hstep

/-- The inner steps take up no new close. -/
theorem Sys.Ordered.inner (h : s.Ordered) (hstep : Step s ev s') (hin : ev.Inner) :
    Steady s s' := by
  obtain ⟨use, hrel⟩ := h.rel
  unfold Step at hstep
  cases ev with
  | create | copy | user | close | exit | exec | load => exact hin.elim
  | fs => exact hrel.steady_fs hstep
  | pm => exact hrel.steady_pm h.nodup hstep
  | entry d c =>
    dsimp only [ChannelClose.step] at hstep
    split at hstep
    · obtain rfl := Option.some.inj hstep
      exact .of_same rfl rfl rfl (fun _ _ => rfl) fun _ => rfl
    · cases hstep
  | driver d => exact steady_driver hstep

/-- Under the condition every step keeps the order. -/
theorem Sys.Ordered.step (h : s.Ordered) (hsep : Separate s ev) (hstep : Step s ev s') :
    s'.Ordered := by
  obtain ⟨use, hrel⟩ := h.rel
  have hrel' := rel_step hrel hstep
  -- a channel is created only outside `local_exit`
  have hcreate : ∀ c fd d, s.pm = .idle → s.exiting = none → localChannel s c fd d = some s' →
      s'.Ordered := fun c fd d hp he hnew => by
    unfold localChannel at hnew
    split at hnew
    · obtain rfl := Option.some.inj hnew
      have hleft : s.left = [] := by rw [Sys.left, he]; rfl
      refine ⟨hrel', h.nodup, fun c' hc => ?_, fun d' _ hd => ?_⟩
      · exact absurd (hleft ▸ hc : c' ∈ []) List.not_mem_nil
      · rcases hd with hd | ⟨c', hc, -⟩
        · simp only [Sys.PmHeld, Sys.set, hp] at hd
        · exact absurd (hleft ▸ hc : c' ∈ []) List.not_mem_nil
    · cases hnew
  have hinner : ev.Inner → s'.Ordered := fun hin => h.steady hrel' (h.inner hstep hin)
  unfold Step at hstep
  cases ev with
  | create c dev =>
    dsimp only [ChannelClose.step] at hstep
    split at hstep
    · rename_i hguard
      exact hcreate _ _ _ hguard.1 hguard.2 hstep
    · cases hstep
  | copy c parent =>
    dsimp only [ChannelClose.step] at hstep
    split at hstep
    · rename_i hguard
      exact hcreate _ _ _ hguard.1.1 hguard.1.2 hstep
    · cases hstep
  | user c =>
    dsimp only [ChannelClose.step] at hstep
    split at hstep
    · cases hstep
    · rename_i hnot
      obtain ⟨x, rfl, -, hdriver⟩ := userStep_cases hstep
      refine h.steady hrel' (.of_same rfl rfl rfl (fun c' hc => ?_) (set_part Chan.driver hdriver))
      have hne : c' ≠ c := fun heq => hnot (heq ▸ hc)
      rw [Sys.set_of_ne hne]
  | close c =>
    dsimp only [ChannelClose.step] at hstep
    split at hstep
    · rename_i hguard
      obtain rfl := Option.some.inj hstep
      have hdriver : ∀ c', ((s.set c { s.chan c with user := .closing .fs }).chan c').driver =
          (s.chan c').driver := set_part Chan.driver rfl
      refine ⟨hrel', h.nodup, fun c' hc => ?_, fun d hfs hpm => hsep ?_⟩
      · have hne : c' ≠ c := fun heq => hguard.2.2 (heq ▸ hc)
        exact (congrArg Chan.user (Sys.set_of_ne hne)).trans (h.idle c' hc)
      · obtain rfl : (s.chan c).driver = d := (hdriver c).symm.trans hfs
        rcases hpm with hd | ⟨c', hc, hd⟩
        · exact Or.inl (hd.of_same rfl hdriver)
        · exact Or.inr ⟨c', hc, (hdriver c').symm.trans hd⟩
    · cases hstep
  | exit chs =>
    dsimp only [ChannelClose.step] at hstep
    split at hstep
    · rename_i hguard
      obtain rfl := Option.some.inj hstep
      refine ⟨hrel', hguard.2.1, hguard.2.2, fun d hfs hpm => ?_⟩
      rcases hpm with hpm | ⟨c, hc, rfl⟩
      · simp only [Sys.PmHeld, hguard.1.1] at hpm
      · exact hsep c hc hfs
    · cases hstep
  | exec =>
    dsimp only [ChannelClose.step] at hstep
    split at hstep
    · obtain rfl := Option.some.inj hstep
      refine ⟨hrel', h.nodup, h.idle, fun d hfs => ?_⟩
      have hidle : s.fs = .idle := hsep
      simp [Sys.FsCloses, hidle] at hfs
    · cases hstep
  | load =>
    dsimp only [ChannelClose.step] at hstep
    split at hstep
    · obtain rfl := Option.some.inj hstep
      exact h.steady hrel' ⟨fun _ => rfl, List.Sublist.refl _, fun _ _ => rfl, fun d hd => hd,
        fun d hd => hd.elim⟩
    · cases hstep
  | fs | pm | entry | driver => exact hinner trivial

end Invariant

/-! ### PM goes on -/

/-- How far a driver is from the answer on the channel `b`. -/
def DriverPhase.work (b : ℕ) : DriverPhase → ℕ
  | .flag c _ => if c = b then 1 else 7
  | .reply c _ => if c = b then 2 else 8
  | .picked c => if c = b then 3 else 10
  | .look c => if c = b then 4 else 11
  | .scan => 5
  | .wait _ => 6
  | .serve _ => 9

/-- How far PM is from the end of the phase it is in. -/
def Sys.phaseWork (s : Sys) : PmPhase → ℕ
  | .idle | .load => 0
  | .post _ => 1
  | .free _ _ => 2
  | .shift _ _ => 3
  | .closing .recv b =>
    4 + if (s.chan b).readyReply then 0 else (s.driver (s.chan b).driver).work b
  | .closing .set _ => 16
  | .closing .clear _ => 17
  | .closing .mark _ => 18

/-- How far PM is from the end of `local_exit`. -/
def Sys.work (s : Sys) : ℕ := s.phaseWork s.pm + match s.exiting with
  | none => 0
  | some l => 20 * l.length + 1

/-- PM can take the request of FS, or serves it. -/
def Sys.Serves (s : Sys) (a : ℕ) : Prop :=
  s.pm = .idle ∧ s.exiting = none ∨ s.pm = .shift false a ∨ s.pm = .free false a

section Progress

variable {s : Sys} {use : ℕ → Use} {a b d ch : ℕ}

theorem DriverPhase.work_bounds (b : ℕ) (q : DriverPhase) : 0 < q.work b ∧ q.work b ≤ 11 := by
  cases q with
  | scan | wait c | serve c => simp [DriverPhase.work]
  | look c | picked c | reply c m | flag c m => simp only [DriverPhase.work]; split <;> decide

/-- A marker without an answer is on the page, and `ready_send` is set until the driver has it. -/
theorem Rel.marker_of_recv (h : Rel s use) (hpm : s.pm = .closing .recv b)
    (hreply : (s.chan b).readyReply = false) :
    (s.chan b).marker = true ∧
      (use b = .sent true ∧ (s.chan b).readySend = true ∨ use b = .taken true) := by
  have hok := h.pm
  have hchan := h.chan b
  rw [hpm] at hok
  rcases hok.2 with hu | hu | hu <;> rw [hu] at hchan
  · exact ⟨hchan.2.2.2.1, Or.inl ⟨hu, hchan.2.1⟩⟩
  · exact ⟨hchan.2.2.2.1, Or.inr hu⟩
  · rw [hchan.2.2.1] at hreply
    cases hreply

/-- A driver that PM waits for does not wait for FS, so that it has its message if it waits. -/
theorem Rel.slot_of_wait (h : Rel s use) (hfs : s.fs = .ask a) (hpm : s.pm = .closing .recv b)
    (hreply : (s.chan b).readyReply = false) (hne : (s.chan a).driver ≠ d)
    (hq : s.driver d = .wait ch) : s.slot d = some ch := by
  rcases h.handshake.wait d ch hq with hslot | hclosing
  · exact hslot
  · have hd : (s.chan ch).driver = d := (h.driver d).driver (by rw [hq]; rfl)
    unfold Sys.Closing at hclosing
    simp only [hfs, hpm, reduceCtorEq, FsPhase.ask.injEq, PmPhase.closing.injEq, true_and, false_or,
      or_false, exists_false] at hclosing
    rcases hclosing with rfl | rfl
    · exact absurd hd hne
    · -- the driver has not answered the marker of PM
      have hok := h.driver d
      rw [hq] at hok
      rcases (h.marker_of_recv hpm hreply).2 with ⟨hu, -⟩ | hu <;>
        simp [DriverOk, hu, Use.Ending] at hok

/-- A driver does not move the servers. -/
theorem driverStep_servers {s' : Sys} (hstep : driverStep s d = some s') :
    s'.fs = s.fs ∧ s'.pm = s.pm ∧ s'.exiting = s.exiting := by
  unfold driverStep at hstep
  split at hstep
  case h_2 | h_7 => split at hstep <;> cases hstep <;> exact ⟨rfl, rfl, rfl⟩
  all_goals cases hstep <;> exact ⟨rfl, rfl, rfl⟩

/-- The driver that PM waits for comes closer to its answer. -/
theorem Rel.driver_works (h : Rel s use) (hfs : s.fs = .ask a) (hpm : s.pm = .closing .recv b)
    (hreply : (s.chan b).readyReply = false) (hd : (s.chan b).driver = d)
    (hne : (s.chan a).driver ≠ d) :
    ∃ ev s', ev.Inner ∧ Step s ev s' ∧ (s'.fs = s.fs ∧ s'.pm = s.pm ∧ s'.exiting = s.exiting) ∧
      ((s'.chan b).readyReply = true ∨ (s'.driver d).work b < (s.driver d).work b) := by
  obtain ⟨hmarker, huse⟩ := h.marker_of_recv hpm hreply
  -- from here on a step of the driver itself, except that it reads its array first
  suffices hstep : s.driver d ≠ .scan → ∃ s', driverStep s d = some s' ∧
      ((s'.chan b).readyReply = true ∨ (s'.driver d).work b < (s.driver d).work b) by
    by_cases hq : s.driver d = .scan
    · have hopen : (use b).Open := by rcases huse with ⟨hu, -⟩ | hu <;> simp [hu, Use.Open]
      have hin : b ∈ s.array d := (h.array d b).mpr ⟨hd, hopen, by simp [hpm]⟩
      refine ⟨.entry d b, s.move d (.look b), trivial, if_pos ⟨hq, hin⟩, ⟨rfl, rfl, rfl⟩, Or.inr ?_⟩
      simp [Sys.move_self, hq, DriverPhase.work]
    · obtain ⟨s', hst, hless⟩ := hstep hq
      exact ⟨.driver d, s', trivial, hst, driverStep_servers hst, hless⟩
  intro hscan
  unfold driverStep
  cases hq : s.driver d with
  | scan => exact absurd hq hscan
  | look c =>
    by_cases hsend : (s.chan c).readySend = true
    · refine ⟨_, if_pos hsend, Or.inr ?_⟩
      rw [Sys.move_self]
      simp only [DriverPhase.work]
      split <;> omega
    · have hc : c ≠ b := fun hc => by
        subst hc
        rcases huse with ⟨-, hu⟩ | hu
        · exact hsend hu
        · have hhold := h.hand c true hu
          simp [hd, hq, DriverPhase.Holds] at hhold
      refine ⟨_, if_neg hsend, Or.inr ?_⟩
      simp [Sys.move_self, DriverPhase.work, hc]
  | picked c =>
    refine ⟨_, rfl, Or.inr ?_⟩
    rw [Sys.move_self]
    by_cases hc : c = b
    · simp [hc, hmarker, DriverPhase.work]
    · split <;> simp [DriverPhase.work, hc]
  | serve c | reply c m =>
    refine ⟨_, rfl, Or.inr ?_⟩
    rw [Sys.move_self]
    simp only [DriverPhase.work]
    split <;> omega
  | flag c m =>
    refine ⟨_, rfl, ?_⟩
    by_cases hc : c = b
    · exact Or.inl (by simp [Sys.move, hc])
    · rw [Sys.move_self]
      exact Or.inr (by split <;> simp [DriverPhase.work, hc])
  | wait c =>
    have hslot := h.slot_of_wait hfs hpm hreply hne hq
    refine ⟨{ s.move d .scan with slot := Function.update s.slot d none }, by rw [hslot], Or.inr ?_⟩
    simp [Sys.move, DriverPhase.work]

/-- While FS waits for PM and PM does not serve it, PM goes on unless it waits for a driver. -/
theorem Sys.Ordered.pm_moves (h : s.Ordered) (hfs : s.fs = .ask a) (hbusy : ¬ s.Serves a)
    (hanswer : ∀ b, s.pm = .closing .recv b → (s.chan b).readyReply = true) :
    ∃ s', pmStep s = some s' ∧ s'.fs = .ask a ∧ s'.work < s.work := by
  unfold pmStep
  cases hp : s.pm with
  | idle =>
    cases he : s.exiting with
    | none => exact absurd (Or.inl ⟨hp, he⟩) hbusy
    | some l =>
      cases l with
      | nil => exact ⟨_, rfl, hfs, by simp [Sys.work, hp, he, Sys.phaseWork]⟩
      | cons c rest =>
        have huser : (s.chan c).user = .idle := h.idle c (by simp [Sys.left, he])
        refine ⟨_, if_pos huser, hfs, ?_⟩
        simp only [Sys.work, hp, he, Sys.phaseWork, List.length_cons]
        omega
  | closing st b =>
    cases st with
    | mark | clear =>
      refine ⟨_, rfl, hfs, ?_⟩
      simp [Sys.work, hp, Sys.phaseWork, Sys.set]
    | set =>
      refine ⟨_, rfl, hfs, ?_⟩
      have hwork := (s.driver (s.chan b).driver).work_bounds b
      simp only [Sys.work, hp, Sys.phaseWork, Sys.set_self, Sys.set_driver]
      have hexit : ∀ x, (s.set b x).exiting = s.exiting := fun _ => rfl
      rw [hexit]
      split <;> split <;> omega
    | recv =>
      refine ⟨_, if_pos (hanswer b hp), hfs, ?_⟩
      simp [Sys.work, hp, Sys.phaseWork, Sys.set, hanswer b hp]
  | shift own c => exact ⟨_, rfl, hfs, by simp [Sys.work, hp, Sys.phaseWork]⟩
  | free own c =>
    cases own with
    | true => exact ⟨_, rfl, hfs, by simp [Sys.work, hp, Sys.phaseWork, Sys.set]⟩
    | false =>
      obtain ⟨use, hrel⟩ := h.rel
      have hok := hrel.pm
      rw [hp] at hok
      have hc : c = a := by simpa [hfs, eq_comm] using hok.2
      exact absurd (Or.inr (Or.inr (hc ▸ hp))) hbusy
  | post c => exact ⟨_, rfl, hfs, by simp [Sys.work, hp, Sys.phaseWork, Sys.postClose]⟩
  | load =>
    have hcloses : s.FsCloses (s.chan a).driver := by rw [Sys.FsCloses, hfs]
    have hheld : s.PmHeld (s.chan a).driver := by rw [Sys.PmHeld, hp]; trivial
    exact absurd (Or.inl hheld) (h.apart _ hcloses)

/-- While FS waits for PM and PM does not serve it, PM or the driver it waits for makes a step that
brings PM closer to the end of `local_exit`. -/
theorem Sys.Ordered.pm_works (h : s.Ordered) (hfs : s.fs = .ask a) (hbusy : ¬ s.Serves a) :
    ∃ ev s', ev.Inner ∧ Step s ev s' ∧ s'.fs = .ask a ∧ s'.work < s.work := by
  by_cases hanswer : ∀ b, s.pm = .closing .recv b → (s.chan b).readyReply = true
  · obtain ⟨s', hst, hf, hless⟩ := h.pm_moves hfs hbusy hanswer
    exact ⟨.pm, s', trivial, hst, hf, hless⟩
  · push Not at hanswer
    obtain ⟨b, hp, hreply⟩ := hanswer
    obtain ⟨use, hrel⟩ := h.rel
    have hcloses : s.FsCloses (s.chan a).driver := by rw [Sys.FsCloses, hfs]
    have hheld : s.PmHeld (s.chan b).driver := by rw [Sys.PmHeld, hp]
    have hne : (s.chan a).driver ≠ (s.chan b).driver := fun heq =>
      h.apart _ hcloses (Or.inl (heq ▸ hheld))
    obtain ⟨ev, s', hin, hst, ⟨hf, hpm, he⟩, hless⟩ :=
      hrel.driver_works hfs hp (Bool.not_eq_true _ ▸ hreply) rfl hne
    have hsame := (h.inner hst hin).driver b
    refine ⟨ev, s', hin, hst, hf.trans hfs, ?_⟩
    simp only [Sys.work, hpm, hp, he, Sys.phaseWork, hsame, if_neg hreply]
    refine Nat.add_lt_add_right (Nat.add_lt_add_left ?_ 4) _
    rcases hless with hless | hless
    · rw [if_pos hless]
      exact ((s.driver (s.chan b).driver).work_bounds b).1
    · split
      · exact Nat.zero_lt_of_lt hless
      · exact hless

end Progress

/-! ### The wait ends -/

/-- The wait for the close of a channel is over. -/
def Sys.Over (s : Sys) (ch : ℕ) : Prop :=
  s.driver (s.chan ch).driver = .scan ∧ s.view ch = ⟨true, false, false⟩

section Ends

variable {s t : Sys} {use : ℕ → Use} {evs : List Event} {a b d ch : ℕ}

/-- The driver finds its message. -/
theorem Rel.over_of_slot (h : Rel s use) (hslot : s.slot (s.chan ch).driver = some ch) :
    Leads (·.Over ch) s := by
  obtain ⟨hwait, hgone, hfs, hpm⟩ := h.slot _ ch hslot
  have hstep : Step s (.driver (s.chan ch).driver)
      { s.move (s.chan ch).driver .scan with
        slot := Function.update s.slot (s.chan ch).driver none } := by
    simp only [Step, step, driverStep, hwait, hslot]
  have hscan : (s.move (s.chan ch).driver .scan).driver (s.chan ch).driver = .scan := Sys.move_self
  refine .step hstep trivial (.now ⟨hscan, ?_⟩)
  rw [(h.receive hslot).view_of_gone hgone]
  simp [Sys.move, hfs, hpm]

/-- A server posts the message. -/
theorem Rel.over_of_post (h : Rel s use) (hpost : s.fs = .post ch ∨ s.pm = .post ch) :
    Leads (·.Over ch) s := by
  have hnamed : use ch = .gone → (s.chan ch).driver = driverOf (s.chan ch).fd := fun hgone =>
    h.named ch (by simp [hgone])
  rcases hpost with hf | hp
  · have hok := h.fs
    rw [hf] at hok
    have hstep : Step s .fs { s.postClose ch with fs := .idle } := by
      simp only [Step, step, fsStep, hf]
    obtain ⟨use', hrel⟩ := rel_step h hstep
    refine .step hstep trivial (hrel.over_of_slot ?_)
    simp [Sys.postClose, hnamed hok.2.1]
  · have hok := h.pm
    rw [hp] at hok
    have hstep : Step s .pm { s.postClose ch with pm := .idle } := by
      simp only [Step, step, pmStep, hp]
    obtain ⟨use', hrel⟩ := rel_step h hstep
    refine .step hstep trivial (hrel.over_of_slot ?_)
    simp [Sys.postClose, hnamed hok.2.1]

/-- PM frees the page. -/
theorem Rel.over_of_free {own : Bool} (h : Rel s use) (hp : s.pm = .free own ch) :
    Leads (·.Over ch) s := by
  cases own with
  | true =>
    have hstep : Step s .pm { s.set ch { s.chan ch with freed := true } with pm := .post ch } := by
      simp only [Step, step, pmStep, hp, if_true]
    obtain ⟨use', hrel⟩ := rel_step h hstep
    exact .step hstep trivial (hrel.over_of_post (Or.inr rfl))
  | false =>
    have hstep : Step s .pm
        { s.set ch { s.chan ch with freed := true } with pm := .idle, fs := .post ch } := by
      simp only [Step, step, pmStep, hp, Bool.false_eq_true, if_false]
    obtain ⟨use', hrel⟩ := rel_step h hstep
    exact .step hstep trivial (hrel.over_of_post (Or.inl rfl))

/-- PM removes the channel. -/
theorem Rel.over_of_shift {own : Bool} (h : Rel s use) (hp : s.pm = .shift own ch) :
    Leads (·.Over ch) s := by
  have hstep : Step s .pm
      { s with array := fun d => (s.array d).filter (· ≠ ch), pm := .free own ch } := by
    simp only [Step, step, pmStep, hp]
  exact .step hstep trivial ((h.shift hp).over_of_free rfl)

/-- FS waits for PM: PM comes to the end of `local_exit`, and serves FS. -/
theorem Sys.Ordered.over_of_ask (h : s.Ordered) (hfs : s.fs = .ask ch) : Leads (·.Over ch) s := by
  have hserves : Leads (fun t => (t.Ordered ∧ t.fs = .ask ch) ∧ t.Serves ch) s := by
    refine .of_measure Sys.work (fun s hs hbusy => ?_) ⟨h, hfs⟩
    obtain ⟨ev, s', hin, hst, hf, hless⟩ := hs.1.pm_works hs.2 hbusy
    obtain ⟨use, hrel⟩ := hs.1.rel
    exact ⟨ev, s', hin, hst, ⟨hs.1.steady (rel_step hrel hst) (hs.1.inner hst hin), hf⟩, hless⟩
  refine hserves.trans fun t ⟨⟨ht, hf⟩, hs⟩ => ?_
  obtain ⟨use, hrel⟩ := ht.rel
  rcases hs with ⟨hp, he⟩ | hp | hp
  · have hstep : Step t .pm { t with pm := .shift false ch } := by
      simp only [Step, ChannelClose.step, pmStep, hp, he, hf]
    exact .step hstep trivial ((hrel.serve hp hf).over_of_shift rfl)
  · exact hrel.over_of_shift hp
  · exact hrel.over_of_free hp

/-- A driver that waits has answered the marker, which the server finds. -/
theorem Rel.readyReply_of_recv (h : Rel s use) (hwait : s.driver d = .wait ch)
    (hstage : StageOk (s.chan ch) (use ch) .recv) :
    (s.chan ch).readyReply = true := by
  have hok := h.driver d
  have hchan := h.chan ch
  rw [hwait] at hok
  rcases hstage with hu | hu | hu
  · simp [DriverOk, hu, Use.Ending] at hok
  · simp [DriverOk, hu, Use.Ending] at hok
  · rw [hu] at hchan
    exact hchan.2.2.1

/-- Every wait ends. -/
theorem Sys.Ordered.ends (h : s.Ordered) (hwait : s.driver d = .wait ch) : Leads (·.Over ch) s := by
  obtain ⟨use, hrel⟩ := h.rel
  have hd : (s.chan ch).driver = d := (hrel.driver d).driver (by rw [hwait]; rfl)
  have hfsok := hrel.fs
  have hpmok := hrel.pm
  rcases hrel.handshake.wait d ch hwait with hslot | hf | hf | hf | hp | ⟨own, hp | hp⟩ | hp
  · exact hrel.over_of_slot (hd ▸ hslot)
  · -- FS has not seen the answer yet
    rw [hf] at hfsok
    have hreply := hrel.readyReply_of_recv hwait hfsok.2
    have hstep : Step s .fs
        { s.set ch { s.chan ch with readyReply := false } with fs := .ask ch } := by
      simp only [Step, ChannelClose.step, fsStep, hf, closeStep, if_pos hreply]
    have hord := h.steady (rel_step hrel hstep) (h.inner hstep trivial)
    exact .step hstep trivial (hord.over_of_ask rfl)
  · exact h.over_of_ask hf
  · exact hrel.over_of_post (Or.inl hf)
  · -- PM has not seen the answer yet
    rw [hp] at hpmok
    have hreply := hrel.readyReply_of_recv hwait hpmok.2
    have hstep : Step s .pm
        { s.set ch { s.chan ch with readyReply := false } with pm := .shift true ch } := by
      simp only [Step, ChannelClose.step, pmStep, hp, closeStep, if_pos hreply]
    obtain ⟨use', hrel'⟩ := rel_step hrel hstep
    exact .step hstep trivial (hrel'.over_of_shift rfl)
  · exact hrel.over_of_shift hp
  · exact hrel.over_of_free hp
  · exact hrel.over_of_post (Or.inr hp)

/-- FS, PM and the drivers alone do not give a channel another driver. -/
theorem Sys.Ordered.driver_of_run (h : s.Ordered) (hin : ∀ ev ∈ evs, ev.Inner)
    (hrun : Run Step s evs t) : (t.chan ch).driver = (s.chan ch).driver := by
  have hinv := (hrun.with_labels hin).invariant
    (I := fun t => t.Ordered ∧ (t.chan ch).driver = (s.chan ch).driver)
    (fun t ev t' hst ht => by
      obtain ⟨use, hrel⟩ := ht.1.rel
      have hsteady := ht.1.inner hst.1 hst.2
      exact ⟨ht.1.steady (rel_step hrel hst.1) hsteady, (hsteady.driver ch).trans ht.2⟩)
    ⟨h, rfl⟩
  exact hinv.2

/-- At first there is no wait. -/
theorem Sys.Initial.ordered (h : s.Initial) : s.Ordered := by
  have hleft : s.left = [] := by rw [Sys.left, h.exiting]; rfl
  refine ⟨⟨_, h.rel⟩, by simp [hleft], by simp [hleft], fun d hfs => ?_⟩
  simp [Sys.FsCloses, h.fs] at hfs

/-- In every interleaving of clients, FS, PM and drivers in which FS and PM do not close channels of
one driver at the same time, and FS closes none while PM waits for it, the close of a channel is a
handshake: the driver has answered and waits while its channel is removed, and exactly the message
of this close ends the wait. -/
theorem handshake_of_run (hs : s.Initial) (hrun : Run (guarded Step Separate) s evs t) :
    t.Handshake ∧ ∀ ch, ExactlyOne s evs t ch := by
  have hrun' : Run Step s evs t := hrun.mono fun _ _ _ hst => hst.2
  have hord : t.Ordered :=
    hrun.invariant (I := Sys.Ordered) (fun s ev t hst h => h.step hst.1 hst.2) hs.ordered
  obtain ⟨-, hhand, hone⟩ := safe_of_run hs hrun'
  refine ⟨hhand, fun ch => ⟨hone ch, fun d hwait => ?_⟩⟩
  obtain ⟨evs', u, hin, hrest, hscan, hview⟩ := hord.ends hwait
  obtain ⟨use, hrel⟩ := hord.rel
  have hd : (t.chan ch).driver = d := (hrel.driver d).driver (by rw [hwait]; rfl)
  rw [hord.driver_of_run hin hrest, hd] at hscan
  obtain ⟨hent, hpost, hended⟩ := counts_of_run hs (hrun'.append hrest) ch
  rw [hview] at hent hpost hended
  exact ⟨evs', u, hin, hrest, hscan, hent, hpost, hended⟩

end Ends

/-! ### Runs -/

/-- Before the first channel. -/
def start : Sys where
  chan _ := ⟨0, 0, false, false, false, false, .absent⟩
  array _ := []
  driver _ := .scan
  slot _ := none
  fs := .idle
  pm := .idle
  exiting := none

theorem start_initial : start.Initial :=
  ⟨fun _ => ⟨rfl, rfl⟩, fun _ => rfl, fun _ => rfl, fun _ => rfl, rfl, rfl, rfl⟩

/-- A client opens "stdout", another one "stdin" and exits while FS closes the channel of the first.
The console driver has answered and waits, FS waits for PM, and PM for the keyboard driver. -/
def twoCloses : List Event :=
  [.create 0 .stdout, .exec, .load, .create 1 .stdin, .close 0, .fs, .fs, .fs,
    .entry 5 0, .driver 5, .driver 5, .driver 5, .driver 5, .exit [1], .pm, .pm, .pm, .pm, .fs]

theorem twoCloses_isSome :
    (twoCloses.foldlM (fun s ev => if Separate s ev then step s ev else none) start).isSome := by
  decide

theorem handshake_of_twoCloses : ∃ t, Run (guarded Step Separate) start twoCloses t ∧
    t.driver consoleId = .wait 0 ∧ t.fs = .ask 0 ∧ t.pm = .closing .recv 1 ∧ t.Handshake ∧
    ∀ ch, ExactlyOne start twoCloses t ch := by
  have hrun : Run (guarded Step Separate) start twoCloses _ :=
    .of_foldlM_guarded (Option.some_get twoCloses_isSome).symm
  exact ⟨_, hrun, by decide, by decide, by decide, handshake_of_run start_initial hrun⟩

/-! ### The deadlock -/

/-- FS waits for PM, PM for a driver, and the driver for FS. -/
structure Sys.Stuck (s : Sys) (a b : ℕ) : Prop where
  rel : ∃ use, Rel s use
  fs : s.fs = .ask a
  pm : s.pm = .closing .recv b
  driver : (s.chan b).driver = (s.chan a).driver
  reply : (s.chan b).readyReply = false

section Deadlock

variable {s s' t : Sys} {ev : Event} {evs : List Event} {a b d : ℕ}

/-- The driver waits, and there is no message for it. -/
theorem Sys.Stuck.waits (h : s.Stuck a b) :
    s.driver (s.chan a).driver = .wait a ∧ s.slot (s.chan a).driver = none := by
  obtain ⟨use, hrel⟩ := h.rel
  have hok := hrel.fs
  rw [h.fs] at hok
  have hwait : s.driver (s.chan a).driver = .wait a := hrel.waits a (Or.inr hok.2)
  refine ⟨hwait, ?_⟩
  cases hslot : s.slot (s.chan a).driver with
  | none => rfl
  | some c =>
    obtain ⟨hw, hgone, -⟩ := hrel.slot _ c hslot
    rw [hwait] at hw
    cases hw
    rw [hok.2] at hgone
    cases hgone

/-- The driver of `b` does not answer, and the others do not touch its page. -/
theorem Sys.Stuck.driver_step (h : s.Stuck a b) (hstep : driverStep s d = some s') :
    (s'.chan b).readyReply = false := by
  obtain ⟨use, hrel⟩ := h.rel
  have hok := hrel.driver d
  unfold driverStep at hstep
  cases hq : s.driver d with
  | scan => rw [hq] at hstep; cases hstep
  | look c =>
    rw [hq] at hstep
    dsimp only at hstep
    split at hstep <;> obtain rfl := Option.some.inj hstep
    · by_cases hc : b = c
      · subst hc
        simpa [Sys.move] using h.reply
      · simpa [Sys.move, Sys.set_of_ne hc] using h.reply
    · exact h.reply
  | picked c | serve c | reply c m =>
    rw [hq] at hstep
    obtain rfl := Option.some.inj hstep
    exact h.reply
  | flag c m =>
    rw [hq] at hstep hok
    obtain rfl := Option.some.inj hstep
    have hc : b ≠ c := fun hc => by
      subst hc
      have hwait := h.waits.1
      rw [← h.driver, hok.1, hq] at hwait
      cases hwait
    simpa [Sys.move, Sys.set_of_ne hc] using h.reply
  | wait c =>
    rw [hq] at hstep
    dsimp only at hstep
    split at hstep
    · obtain rfl := Option.some.inj hstep
      exact h.reply
    · cases hstep

/-- No step ends the deadlock. -/
theorem Sys.Stuck.step (h : s.Stuck a b) (hstep : Step s ev s') :
    s'.Stuck a b ∧ (s'.chan a).driver = (s.chan a).driver := by
  obtain ⟨use, hrel⟩ := h.rel
  have hrel' := rel_step hrel hstep
  have huser : (s.chan b).user = .closing .pm := by
    have hok := hrel.pm
    rw [h.pm] at hok
    exact hok.1
  unfold Step at hstep
  cases ev with
  | create | copy | exit | exec | load | close | fs | pm =>
    simp [ChannelClose.step, fsStep, pmStep, closeStep, h.fs, h.pm, h.reply] at hstep
  | user c =>
    dsimp only [ChannelClose.step] at hstep
    split at hstep
    · cases hstep
    · have hc : b ≠ c := fun hc => by simp [userStep, ← hc, huser] at hstep
      obtain ⟨x, rfl, -, hdriver⟩ := userStep_cases hstep
      have hsame := set_part Chan.driver hdriver
      refine ⟨⟨hrel', h.fs, h.pm, ?_, ?_⟩, hsame a⟩
      · rw [hsame, hsame, h.driver]
      · rw [Sys.set_of_ne hc, h.reply]
  | entry d c =>
    dsimp only [ChannelClose.step] at hstep
    split at hstep
    · obtain rfl := Option.some.inj hstep
      exact ⟨⟨hrel', h.fs, h.pm, h.driver, h.reply⟩, rfl⟩
    · cases hstep
  | driver d =>
    obtain ⟨hf, hp, -⟩ := driverStep_servers hstep
    have hsame := (steady_driver hstep).driver
    refine ⟨⟨hrel', hf.trans h.fs, hp.trans h.pm, ?_, h.driver_step hstep⟩, hsame a⟩
    rw [hsame, hsame, h.driver]

/-- The driver waits for ever. -/
theorem Sys.Stuck.forever (h : s.Stuck a b) (hrun : Run Step s evs t) :
    t.driver (s.chan a).driver = .wait a ∧ t.slot (s.chan a).driver = none := by
  obtain ⟨ht, hd⟩ := hrun.invariant
    (I := fun t => t.Stuck a b ∧ (t.chan a).driver = (s.chan a).driver)
    (fun u ev u' hst hu => ⟨(hu.1.step hst).1, (hu.1.step hst).2.trans hu.2⟩) ⟨h, rfl⟩
  exact hd ▸ ht.waits

end Deadlock

/-- FS closes the "stdout" of one client.  When the console driver has answered, another client with
an open "stdout" exits. -/
def crossedCloses : List Event :=
  [.create 0 .stdout, .create 1 .stdout, .close 0, .fs, .fs, .fs, .entry 5 0, .driver 5, .driver 5,
    .driver 5, .driver 5, .exit [1], .pm, .pm, .pm, .pm, .fs]

theorem crossedCloses_isSome : (crossedCloses.foldlM step start).isSome := by decide

/-- After these steps the console driver waits for a message that is never sent. -/
theorem crossedCloses_stuck : ∃ t, Run Step start crossedCloses t ∧
    tally step (enters 0) start crossedCloses = 1 ∧
    ∀ evs u, Run Step t evs u → u.driver consoleId = .wait 0 ∧ u.slot consoleId = none := by
  have hrun : Run Step start crossedCloses _ :=
    .of_foldlM (Option.some_get crossedCloses_isSome).symm
  refine ⟨_, hrun, by decide, fun evs u hrest => ?_⟩
  have hstuck : ((crossedCloses.foldlM step start).get crossedCloses_isSome).Stuck 0 1 :=
    ⟨(safe_of_run start_initial hrun).1, by decide, by decide, by decide, by decide⟩
  have hd : (((crossedCloses.foldlM step start).get crossedCloses_isSome).chan 0).driver =
      consoleId := by decide
  exact hd ▸ hstuck.forever hrest

end Savannah.ChannelClose
