import Savannah.Pm.Conservation

/-!
# What parents are told

What PM reports about exits, in every run, given that `local_exit` looks only at the mark of the
parent.

* The status of a child reaches its parent if and only if the mark is set when the child exits
  (`delivered_iff`).
* INIT can start one child after the other, as often as it likes: each of them gets the same CPU,
  each status is reported once, and PM has all memory back in between (`rounds_of_init`).
* The messages of a request are all expected by their receivers if and only if, for an exit with
  the mark set, the parent still waits (`solicited_iff`).
-/

namespace Savannah

open Foundation PmState

/-! ### The status of a child -/

/-- The message, in PM's own name, tells about the exit of `child`. -/
def Post.reports (child : ℕ) (m : Post) : Bool :=
  m.slot = pmId && match m.data with
    | .waitpid c _ => c = (child : ℤ)
    | _ => false

/-- PM serves a request after `C` has exited: `C` makes none, and its CPU, if it is free, is not
given to another VM. -/
def retiredStep (C : ℕ) (s : PmState) (e : PmEvent) (t : PmState) : Prop :=
  pmStep s e t ∧ e.sender ≠ C ∧ ((s.cpus C).hasVm = false → (t.cpus C).hasVm = false)

/-- In a run, `P` forks `C`, which gets the state `t`; `C` exits with `status` in the state `x`, and
PM goes on to the state `u`.  In between PM serves any requests, among them a `waitpid` of `P` for
`C` or for any child, before or after the exit. -/
structure Lifetime (P C : ℕ) (status : ℤ) (t x u : PmState) : Prop where
  forked : ∃ s₀ s before args, s₀.Booted ∧ Run pmStep s₀ before s ∧ pmStep s ⟨P, .fork args⟩ t ∧
    (s.cpus C).hasVm = false ∧ (t.cpus C).hasVm = true
  handled : ∃ y during after w, Run (guarded pmStep fun _ e => ∀ st, e ≠ ⟨C, .exit st⟩) t during x ∧
    pmStep x ⟨C, .exit status⟩ y ∧ Run (retiredStep C) y after u ∧
    (w = (C : ℤ) ∨ w = -1) ∧ ⟨P, .waitpid w⟩ ∈ during ++ after

/-- Since the fork, `P` has been told once about the exit of `C`, with the status, and the CPU of
`C` is free. -/
def Delivered (P C : ℕ) (status : ℤ) (t u : PmState) : Prop :=
  (u.posted.drop t.posted.length).filter (Post.reports C) = [exitReport P C status] ∧
    (u.cpus C).hasVm = false

section Status

variable {s t x y u : PmState} {P C : ℕ} {status : ℤ} {e : PmEvent}

theorem reports_exitReport (P C : ℕ) (status : ℤ) : (exitReport P C status).reports C = true := by
  simp [Post.reports, exitReport]

/-- Only the exit of `C` is reported as such. -/
theorem reports_of_step (hs : s.procTable.Sound) (hstep : pmStep s e t)
    (hexit : ∀ st, e ≠ ⟨C, .exit st⟩) :
    ∃ ms, t.posted = s.posted ++ ms ∧ ms.filter (Post.reports C) = [] := by
  obtain ⟨ms, hms, hall⟩ := hs.posts hstep.next
  refine ⟨ms, hms, List.filter_eq_nil_iff.mpr fun m hm hrep => ?_⟩
  obtain ⟨hslot, hdata⟩ := Bool.and_eq_true_iff.mp hrep
  rcases hall m hm (of_decide_eq_true hslot) with ⟨-, hanswer⟩ | ⟨-, r, hr⟩ | ⟨st, hreq, -, rfl⟩
  · cases hd : m.data with
    | waitpid child st =>
      rw [hd] at hdata
      have hchild := hanswer child st hd
      have heq : child = C := of_decide_eq_true hdata
      omega
    | result r => rw [hd] at hdata; cases hdata
    | channel a => rw [hd] at hdata; cases hdata
  · rw [hr] at hdata
    cases hdata
  · have heq : ((e.sender : ℕ) : ℤ) = C := of_decide_eq_true hdata
    refine hexit st ?_
    obtain ⟨c, req⟩ := e
    dsimp only at heq hreq
    rw [hreq, Int.natCast_inj.mp heq]

/-- What holds from the fork of `C` to its exit: it has its CPU and its parent, and no exit of `C`
has been reported. -/
structure Living (P C : ℕ) (t x : PmState) : Prop where
  sound : x.procTable.Sound
  hasVm : (x.cpus C).hasVm = true
  parent : (x.cpus C).vm.parent = P
  quiet : ∃ ms, x.posted = t.posted ++ ms ∧ ms.filter (Post.reports C) = []

/-- A VM lives until it exits. -/
theorem Living.step (h : Living P C t x) (hstep : pmStep x e y)
    (hexit : ∀ st, e ≠ ⟨C, .exit st⟩) : Living P C t y := by
  obtain ⟨ms, hms, hquiet⟩ := h.quiet
  obtain ⟨ms', hms', hquiet'⟩ := reports_of_step h.sound hstep hexit
  obtain ⟨hvm, hparent⟩ := h.sound.keeps hstep.next (i := C) h.hasVm hexit
  refine ⟨h.sound.step hstep.next, hvm, hparent.trans h.parent, ms ++ ms', ?_, ?_⟩
  · rw [hms', hms, List.append_assoc]
  · rw [List.filter_append, hquiet, hquiet']
    rfl

/-- The fork. -/
theorem living_of_fork {args : ForkArgs} (hs : s.procTable.Sound)
    (hstep : pmStep s ⟨P, .fork args⟩ t) (hfree : (s.cpus C).hasVm = false)
    (hvm : (t.cpus C).hasVm = true) : Living P C t t := by
  refine ⟨hs.step hstep.next, hvm, ?_, [], (List.append_nil _).symm, rfl⟩
  obtain ⟨hP, hnext⟩ := hstep.next
  dsimp only at hP hnext
  have hvm' : (t.procTable.procs C).hasVm = true := hvm
  change (t.procTable.procs C).parent = P
  generalize t.procTable = q at hnext hvm'
  cases hnext with
  | forkFailed => exact absurd (hfree.symm.trans hvm') Bool.false_ne_true
  | @forked _ child hchild hfree' =>
    by_cases hC : C = child
    · rw [hC, ProcTable.post_procs, ProcTable.set_self]
      exact hs.cpuid P hP
    · rw [ProcTable.post_procs, ProcTable.set_of_ne hC] at hvm'
      exact absurd (hfree.symm.trans hvm') Bool.false_ne_true

/-- The exit: the status is reported and the CPU becomes free, or neither. -/
theorem Living.exit (h : Living P C t x) (hstep : pmStep x ⟨C, .exit status⟩ y) :
    if (x.cpus P).vm.state = .waitChld then
      (∃ ms, y.posted = t.posted ++ ms ∧ ms.filter (Post.reports C) = [exitReport P C status]) ∧
        (y.cpus C).hasVm = false
    else (y.cpus C).hasVm = true := by
  obtain ⟨ms, hms, hquiet⟩ := h.quiet
  obtain ⟨hC, hnext⟩ := hstep.next
  dsimp only at hC hnext
  have hparent : (x.procTable.procs C).parent = P := h.parent
  have hfs : ∀ ms' : List Post, (∀ m ∈ ms', m.slot = fsId) → ms'.filter (Post.reports C) = [] := by
    intro ms' hms'
    refine List.filter_eq_nil_iff.mpr fun m hm hrep => ?_
    have hslot : m.slot = pmId := of_decide_eq_true (Bool.and_eq_true_iff.mp hrep).1
    rw [hms' m hm] at hslot
    cases hslot
  change if (x.procTable.procs P).state = .waitChld then
      (∃ ms, y.procTable.posted = t.posted ++ ms ∧ _) ∧ (y.procTable.procs C).hasVm = false
    else (y.procTable.procs C).hasVm = true
  generalize y.procTable = q at hnext
  cases hnext with
  | @exitWaited _ ms' hms' hwait =>
    rw [hparent] at hwait
    rw [if_pos hwait]
    refine ⟨⟨ms ++ (ms' ++ [exitReport P C status]), ?_, ?_⟩, ?_⟩
    · have hP : (x.procTable.procs P).cpuid = P := by
        rw [← hparent]
        exact h.sound.cpuid _ (h.sound.parent C)
      rw [ProcTable.post_posted, ProcTable.set_posted, hparent, hP, h.sound.cpuid C hC,
        ← List.append_assoc t.posted, ← hms]
      rfl
    · rw [List.filter_append, List.filter_append, hquiet, hfs ms' hms',
        List.filter_cons_of_pos (reports_exitReport P C status)]
      rfl
    · rw [ProcTable.post_procs, ProcTable.set_self]
  | @exitUnwaited _ ms' hms' hwait =>
    rw [hparent] at hwait
    rw [if_neg hwait, ProcTable.post_procs, ProcTable.set_self]
    exact h.hasVm

end Status

/-! ### One child after the other -/

/-- PM without VMs other than the servers and INIT, which can fork. -/
structure PmState.Idle (pool : ℕ) (args : ForkArgs) (s : PmState) : Prop where
  accounted : ∃ maps, s.Accounted pool (maxChannels + 1) maps
  machine : s.machine.Sound
  procs : s.procTable.Sound
  ready : s.InitReady args
  cpu : alwaysBusy < s.ncpus
  room : forkCost (s.cpus initId).vm < pool
  live : s.live = ∅
  opened : s.openChannels = []
  ok : s.allocFailed = false

/-- The state with the mark that the CPU `c` waits. -/
def PmState.marked (c : ℕ) (s : PmState) : PmState :=
  s.updateVm c fun v => { v with state := .waitChld }

section Rounds

variable {s s₀ t x u : PmState} {pool c d : ℕ} {w status : ℤ} {args : ForkArgs}

theorem marked_self :
    (s.marked c).cpus c = { s.cpus c with vm := { (s.cpus c).vm with state := .waitChld } } :=
  updateVm_cpus s c _

theorem marked_of_ne (h : d ≠ c) : (s.marked c).cpus d = s.cpus d := Function.update_of_ne h _ _

/-- PM is idle at boot. -/
theorem PmState.Fresh.idle (h : s.Fresh pool) (hi : s.InitReady args) (hcpu : alwaysBusy < s.ncpus)
    (hroom : forkCost (s.cpus initId).vm < pool) (hok : s.allocFailed = false) :
    s.Idle pool args :=
  ⟨⟨_, h.accounted _ fun _ => ⟨[], []⟩⟩, h.machine, h.booted.sound, hi, hcpu, hroom, h.live,
    h.opened, hok⟩

/-- Nobody holds a page. -/
theorem PmState.Idle.ledger (h : s.Idle pool args) : Ledger s.memory pool 0 0 := by
  obtain ⟨maps, hacc⟩ := h.accounted
  have hled := hacc.ledger
  have hall : s.exclusiveBlocks = 0 ∧ s.shared s.live = 0 := by
    unfold PmState.exclusiveBlocks PmState.tables PmState.own PmState.shared PmState.channelBlocks
    rw [h.live, h.opened]
    exact ⟨rfl, rfl⟩
  rw [hall.1, hall.2] at hled
  exact hled

theorem PmState.Idle.reserve (h : s.Idle pool args) :
    s.Reserve pool (0 + forkCost (s.cpus initId).vm) := by
  refine ⟨⟨_, h.ledger.free_pool, _, List.mem_singleton_self _, rfl, ?_⟩, h.ok⟩
  rw [Nat.zero_add]
  exact h.room

/-- INIT forks. -/
theorem PmState.Idle.fork (h : s.Idle pool args) : ∃ t, pmStep s ⟨initId, .fork args⟩ t ∧
    InitForked pool (maxChannels + 1) 0 1 s t := by
  have hbefore : InitForked pool (maxChannels + 1) (0 + forkCost (s.cpus initId).vm) 0 s s := by
    refine ⟨h.accounted, rfl, rfl, h.ready.hasVm, fun j => ?_, fun j hj => ?_, h.opened, h.reserve⟩
    · rw [h.live]
      exact iff_of_false (Finset.notMem_empty j) fun hj => absurd hj.1 (not_le.mpr hj.2)
    · rw [h.live] at hj
      exact absurd hj (Finset.notMem_empty j)
  obtain ⟨-, t, hstep, hforked⟩ := hbefore.step (Nat.le_succ _) h.machine h.ready h.cpu
  exact ⟨t, hstep, hforked⟩

/-- A wait that PM does not refuse marks the CPU. -/
theorem waitpid_marks (hp : s.procTable.Sound) (hc : c < s.ncpus) (hmay : s.procTable.MayWait c w) :
    pmStep s ⟨c, .waitpid w⟩ (s.marked c) := by
  have hcpu : getCpuInfo c = some c := if_neg (not_lt.mpr ((Nat.le_of_lt hc).trans hp.ncpus_le))
  have hfind : findChild s c w = some none := by
    have hspec := findChild_spec s c w
    rcases hf : findChild s c w with _ | _ | child
    all_goals rw [hf] at hspec
    · exact absurd hmay hspec
    · exact absurd hspec (hp.alive child)
  have hwait : localWaitpid c w s = .ok none (s.marked c) := by
    have hmarks : wp (localWaitpid c w) (fun r t => r = none ∧ t = s.marked c)
        (fun _ _ => False) s := by
      unfold localWaitpid
      rw [hcpu]
      dsimp only
      rw [wp_bind, wp_get, hfind]
      exact ⟨rfl, rfl⟩
    obtain ⟨_, _, heq, rfl, rfl⟩ := hmarks.exists_ok fun _ _ he => he
    exact heq
  refine ⟨hc, ?_⟩
  change EStateM.bind (localWaitpid c w) _ s = _
  unfold EStateM.bind
  rw [hwait]
  rfl

/-- The child of INIT, which has done nothing, can exit while INIT waits; PM is then idle again. -/
theorem PmState.Idle.exit (h : s.Idle pool args)
    (hforked : InitForked pool (maxChannels + 1) 0 1 s t)
    (hp : t.procTable.Sound) (hwait : pmStep t ⟨initId, .waitpid w⟩ (t.marked initId))
    (status : ℤ) :
    ∃ u, pmStep (t.marked initId) ⟨alwaysBusy, .exit status⟩ u ∧
      ((u.cpus alwaysBusy).hasVm = false → u.Idle pool args) := by
  obtain ⟨maps, hacc⟩ := hforked.accounted
  have hlive : ∀ j, j ∈ t.live ↔ j = alwaysBusy := by
    intro j
    rw [hforked.live]
    constructor
    · rintro ⟨hge, hlt⟩
      exact le_antisymm (Nat.le_of_lt_succ hlt) hge
    · rintro rfl
      decide
  have hmem : alwaysBusy ∈ t.live := (hlive alwaysBusy).mpr rfl
  have hne : alwaysBusy ≠ initId := by decide
  -- the state in which INIT waits
  obtain ⟨hmach, hp'⟩ := pmStep_sound hp hwait
  rw [hforked.machine] at hmach
  have hm : (t.marked initId).machine.Sound := hmach ▸ h.machine
  have hacc' : (t.marked initId).Accounted pool (maxChannels + 1) maps :=
    (hacc.updateCpu (L := ∅) (f := fun i => { i with vm := { i.vm with state := .waitChld } })
      (fun _ => rfl) fun _ => rfl).1
  have hnone : closedChannels ((t.marked initId).descriptors alwaysBusy)
      (List.range maxFd) = [] := by
    refine List.map_eq_nil_iff.mpr (List.filter_eq_nil_iff.mpr fun i hi hchar => ?_)
    have hzero := (hforked.child _ hmem).descriptors i (List.mem_range.mp hi)
    have hsame : (t.marked initId).descriptors alwaysBusy = t.descriptors alwaysBusy :=
      descriptors_congr (by rw [marked_of_ne hne]) fun _ => rfl
    have htype : ((t.marked initId).descriptors alwaysBusy i).type = typeChar :=
      of_decide_eq_true hchar
    rw [hsame, hzero] at htype
    exact absurd htype (by decide)
  have hchan : (t.marked initId).channelsOf alwaysBusy = [] := by
    unfold PmState.channelsOf
    change List.map _ (List.filter _ t.openChannels) = []
    rw [hforked.opened]
    rfl
  have hparent : ((t.marked initId).cpus alwaysBusy).vm.parent ≤ maxCpus := by
    rw [marked_of_ne hne, (hforked.child _ hmem).adopted.parent]
    decide
  have hroom : ∀ a ∈ closedChannels ((t.marked initId).descriptors alwaysBusy) (List.range maxFd),
      CloseRoom (maxChannels + 1) (t.marked initId) a := by
    rw [hnone]
    exact fun a ha => absurd ha List.not_mem_nil
  have hfds : FdsOpen (t.marked initId) ((t.marked initId).descriptors alwaysBusy) := by
    constructor
    all_goals rw [hnone]
    · exact List.nodup_nil
    · exact fun a ha => absurd ha List.not_mem_nil
  obtain ⟨u, hu, hdep, hok, -⟩ := hacc'.exit_returns status le_rfl hm hmem hchan hroom hfds hparent
    hforked.reserve.ok
  have hlt : alwaysBusy < (t.marked initId).ncpus := by
    have hncpus : (t.marked initId).ncpus = s.ncpus := congrArg Machine.ncpus hmach
    rw [hncpus]
    exact h.cpu
  have hstep : pmStep (t.marked initId) ⟨alwaysBusy, .exit status⟩ u := ⟨hlt, hu⟩
  refine ⟨u, hstep, fun hfree => ?_⟩
  obtain ⟨hmach', hprocs⟩ := pmStep_sound hp' hstep
  have hmachine : u.machine = s.machine := hmach'.trans hmach
  have hncpus : u.ncpus = s.ncpus := congrArg Machine.ncpus hmachine
  have hinit : (u.cpus initId).vm = { (s.cpus initId).vm with state := .waitChld } := by
    rw [hdep.cpus initId hne.symm, ← hforked.init, marked_self]
  refine ⟨⟨maps, ?_⟩, hmachine ▸ h.machine, hprocs, ⟨?_, fun j => ?_, ?_, ?_⟩, ?_, ?_, ?_, ?_, hok⟩
  · exact ((hacc'.exit (P := True) status le_rfl hm hmem hchan hroom fun _ =>
      ⟨hfds, hparent⟩).ok hu).1
  · rw [hncpus]
    exact h.ready.init
  · by_cases hj : j = alwaysBusy
    · rw [hj, hfree]
      exact iff_of_false Bool.false_ne_true (lt_irrefl _)
    · rw [hdep.cpus j hj]
      have hsame : ((t.marked initId).cpus j).hasVm = (t.cpus j).hasVm := by
        by_cases hji : j = initId
        · rw [hji, marked_self]
        · rw [marked_of_ne hji]
      rw [hsame, hforked.hasVm]
      constructor
      · intro hle
        exact lt_of_le_of_ne (Nat.le_of_lt_succ hle) hj
      · exact Nat.lt_succ_of_lt
  · rw [hinit]
    have hready := h.ready.ready
    exact ⟨hready.order, hready.stack, hready.reach, hready.cpuinfo, hready.memory⟩
  · exact (congrArg Machine.has1GB hmachine).trans h.ready.pages
  · rw [hncpus]
    exact h.cpu
  · rw [hinit]
    exact h.room
  · rw [hdep.live]
    refine Finset.eq_empty_of_forall_notMem fun j hj => ?_
    exact Finset.ne_of_mem_erase hj ((hlive j).mp (Finset.mem_of_mem_erase hj))
  · rw [hdep.opened]
    change List.filter _ t.openChannels = []
    rw [hforked.opened]
    rfl

/-- INIT forks and waits, and the child exits: its status is reported, and PM is idle again. -/
theorem PmState.Idle.round (h : s.Idle pool args) (status : ℤ) (hw : w = alwaysBusy ∨ w = -1) :
    ∃ t u, pmStep s ⟨initId, .fork args⟩ t ∧ Living initId alwaysBusy t t ∧
      pmStep t ⟨initId, .waitpid w⟩ (t.marked initId) ∧
      pmStep (t.marked initId) ⟨alwaysBusy, .exit status⟩ u ∧ u.Idle pool args := by
  obtain ⟨t, hfork, hforked⟩ := h.fork
  have hfree : (s.cpus alwaysBusy).hasVm = false := by
    rw [← Bool.not_eq_true, h.ready.hasVm]
    exact lt_irrefl _
  have hvm : (t.cpus alwaysBusy).hasVm = true := (hforked.hasVm _).mpr (by decide)
  have hliving := living_of_fork h.procs hfork hfree hvm
  have hlt : initId < t.ncpus := by
    have hncpus : t.ncpus = s.ncpus := congrArg Machine.ncpus hforked.machine
    rw [hncpus]
    exact h.ready.init
  have hmay : t.procTable.MayWait initId w := by
    refine ⟨by rcases hw with rfl | rfl <;> decide, fun hne => ?_⟩
    obtain rfl := hw.resolve_right hne
    rw [hliving.sound.cpuid _ hlt]
    exact hliving.parent.symm
  have hwait := waitpid_marks hliving.sound hlt hmay
  obtain ⟨u, hexit, hidle⟩ := h.exit hforked hliving.sound hwait status
  refine ⟨t, u, hfork, hliving, hwait, hexit, hidle ?_⟩
  have hend := (hliving.step hwait fun st heq => by cases heq).exit hexit
  rw [marked_self, if_pos rfl] at hend
  exact hend.2

/-- On the machine with eight CPUs PM is idle after the boot. -/
theorem bootPm_idle : ∃ m, (bootPm m).Fresh 776224 ∧ (bootPm m).Idle 776224 bootArgs := by
  obtain ⟨m, s, hfresh, -⟩ := bootPm_forks (k := 0) (Nat.zero_le _)
  have hcost : forkCost ((bootPm m).cpus initId).vm < 776224 := by
    rw [show forkCost ((bootPm m).cpus initId).vm = 105963 from bootVm_cost]
    norm_num
  exact ⟨m, hfresh, hfresh.idle (bootPm_initReady m) (show 3 < 8 by decide) hcost rfl⟩

end Rounds

section Delivered

variable {t x u : PmState} {P C : ℕ} {status : ℤ}

/-- The exit status of a child reaches its parent, and the CPU of the child becomes free, if and
only if the parent is marked as waiting at the time of the exit. -/
theorem delivered_iff (h : Lifetime P C status t x u) :
    Delivered P C status t u ↔ (x.cpus P).vm.state = .waitChld := by
  obtain ⟨s₀, s, before, args, hboot, hbefore, hfork, hfree, hvm⟩ := h.forked
  obtain ⟨y, during, after, w, hduring, hexit, hafter, -, -⟩ := h.handled
  have hliving : Living P C t x := hduring.invariant (I := Living P C t)
    (fun _ _ _ hstep hx => hx.step hstep.2 hstep.1)
    (living_of_fork (procTable_sound hboot hbefore) hfork hfree hvm)
  have hend := hliving.exit hexit
  have hy : y.procTable.Sound := hliving.sound.step hexit.next
  split at hend
  · rename_i hwait
    -- later requests report no exit of `C`, and leave its CPU free
    obtain ⟨ms, hms, hreport⟩ := hend.1
    obtain ⟨-, hu, ms', hms', hreport'⟩ := hafter.invariant
      (I := fun u => u.procTable.Sound ∧ (u.cpus C).hasVm = false ∧
        ∃ ms, u.posted = t.posted ++ ms ∧ ms.filter (Post.reports C) = [exitReport P C status])
      (fun a e b hstep ha => by
        obtain ⟨hstep, hne, hstay⟩ := hstep
        obtain ⟨hsound, hfree, ms, hms, hreport⟩ := ha
        obtain ⟨ms', hms', hquiet⟩ := reports_of_step (C := C) hsound hstep fun st heq =>
          hne (congrArg PmEvent.sender heq)
        refine ⟨hsound.step hstep.next, hstay hfree, ms ++ ms', ?_, ?_⟩
        · rw [hms', hms, List.append_assoc]
        · rw [List.filter_append, hquiet, List.append_nil, hreport])
      ⟨hy, hend.2, ms, hms, hreport⟩
    refine iff_of_true ⟨?_, hu⟩ hwait
    rw [hms', List.drop_left, hreport']
  · rename_i hwait
    -- the CPU is never given back
    obtain ⟨-, hu⟩ := hafter.invariant (I := fun u => u.procTable.Sound ∧ (u.cpus C).hasVm = true)
      (fun a e b hstep ha => by
        obtain ⟨hstep, hne, -⟩ := hstep
        exact ⟨ha.1.step hstep.next, (ha.1.keeps hstep.next (i := C) ha.2 fun st heq =>
          hne (congrArg PmEvent.sender heq)).1⟩)
      ⟨hy, hend⟩
    refine iff_of_false (fun hdel => ?_) hwait
    exact Bool.false_ne_true (hdel.2.symm.trans hu)

/-- INIT waits, and its child exits with the status 7. -/
theorem delivered_iff_waits : ∃ t x u, Lifetime initId alwaysBusy 7 t x u ∧
    (x.cpus initId).vm.state = .waitChld ∧ Delivered initId alwaysBusy 7 t u := by
  obtain ⟨m, hfresh, hidle⟩ := bootPm_idle
  obtain ⟨t, u, hfork, hliving, hwait, hexit, -⟩ := hidle.round 7 (Or.inr rfl)
  have hlife : Lifetime initId alwaysBusy 7 t (t.marked initId) u := by
    refine ⟨⟨bootPm m, bootPm m, [], bootArgs, hfresh.booted, .nil _, hfork, rfl, hliving.hasVm⟩,
      ⟨u, [⟨initId, .waitpid (-1)⟩], [], -1, ?_, hexit, .nil u, Or.inr rfl,
      List.mem_singleton_self _⟩⟩
    exact .cons ⟨fun st heq => (by cases heq), hwait⟩ (.nil _)
  have hmark : ((t.marked initId).cpus initId).vm.state = .waitChld := by rw [marked_self]
  exact ⟨t, _, u, hlife, hmark, (delivered_iff hlife).mpr hmark⟩

end Delivered

/-- INIT forks a child and waits, and the child exits. -/
def initRound (args : ForkArgs) (status : ℤ) : List PmEvent :=
  [⟨initId, .fork args⟩, ⟨initId, .waitpid (-1)⟩, ⟨alwaysBusy, .exit status⟩]

section Repeat

variable {s s₀ : PmState} {pool : ℕ} {args : ForkArgs}

/-- The rounds of init, one by one. -/
theorem PmState.Idle.rounds (h : s.Idle pool args) (statuses : List ℤ) :
    ∃ u ms, Run pmStep s (statuses.flatMap (initRound args)) u ∧ u.Idle pool args ∧
      u.posted = s.posted ++ ms ∧
      ms.filter (Post.reports alwaysBusy) = statuses.map (exitReport initId alwaysBusy) := by
  induction statuses generalizing s with
  | nil => exact ⟨s, [], .nil s, h, (List.append_nil _).symm, rfl⟩
  | cons status rest ih =>
    obtain ⟨t, v, hfork, hliving, hwait, hexit, hidle⟩ := h.round status (Or.inr rfl)
    obtain ⟨u, ms, hrun, hend, hms, hreports⟩ := ih hidle
    -- the fork reports nothing, the exit reports the status
    obtain ⟨ms₁, hms₁, hquiet⟩ :=
      reports_of_step (C := alwaysBusy) h.procs hfork fun st heq => by cases heq
    have hlast := (hliving.step hwait fun st heq => by cases heq).exit hexit
    rw [marked_self, if_pos rfl] at hlast
    obtain ⟨⟨ms₂, hms₂, hreport⟩, -⟩ := hlast
    refine ⟨u, ms₁ ++ ms₂ ++ ms, .cons hfork (.cons hwait (.cons hexit hrun)), hend, ?_, ?_⟩
    · rw [hms, hms₂, hms₁, List.append_assoc, List.append_assoc, List.append_assoc]
    · rw [List.filter_append, List.filter_append, hquiet, hreport, hreports]
      rfl

/-- INIT can start one child after the other, as often as it likes: the requests are served, each
status is reported once and in order, and at the end PM can hand out the whole pool again. -/
theorem rounds_of_init (hfresh : s₀.Fresh pool) (hi : s₀.InitReady args)
    (hcpu : alwaysBusy < s₀.ncpus) (hroom : forkCost (s₀.cpus initId).vm < pool)
    (hok : s₀.allocFailed = false) (statuses : List ℤ) :
    ∃ u, Run pmStep s₀ (statuses.flatMap (initRound args)) u ∧
      (u.posted.drop s₀.posted.length).filter (Post.reports alwaysBusy) =
        statuses.map (exitReport initId alwaysBusy) ∧
      (∀ j, (u.cpus j).hasVm = true ↔ j < alwaysBusy) ∧
      ∃ m, allocMemPages pool u.memory = .ok (u.memory.firstFreeAddr, m) := by
  obtain ⟨u, ms, hrun, hidle, hms, hreports⟩ :=
    (hfresh.idle hi hcpu hroom hok).rounds statuses
  refine ⟨u, hrun, ?_, hidle.ready.hasVm, hidle.ledger.alloc_pool⟩
  rw [hms, List.drop_left, hreports]

theorem rounds_of_init_three : ∃ (m : MemoryState) (u : PmState),
    Run pmStep (bootPm m) ([7, 0, -1].flatMap (initRound bootArgs)) u ∧
    u.posted.filter (Post.reports alwaysBusy) = [7, 0, -1].map (exitReport initId alwaysBusy) := by
  obtain ⟨m, hfresh, hidle⟩ := bootPm_idle
  obtain ⟨u, hrun, hreports, -⟩ :=
    rounds_of_init hfresh hidle.ready hidle.cpu hidle.room hidle.ok [7, 0, -1]
  exact ⟨m, u, hrun, hreports⟩

end Repeat

/-! ### Messages that nobody waits for -/

/-- The number of a request. -/
def Request.number : Request → ℕ
  | .fork _ => forkIpc
  | .exec _ => execIpc
  | .exit _ => exitIpc
  | .waitpid _ => waitpidIpc
  | .channel _ _ => channelIpc
  | .channelClose _ => channelCloseIpc
  | .other number => number

/-- PM, with the numbers of the requests of each CPU that it has not answered. -/
structure Traffic where
  pm : PmState
  unanswered : ℕ → Multiset ℕ

/-- The requests that are left after a message. -/
def settle (q : ℕ → Multiset ℕ) (m : Post) : ℕ → Multiset ℕ :=
  if m.slot = pmId then Function.update q m.dst ((q m.dst).erase m.number) else q

/-- The open requests when PM serves `e`. -/
def Traffic.asked (x : Traffic) (e : PmEvent) : ℕ → Multiset ℕ :=
  Function.update x.unanswered e.sender (e.request.number ::ₘ x.unanswered e.sender)

/-- The messages that PM has posted between two states. -/
def newPosts (s t : PmState) : List Post := t.posted.drop s.posted.length

/-- One request.  A VM that exits waits for no answer. -/
def trafficStep (x : Traffic) (e : PmEvent) (y : Traffic) : Prop :=
  pmStep x.pm e y.pm ∧ y.unanswered =
    let q := (newPosts x.pm y.pm).foldl settle (x.asked e)
    match e.request with
    | .exit _ => Function.update q e.sender 0
    | _ => q

/-- PM after the boot: no request has been made. -/
structure Traffic.Booted (x : Traffic) : Prop where
  pm : x.pm.Booted
  idle : x.unanswered = fun _ => 0

/-- Each message in PM's own name answers a request that is open, or starts a VM that has just been
placed on its CPU. -/
def Solicited (fresh : ℕ → Prop) : (ℕ → Multiset ℕ) → List Post → Prop
  | _, [] => True
  | q, m :: ms => (m.slot = pmId → m.number ∈ q m.dst ∨ m.number = forkIpc ∧ fresh m.dst) ∧
      Solicited fresh (settle q m) ms

/-- A VM has been placed on the CPU `i`. -/
def Placed (s t : PmState) (i : ℕ) : Prop := (s.cpus i).hasVm = false ∧ (t.cpus i).hasVm = true

/-- If the parent of a VM that exits is marked as waiting, it does wait. -/
def Traffic.ParentWaits (x : Traffic) (e : PmEvent) : Prop :=
  ∀ status, e.request = .exit status →
    (x.pm.cpus (x.pm.cpus e.sender).vm.parent).vm.state = .waitChld →
    waitpidIpc ∈ x.unanswered (x.pm.cpus e.sender).vm.parent

section Messages

variable {fresh : ℕ → Prop} {q : ℕ → Multiset ℕ} {ms : List Post} {x x₀ y : Traffic} {e : PmEvent}
  {evs : List PmEvent}

/-- Messages in the name of FS do not matter. -/
theorem solicited_fs_append (hms : ∀ m ∈ ms, m.slot = fsId) (l : List Post) :
    Solicited fresh q (ms ++ l) ↔ Solicited fresh q l := by
  induction ms generalizing q with
  | nil => exact Iff.rfl
  | cons m ms ih =>
    obtain ⟨hm, hms⟩ := List.forall_mem_cons.mp hms
    have hslot : m.slot ≠ pmId := by
      rw [hm]
      decide
    have hsettle : settle q m = q := if_neg hslot
    rw [List.cons_append, Solicited, hsettle, ih hms]
    exact and_iff_right fun h => absurd h hslot

/-- The answer to the request that is served. -/
theorem solicited_answer (x : Traffic) (e : PmEvent) (d : Payload) :
    Solicited fresh (x.asked e) [⟨pmId, e.sender, e.request.number, d⟩] := by
  refine ⟨fun _ => Or.inl ?_, trivial⟩
  rw [Traffic.asked, Function.update_self]
  exact Multiset.mem_cons_self _ _

theorem newPosts_eq {s t : PmState} (h : t.posted = s.posted ++ ms) : newPosts s t = ms := by
  rw [newPosts, h, List.drop_left]

/-- In every run, the messages that PM posts for a request are all expected, if and only if the
parent of a VM that exits waits whenever it is marked as waiting. -/
theorem solicited_iff (hboot : x₀.Booted) (hrun : Run trafficStep x₀ evs x)
    (hstep : trafficStep x e y) :
    Solicited (Placed x.pm y.pm) (x.asked e) (newPosts x.pm y.pm) ↔ x.ParentWaits e := by
  have hsound : x.pm.procTable.Sound :=
    procTable_sound hboot.pm (hrun.map (f := Traffic.pm) fun _ _ _ h => h.1)
  obtain ⟨hc, hnext⟩ := hstep.1.next
  obtain ⟨c, req⟩ := e
  dsimp only at hc hnext
  generalize hy : y.pm.procTable = p at hnext
  have hposted : y.pm.posted = p.posted := congrArg ProcTable.posted hy
  -- a request other than an exit meets the condition
  have hnoexit : ∀ {e : PmEvent}, (∀ status, e.request ≠ .exit status) → x.ParentWaits e :=
    fun hne status hreq => absurd hreq (hne status)
  have hanswer : ∀ {n : ℕ} {d : Payload}, n = req.number → p.posted = x.pm.posted ++
    [⟨pmId, c, n, d⟩] → (∀ status, req ≠ .exit status) →
      (Solicited (Placed x.pm y.pm) (x.asked ⟨c, req⟩) (newPosts x.pm y.pm) ↔
        x.ParentWaits ⟨c, req⟩) := by
    intro n d hn heq hne
    rw [newPosts_eq (hposted.trans heq), hn]
    exact iff_of_true (solicited_answer x ⟨c, req⟩ d) (hnoexit hne)
  cases hnext with
  | forkFailed => exact hanswer rfl rfl nofun
  | @forked args child hchild hfree =>
    have hid : (x.pm.procTable.procs child).cpuid = child := hsound.cpuid child hchild.2
    have hplaced : Placed x.pm y.pm child := by
      refine ⟨hfree, ?_⟩
      have hvm : (y.pm.cpus child).hasVm = _ :=
        congrArg Proc.hasVm (congrFun (congrArg ProcTable.procs hy) child)
      rw [hvm, ProcTable.post_procs, ProcTable.set_self]
    rw [newPosts_eq hposted, hid]
    refine iff_of_true ⟨fun _ => Or.inr ⟨rfl, hplaced⟩, fun _ => ?_, trivial⟩ (hnoexit nofun)
    by_cases hself : c = child
    · exact Or.inr ⟨rfl, hself ▸ hplaced⟩
    · refine Or.inl ?_
      rw [settle, if_pos rfl, Function.update_of_ne hself, Traffic.asked, Function.update_self]
      exact Multiset.mem_cons_self _ _
  | @exitWaited status ms hms hwait =>
    have hid : (x.pm.procTable.procs (x.pm.procTable.procs c).parent).cpuid =
      (x.pm.cpus c).vm.parent := hsound.cpuid _ (hsound.parent c)
    have hasked : waitpidIpc ∈ x.asked ⟨c, .exit status⟩ (x.pm.cpus c).vm.parent ↔
        waitpidIpc ∈ x.unanswered (x.pm.cpus c).vm.parent := by
      unfold Traffic.asked
      by_cases hself : (x.pm.cpus c).vm.parent = c
      · rw [hself, Function.update_self, Multiset.mem_cons]
        exact or_iff_right (show ¬ waitpidIpc = exitIpc by decide)
      · rw [Function.update_of_ne hself]
    rw [newPosts_eq hposted, solicited_fs_append hms, hid]
    constructor
    · rintro ⟨hreport, -⟩ status' - -
      exact hasked.mp ((hreport rfl).resolve_right fun h =>
        absurd h.1 (show ¬ waitpidIpc = forkIpc by decide))
    · intro hparent
      exact ⟨fun _ => Or.inl (hasked.mpr (hparent status rfl hwait)), trivial⟩
  | @exitUnwaited status ms hms hwait =>
    rw [newPosts_eq hposted]
    refine iff_of_true ?_ fun _ _ hmark => absurd hmark hwait
    rw [← List.append_nil ms, solicited_fs_append hms]
    trivial
  | refused hw => exact hanswer rfl rfl nofun
  | reaped hzombie => exact absurd hzombie (hsound.alive _)
  | waits hw =>
    rw [newPosts_eq (hposted.trans (List.append_nil _).symm)]
    exact iff_of_true trivial (hnoexit nofun)
  | exec r => exact hanswer rfl rfl nofun
  | channel => exact hanswer rfl rfl nofun
  | channelClose => exact hanswer rfl rfl nofun
  | other => exact hanswer rfl rfl nofun

/-- INIT waits, and the report about its child is expected. -/
theorem solicited_iff_waits : ∃ (x y : Traffic), trafficStep x ⟨alwaysBusy, .exit 7⟩ y ∧
    (x.pm.cpus initId).vm.state = .waitChld ∧
    Solicited (Placed x.pm y.pm) (x.asked ⟨alwaysBusy, .exit 7⟩) (newPosts x.pm y.pm) := by
  obtain ⟨m, hfresh, hidle⟩ := bootPm_idle
  obtain ⟨t, u, hfork, hliving, hwait, hexit, -⟩ := hidle.round 7 (Or.inr rfl)
  obtain ⟨q₁, hq₁⟩ : ∃ q : ℕ → Multiset ℕ, q = (newPosts (bootPm m) t).foldl settle
    (Traffic.asked ⟨bootPm m, fun _ => 0⟩ ⟨initId, .fork bootArgs⟩) := ⟨_, rfl⟩
  have hfork' : trafficStep ⟨bootPm m, fun _ => 0⟩ ⟨initId, .fork bootArgs⟩ ⟨t, q₁⟩ := ⟨hfork, hq₁⟩
  -- a wait that is not refused leaves the request open
  have hnone : newPosts t (t.marked initId) = [] := newPosts_eq (List.append_nil _).symm
  have hwait' : trafficStep ⟨t, q₁⟩ ⟨initId, .waitpid (-1)⟩
      ⟨t.marked initId, Traffic.asked ⟨t, q₁⟩ ⟨initId, .waitpid (-1)⟩⟩ := by
    refine ⟨hwait, ?_⟩
    dsimp only
    rw [hnone]
    rfl
  let x : Traffic := ⟨t.marked initId, Traffic.asked ⟨t, q₁⟩ ⟨initId, .waitpid (-1)⟩⟩
  obtain ⟨q₂, hq₂⟩ : ∃ q : ℕ → Multiset ℕ, q = Function.update ((newPosts x.pm u).foldl settle
    (x.asked ⟨alwaysBusy, .exit 7⟩)) alwaysBusy 0 := ⟨_, rfl⟩
  have hexit' : trafficStep x ⟨alwaysBusy, .exit 7⟩ ⟨u, q₂⟩ := ⟨hexit, hq₂⟩
  have hparent : (x.pm.cpus alwaysBusy).vm.parent = initId := by
    change ((t.marked initId).cpus alwaysBusy).vm.parent = initId
    rw [marked_of_ne (by decide)]
    exact hliving.parent
  have hwaits : x.ParentWaits ⟨alwaysBusy, .exit 7⟩ := by
    intro _ _ _
    rw [hparent]
    change waitpidIpc ∈ Function.update q₁ initId (waitpidIpc ::ₘ q₁ initId) initId
    rw [Function.update_self]
    exact Multiset.mem_cons_self _ _
  refine ⟨x, _, hexit', ?_, ?_⟩
  · change ((t.marked initId).cpus initId).vm.state = _
    rw [marked_self]
  · exact (solicited_iff ⟨hfresh.booted, rfl⟩ (.cons hfork' (.cons hwait' (.nil _))) hexit').mpr
      hwaits

end Messages

end Savannah
