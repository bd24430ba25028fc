import Savannah.Pm.Load
import Savannah.Pm.Waiting

/-!
# The books in every run

PM keeps its books over whole runs: `PmState.Accounted` holds after boot, and every request that is
in order preserves it.  What is in order depends on the request: a fork needs room in the arrays of
the drivers for the channels of the child, a program without bss replaces only a program without
bss, a driver exits after its channels were closed.

Each request also has an effect on the descriptors and the channels, which other modules use; a
request that touches neither is `Quiet`.  Its effect on what the VMs see is a `ViewStep` for each of
them.
-/

namespace Savannah

open Foundation PmState MemoryState

/-! ### The invariant -/

/-- INIT, which the boot loader has placed outside of the pool. -/
structure PmState.InitPlaced (s : PmState) : Prop where
  placed : ∀ sec ∈ (s.cpus initId).vm.sections, sec.Placed
  outside : ∀ sec ∈ [(s.cpus initId).vm.code, (s.cpus initId).vm.rodata],
    reallocable s.memory sec.paddr = false

/-- The books are kept for the VMs that `local_fork` created and that have not exited; the entries
of arrays that were assigned have an index below `B`. -/
structure PmState.Accounted (pool B : ℕ) (maps : ℕ → View) (s : PmState) : Prop where
  books : Books pool s.live maps 0 0 s
  live : ∀ c ∈ s.live, alwaysBusy ≤ c ∧ c < s.ncpus ∧ (s.cpus c).hasVm = true
  idle : ∀ c ∉ s.live, (s.cpus c).vm.fds = 0 ∧ (s.cpus c).vm.channels = 0
  init : s.InitPlaced
  offsets : ∀ c ∈ s.live, ∀ i < maxFd, (s.descriptors c i).offset + 4096 ≤ 2 ^ 32
  writes : ∀ x ∈ s.arrayWrites, x.2 < B

/-- A step that touches neither descriptors nor channels. -/
structure Quiet (s t : PmState) : Prop where
  live : t.live = s.live
  opened : t.openChannels = s.openChannels
  pages : ∀ c ∈ s.live, (t.cpus c).vm.fds = (s.cpus c).vm.fds ∧
    (t.cpus c).vm.channels = (s.cpus c).vm.channels
  descriptors : ∀ c ∈ s.live, t.descriptors c = s.descriptors c

/-- How the view of the VM `c` comes from a step: channels were added to it, or `ept_pmap` has built
it, for the child of a fork or for a program that was loaded, which only the VMs of `L` do. -/
inductive ViewStep (L : Set ℕ) (s t : PmState) (c : ℕ) (x y : View) : Prop
  | kept (os : List OpenChannel) (hc : c ∈ s.live)
      (hhold : (t.cpus c).vm.holdings = (s.cpus c).vm.holdings)
      (hos : ∀ o ∈ os, o ∈ t.openChannels)
      (hold : ∀ o ∈ t.openChannels, o ∈ s.openChannels ∨ o ∈ os)
      (heq : y = ⟨x.regions ++ channelRegions os c, x.guest⟩)
  | forked (ts : List ℕ) (os : List OpenChannel) (hos : ∀ o ∈ os, o ∈ t.openChannels)
      (hold : ∀ o ∈ t.openChannels, o ∈ s.openChannels ∨ o ∈ os) (hc : c ∉ s.live)
      (heq : y = ⟨(t.viewOf c ts (t.cpus c).vm.pageList).regions ++ channelRegions os c, ts⟩)
  | loaded (ts : List ℕ) (heq : y = t.viewOf c ts (t.extraPages (t.cpus c).vm))
      (hc : c ∈ s.live) (hold : t.openChannels = s.openChannels) (hL : c ∈ L)

/-- How the views of all VMs come from a step; the pool stays where it is. -/
structure ViewsStep (L : Set ℕ) (maps maps' : ℕ → View) (s t : PmState) : Prop where
  layout : SameLayout s.memory t.memory
  views : ∀ c ∈ t.live, ViewStep L s t c (maps c) (maps' c)

section Requests

variable {pool B c d i : ℕ} {V : Finset ℕ} {maps maps' : ℕ → View} {s s' t : PmState} {P : Prop}
  {L : Set ℕ}

/-- A step that leaves the view of `c` alone. -/
theorem ViewStep.same (hc : c ∈ s.live) (hhold : (t.cpus c).vm.holdings = (s.cpus c).vm.holdings)
    (hold : ∀ o ∈ t.openChannels, o ∈ s.openChannels) (x : View) : ViewStep L s t c x x := by
  refine .kept [] hc hhold (fun o ho => absurd ho List.not_mem_nil)
    (fun o ho => Or.inl (hold o ho)) ?_
  rw [channelRegions, List.flatMap_nil, List.append_nil]

/-- Only the records, the CPUs and the channels matter. -/
theorem ViewStep.congr {x y : View} (h : ViewStep L s s' c x y) (hcpus : t.cpus = s'.cpus)
    (hbase : t.cpuinfoBase = s'.cpuinfoBase) (hopen : t.openChannels = s'.openChannels)
    (htable : t.fdTable = s'.fdTable) : ViewStep L s t c x y := by
  have hview : ∀ ts ps, t.viewOf c ts ps = s'.viewOf c ts ps := fun ts ps =>
    viewOf_congr (by unfold PmState.infoAddr; rw [hcpus, hbase]) (by rw [hcpus]) ts ps
  cases h with
  | kept os hc hhold hos hold heq =>
    exact .kept os hc (by rw [hcpus]; exact hhold) (by rw [hopen]; exact hos)
      (by rw [hopen]; exact hold) heq
  | forked ts os hos hold hc heq =>
    refine .forked ts os (by rw [hopen]; exact hos) (by rw [hopen]; exact hold) hc ?_
    rw [hview, hcpus]
    exact heq
  | loaded ts heq hc hold hL =>
    refine .loaded ts ?_ hc (hopen.trans hold) hL
    have hextra : t.extraPages (t.cpus c).vm = s'.extraPages (s'.cpus c).vm :=
      extraPages_congr (by rw [hcpus]) (by rw [hcpus]) fun _ => by rw [htable]
    rw [hview, hextra]
    exact heq

theorem ViewsStep.post (h : ViewsStep L maps maps' s t) (m : Post) :
    ViewsStep L maps maps' s (t.post m) :=
  ⟨h.layout, fun c hc => (h.views c hc).congr rfl rfl rfl rfl⟩

theorem ViewsStep.refl (maps : ℕ → View) (s : PmState) : ViewsStep L maps maps s s :=
  ⟨.refl _, fun _ hc => .same hc rfl (fun _ ho => ho) _⟩

/-- The descriptors depend on the record and on the page. -/
theorem descriptors_congr (hfds : (t.cpus c).vm.fds = (s.cpus c).vm.fds)
    (htable : (s.cpus c).vm.fds ≠ 0 → t.fdTable (s.cpus c).vm.fds = s.fdTable (s.cpus c).vm.fds) :
    t.descriptors c = s.descriptors c := by
  unfold PmState.descriptors
  rw [hfds]
  by_cases h0 : (s.cpus c).vm.fds = 0
  · rw [if_pos h0, if_pos h0]
  · rw [if_neg h0, if_neg h0, htable h0]

theorem mem_own_of_fds (hc : c ∈ V) (hne : (s.cpus c).vm.fds ≠ 0) :
    ((s.cpus c).vm.fds, 1) ∈ s.own V := by
  rw [own_eq hc]
  exact Multiset.mem_add.mpr (Or.inl (Multiset.mem_add.mpr (Or.inr (Multiset.mem_add.mpr
    (Or.inl (mem_blockAt hne))))))

/-- INIT is the same if its sections are. -/
theorem PmState.InitPlaced.congr (h : s.InitPlaced)
    (hsec : (t.cpus initId).vm.sections = (s.cpus initId).vm.sections)
    (hlay : SameLayout s.memory t.memory) : t.InitPlaced := by
  have hfive := hsec
  simp only [VmProc.sections, List.cons.injEq] at hfive
  refine ⟨by rw [hsec]; exact h.placed, fun sec hmem => ?_⟩
  rw [hlay.reallocable_eq]
  rw [hfive.1, hfive.2.2.1] at hmem
  exact h.outside sec hmem

/-- A quiet step keeps the books if it does so with those of the VMs. -/
theorem PmState.Accounted.quiet (h : s.Accounted pool B maps) (hq : Quiet s t)
    (hbooks : Books pool s.live maps' 0 0 t) (hncpus : t.ncpus = s.ncpus)
    (hvm : ∀ c ∈ s.live, (t.cpus c).hasVm = (s.cpus c).hasVm)
    (hother : ∀ c ∉ s.live, (t.cpus c).vm.holdings = (s.cpus c).vm.holdings)
    (hlay : SameLayout s.memory t.memory) (hwrites : t.arrayWrites = s.arrayWrites) :
    t.Accounted pool B maps' := by
  have hfree : ∀ c ∉ s.live, (t.cpus c).vm.sections = (s.cpus c).vm.sections ∧
      (t.cpus c).vm.fds = (s.cpus c).vm.fds ∧ (t.cpus c).vm.channels = (s.cpus c).vm.channels := by
    intro c hc
    have hhold := hother c hc
    simp only [VmProc.holdings, Prod.mk.injEq] at hhold
    exact ⟨hhold.1, hhold.2.2.2⟩
  have hinit : initId ∉ s.live := fun hmem => absurd (h.live _ hmem).1 (by decide)
  refine ⟨by rw [hq.live]; exact hbooks, fun c hc => ?_, fun c hc => ?_,
    h.init.congr (hfree _ hinit).1 hlay, fun c hc => ?_, by rw [hwrites]; exact h.writes⟩
  · rw [hq.live] at hc
    rw [hvm c hc, hncpus]
    exact h.live c hc
  · rw [hq.live] at hc
    rw [(hfree c hc).2.1, (hfree c hc).2.2]
    exact h.idle c hc
  · rw [hq.live] at hc
    rw [hq.descriptors c hc]
    exact h.offsets c hc

/-- A message. -/
theorem PmState.Accounted.post (h : s.Accounted pool B maps) (m : Post) :
    (s.post m).Accounted pool B maps :=
  ⟨h.books.post m, h.live, h.idle, ⟨h.init.placed, h.init.outside⟩, h.offsets, h.writes⟩

theorem PmState.Accounted.channels_mem (h : s.Accounted pool B maps) (d : ℕ)
    (hne : (s.cpus d).vm.channels ≠ 0) : d ∈ s.live := by
  by_contra hnot
  exact hne (h.idle d hnot).2

theorem Quiet.post (h : Quiet s t) (m : Post) : Quiet s (t.post m) :=
  ⟨h.live, h.opened, h.pages, h.descriptors⟩

/-- A step that assigns, besides the posts, only fields of records that say nothing about what is
held. -/
theorem PmState.Accounted.updateCpu (h : s.Accounted pool B maps) {f : CpuInfo → CpuInfo}
    (hf : ∀ i, (f i).vm.holdings = i.vm.holdings) (hvm : ∀ i, (f i).hasVm = i.hasVm) :
    (s.updateCpu c f).Accounted pool B maps ∧ ViewsStep L maps maps s (s.updateCpu c f) ∧
      Quiet s (s.updateCpu c f) := by
  have hcpu : ∀ d, ((s.updateCpu c f).cpus d).vm.holdings = (s.cpus d).vm.holdings ∧
      ((s.updateCpu c f).cpus d).hasVm = (s.cpus d).hasVm := by
    intro d
    by_cases hd : d = c
    · subst hd
      have hself : (s.updateCpu d f).cpus d = f (s.cpus d) := Function.update_self _ _ _
      rw [hself]
      exact ⟨hf _, hvm _⟩
    · have hother : (s.updateCpu c f).cpus d = s.cpus d := Function.update_of_ne hd _ _
      rw [hother]
      exact ⟨rfl, rfl⟩
  have hpages : ∀ d, ((s.updateCpu c f).cpus d).vm.fds = (s.cpus d).vm.fds ∧
      ((s.updateCpu c f).cpus d).vm.channels = (s.cpus d).vm.channels := by
    intro d
    have hhold := (hcpu d).1
    simp only [VmProc.holdings, Prod.mk.injEq] at hhold
    exact hhold.2.2.2
  have hq : Quiet s (s.updateCpu c f) :=
    ⟨rfl, rfl, fun d _ => hpages d, fun d _ => descriptors_congr (hpages d).1 fun _ => rfl⟩
  refine ⟨h.quiet hq ?_ rfl (fun d _ => (hcpu d).2) (fun d _ => (hcpu d).1) (.refl _) rfl,
    ⟨.refl _, fun d hd => .same (s := s) hd (hcpu d).1 (fun _ ho => ho) _⟩, hq⟩
  exact h.books.update (fun d _ => (hcpu d).1) (fun d => (hpages d).2) rfl rfl rfl rfl

/-- `exec` keeps the books. -/
theorem PmState.Accounted.exec {args : ExecArgs} (h : s.Accounted pool B maps)
    (hm : s.machine.Sound) (hc : c ∈ s.live) (hx : Executable (s.cpus c).vm args) :
    wp (handle c (.exec args)) (fun _ t => (∃ maps', t.Accounted pool B maps' ∧
      ViewsStep {c} maps maps' s t) ∧ Quiet s t) (Halts False) s := by
  have hoff : (s.cpus c).vm.fds ≠ 0 →
      ∀ i < maxFd, (s.fdTable (s.cpus c).vm.fds i).offset + 4096 ≤ 2 ^ 32 := by
    intro hne i hi
    have hle := h.offsets c hc i hi
    rwa [PmState.descriptors, if_neg hne] at hle
  refine (localExec_books h.books hm hc (h.live c hc).2.1 h.channels_mem hoff hx).bind ?_
  rintro r t ⟨⟨maps', hbooks', hmaps⟩, hframe, hfds, hch⟩
  change (∃ maps', (t.post _).Accounted pool B maps' ∧ ViewsStep {c} maps maps' s (t.post _)) ∧
    Quiet s (t.post _)
  obtain ⟨f, hctl⟩ := hframe.control
  have hq : Quiet s t := by
    refine ⟨congrArg Control.live hctl, hframe.openChannels, fun d hd => ?_, fun d hd => ?_⟩
    · by_cases hdc : d = c
      · rw [hdc]
        exact ⟨hfds, hch⟩
      · rw [hframe.other hdc]
        exact ⟨rfl, rfl⟩
    · by_cases hdc : d = c
      · subst hdc
        exact descriptors_congr hfds fun hne => hframe.fdTable _ 1 (Multiset.mem_add.mpr (Or.inr
          (Multiset.mem_add.mpr (Or.inl (mem_blockAt hne)))))
      · refine descriptors_congr (by rw [hframe.other hdc]) fun hne => hframe.fdTable _ 1 ?_
        exact Multiset.mem_add.mpr (Or.inl (Multiset.mem_add.mpr (Or.inl
          (mem_own_of_fds (Finset.mem_erase.mpr ⟨hdc, hd⟩) hne))))
  have hopen : ∀ o ∈ t.openChannels, o ∈ s.openChannels := by
    rw [hframe.openChannels]
    exact fun _ ho => ho
  refine ⟨⟨maps', (h.quiet hq hbooks' (congrArg Control.ncpus hctl) (fun d _ => ?_) (fun d hd => ?_)
    hframe.layout (congrArg Control.arrayWrites hctl)).post _,
    ViewsStep.post ⟨hframe.layout, fun d hd => ?_⟩ _⟩, hq.post _⟩
  · by_cases hdc : d = c
    · rw [hdc, hframe.self]
    · rw [hframe.other hdc]
  rotate_left
  · rw [hq.live] at hd
    by_cases hdc : d = c
    · subst hdc
      rcases hmaps with ⟨rfl, hhold⟩ | ⟨ts, rfl⟩
      · exact .same hd hhold hopen _
      · exact .loaded ts (Function.update_self _ _ _) hd hframe.openChannels rfl
    · have hsame : maps' d = maps d := by
        rcases hmaps with ⟨rfl, -⟩ | ⟨ts, rfl⟩
        · rfl
        · exact Function.update_of_ne hdc _ _
      rw [hsame]
      exact .same hd (by rw [hframe.other hdc]) hopen _
  · have hdc : d ≠ c := by
      rintro rfl
      exact hd hc
    rw [hframe.other hdc]

/-- Waiting: no VM is a zombie, so none is taken for finished. -/
theorem PmState.Accounted.waitpid {w : ℤ} (h : s.Accounted pool B maps) (hp : s.procTable.Sound)
    (hc : c ≤ maxCpus) :
    wp (handle c (.waitpid w)) (fun _ t => t.Accounted pool B maps ∧ ViewsStep ∅ maps maps s t ∧
      Quiet s t) (Halts P) s := by
  change wp (localWaitpid c w >>= _) _ _ s
  have hrefl : Quiet s s := ⟨rfl, rfl, fun _ _ => ⟨rfl, rfl⟩, fun _ _ => rfl⟩
  unfold localWaitpid
  rw [show getCpuInfo c = some c from if_neg (by omega)]
  dsimp only
  have hspec := findChild_spec s c w
  rw [wp_bind, wp_bind, wp_get]
  rcases hfind : findChild s c w with _ | _ | child
  all_goals rw [hfind] at hspec
  · exact ⟨h.post _, (ViewsStep.refl maps s).post _, hrefl.post _⟩
  · rw [wp_bind, wp_modify]
    exact h.updateCpu (f := fun i => { i with vm := { i.vm with state := .waitChld } })
      (fun _ => rfl) fun _ => rfl
  · exact absurd hspec (hp.alive child)

/-- What a fork does to the descriptors and the channels: the child gets the descriptors of its
parent, with channels of its own. -/
structure Spawned (parent child : ℕ) (s t : PmState) : Prop where
  fresh : child ∉ s.live
  live : t.live = insert child s.live
  pages : ∀ c ∈ s.live, (t.cpus c).vm.fds = (s.cpus c).vm.fds ∧
    (t.cpus c).vm.channels = (s.cpus c).vm.channels
  descriptors : ∀ c ∈ s.live, t.descriptors c = s.descriptors c
  copied : ∃ addr, t.openChannels = s.openChannels ++ forkedChannels (s.descriptors parent) addr
      child (copiedFds (t.cpus child).vm.fds) ∧
    (∀ i ∈ charFds (s.descriptors parent) (copiedFds (t.cpus child).vm.fds),
      IsPage (2 ^ 32) (addr i)) ∧
    ∀ i < maxFd, t.descriptors child i = if (t.cpus child).vm.fds = 0 then ⟨0, 0, 0, 0⟩ else
      if (s.descriptors parent i).type = typeChar then
        { s.descriptors parent i with offset := addr i }
      else s.descriptors parent i
  record : (t.cpus child).Adopted parent ∧ (t.cpus child).vm.Copies (s.cpus parent).vm ∧
    ∀ d, d ≠ child → t.cpus d = s.cpus d
  page : ∃ a, (t.cpus child).vm.channels = (if isDriver child then a else 0) ∧
    (t.cpus child).vm.fds = (if isDriver child then 0 else a) ∧ (t.allocFailed = false → a ≠ 0)

/-- A forked VM is a new one. -/
theorem Forked.spawned {child : ℕ} {args : ForkArgs}
    (hf : Forked pool s.live maps c child args s s') (hfresh : child ∉ s.live)
    (hadopted : (s'.cpus child).Adopted c) :
    Spawned c child s { s' with live := insert child s'.live } := by
  obtain ⟨addr, hopened, hpage, htable⟩ := hf.opened
  have hne : ∀ d ∈ s.live, d ≠ child := by
    rintro d hd rfl
    exact hfresh hd
  refine ⟨hfresh, by rw [hf.live], fun d hd => ?_, fun d hd => ?_,
    ⟨addr, hopened, hpage, fun i hi => ?_⟩, ⟨hadopted, hf.copies, hf.other⟩, hf.page⟩
  · dsimp only
    rw [hf.other d (hne d hd)]
    exact ⟨rfl, rfl⟩
  · refine descriptors_congr ?_ fun h0 => hf.fdTable _ 1
      (Multiset.mem_add.mpr (Or.inl (mem_own_of_fds hd h0)))
    dsimp only
    rw [hf.other d (hne d hd)]
  · unfold PmState.descriptors
    dsimp only
    by_cases h0 : (s'.cpus child).vm.fds = 0
    · rw [if_pos h0, if_pos h0]
    · rw [if_neg h0, if_neg h0]
      have hmem : i ∈ charFds (s.descriptors c) (copiedFds (s'.cpus child).vm.fds) ↔
          (s.descriptors c i).type = typeChar := by
        rw [mem_charFds, copiedFds, if_neg h0, List.mem_range, and_iff_right hi]
      rw [htable h0 i hi]
      exact if_congr hmem rfl rfl

/-- The views after a fork: the child has a new one, and the drivers see its channels. -/
theorem Forked.viewsStep {child : ℕ} {args : ForkArgs} {os : List OpenChannel} (ts : List ℕ)
    (hf : Forked pool s.live maps c child args s s') (hfresh : child ∉ s.live)
    (hopened : s'.openChannels = s.openChannels ++ os) :
    ViewsStep L maps (mapChannels (Function.update maps child
      (s'.viewOf child ts (s'.cpus child).vm.pageList)) os) s
      { s' with live := insert child s'.live } := by
  have hos : ∀ o ∈ os, o ∈ s'.openChannels := by
    rw [hopened]
    exact fun o ho => List.mem_append_right _ ho
  have hold : ∀ o ∈ s'.openChannels, o ∈ s.openChannels ∨ o ∈ os := by
    rw [hopened]
    exact fun o ho => List.mem_append.mp ho
  refine ⟨hf.layout, fun d hd => ?_⟩
  by_cases hdc : d = child
  · subst hdc
    refine .forked ts os hos hold hfresh ?_
    rw [mapChannels, Function.update_self]
    rfl
  · have hd' : d ∈ s.live := by
      rw [← hf.live]
      exact (Finset.mem_insert.mp hd).resolve_left hdc
    refine .kept os hd' (congrArg (fun i : CpuInfo => i.vm.holdings) (hf.other d hdc)) hos hold ?_
    rw [mapChannels, Function.update_of_ne hdc]

/-- The books after a fork. -/
theorem Forked.accounted {child : ℕ} {args : ForkArgs} (h : s.Accounted pool B maps)
    (hB : maxChannels ≤ B) (hf : Forked pool s.live maps c child args s s')
    (hchild : alwaysBusy ≤ child ∧ child < s.ncpus)
    (hfresh : child ∉ s.live) (hadopted : (s'.cpus child).Adopted c) (hncpus : s'.ncpus = s.ncpus)
    (hoff : ∀ i < maxFd, (s.descriptors c i).offset + 4096 ≤ 2 ^ 32) :
    ∃ maps', PmState.Accounted pool B maps' { s' with live := insert child s'.live } ∧
      ViewsStep L maps maps' s { s' with live := insert child s'.live } := by
  have hsp := hf.spawned hfresh hadopted
  have hinit : initId ≠ child := by
    rintro rfl
    exact absurd hchild.1 (by decide)
  obtain ⟨ts, os, hopened, hbooks⟩ := hf.books
  refine ⟨_, ⟨?_, fun d hd => ?_, fun d hd => ?_, ?_, fun d hd i hi => ?_, fun x hx => ?_⟩,
    hf.viewsStep ts hfresh hopened⟩
  · dsimp only
    rw [hf.live]
    exact hbooks.update (fun _ _ => rfl) (fun _ => rfl) rfl rfl rfl rfl
  · rw [hsp.live, Finset.mem_insert] at hd
    dsimp only
    rw [hncpus]
    rcases hd with rfl | hd
    · exact ⟨hchild.1, hchild.2, hadopted.hasVm⟩
    · have hne : d ≠ child := by
        rintro rfl
        exact hfresh hd
      rw [hf.other d hne]
      exact h.live d hd
  · rw [hsp.live, Finset.mem_insert, not_or] at hd
    dsimp only
    rw [hf.other d hd.1]
    exact h.idle d hd.2
  · refine h.init.congr ?_ hf.layout
    dsimp only
    rw [hf.other _ hinit]
  · rw [hsp.live, Finset.mem_insert] at hd
    rcases hd with rfl | hd
    · obtain ⟨addr, -, hpage, htable⟩ := hsp.copied
      rw [htable i hi]
      split
      · norm_num
      · rename_i h0
        split
        · rename_i hchar
          refine (hpage i (mem_charFds.mpr ⟨?_, hchar⟩)).2
          rw [copiedFds, if_neg h0]
          exact List.mem_range.mpr hi
        · exact hoff i hi
    · rw [hsp.descriptors d hd]
      exact h.offsets d hd i hi
  · obtain ⟨l, hl, hlt⟩ := hf.writes
    dsimp only at hx
    rw [hl] at hx
    rcases List.mem_append.mp hx with hx | hx
    · exact h.writes x hx
    · exact (hlt x hx).trans_le hB

theorem PmState.Accounted.forker (h : s.Accounted pool B maps) (hc : c ∈ s.live ∨ c = initId) :
    Forker s.live c s := by
  rcases hc with hc | rfl
  · exact h.books.account.forker hc
  · refine ⟨h.init.placed, fun sec hsec hre => ?_⟩
    exact absurd (hre.symm.trans (h.init.outside sec hsec)) nofun

/-- A VM, or INIT, forks: it is refused if no CPU is free. -/
theorem PmState.Accounted.fork {args : ForkArgs} (h : s.Accounted pool B maps)
    (hB : maxChannels ≤ B) (hm : s.machine.Sound) (hlt : c < s.ncpus) (hc : c ∈ s.live ∨ c = initId)
    (hroom : ForkRoom s (s.descriptors c))
    (hready : P → (s.cpus c).vm.ForkReady args ∧ s.has1GB = false)
    (hfdsReady : P → FdsReady s (s.descriptors c)) :
    wp (handle c (.fork args)) (fun _ t =>
      (∃ maps', t.Accounted pool B maps' ∧ ViewsStep ∅ maps maps' s t) ∧
      (Quiet s t ∧ (∀ j, alwaysBusy ≤ j → j < s.ncpus → (s.cpus j).hasVm = true) ∨
      ∃ child, (alwaysBusy ≤ child ∧ child < s.ncpus) ∧ (s.cpus child).hasVm = false ∧
        (∀ j, alwaysBusy ≤ j → j < child → (s.cpus j).hasVm = true) ∧ Spawned c child s t))
      (Halts P) s := by
  have hvm : c ∈ s.live ∨ c < alwaysBusy := hc.imp_right fun heq => by rw [heq]; decide
  have hoff : ∀ i < maxFd, (s.descriptors c i).offset + 4096 ≤ 2 ^ 32 := by
    rcases hc with hc | rfl
    · exact h.offsets c hc
    · intro i _
      have hnot : initId ∉ s.live := fun hmem => absurd (h.live _ hmem).1 (by decide)
      rw [PmState.descriptors, if_pos (h.idle _ hnot).1]
      norm_num
  have hncpus := (inferInstance : IsWithin (Same PmState.machine) (localFork c args)).within s
  have hfork := ((localFork_books (P := P) h.books hm (fun d hd => (h.live d hd).2) h.idle hlt hvm
    (h.forker hc) hroom hready hfdsReady).and hncpus).mono (fun _ _ hr => hr) fun _ _ he => he.1
  refine hfork.bind ?_
  rintro r s' ⟨⟨rfl, rfl, hbusy⟩ | ⟨child, hrange, hfree, hfirst, rfl, hforked, hadopted⟩, hmach⟩
  · exact ⟨⟨maps, h.post _, (ViewsStep.refl maps _).post _⟩,
      Or.inl ⟨⟨rfl, rfl, fun _ _ => ⟨rfl, rfl⟩, fun _ _ => rfl⟩, hbusy⟩⟩
  · have hfresh : child ∉ s.live := fun hmem =>
      Bool.false_ne_true (hfree.symm.trans (h.live child hmem).2.2)
    have hsp := hforked.spawned hfresh hadopted
    obtain ⟨maps', hacc, hviews⟩ := hforked.accounted h hB hrange hfresh hadopted
      (congrArg Machine.ncpus hmach) hoff
    rw [if_pos (by omega), wp_bind, wp_modify]
    refine ⟨⟨maps', (hacc.post _).post _, (hviews.post _).post _⟩,
      Or.inr ⟨child, hrange, hfree, hfirst, ?_⟩⟩
    exact ⟨hsp.fresh, hsp.live, hsp.pages, hsp.descriptors, hsp.copied, hsp.record, hsp.page⟩

/-- A step that only opens and closes channels. -/
structure ChannelsOnly (s t : PmState) : Prop where
  live : t.live = s.live
  cpus : t.cpus = s.cpus
  descriptors : ∀ c ∈ s.live, t.descriptors c = s.descriptors c
  layout : SameLayout s.memory t.memory

/-- Channel steps keep the books. -/
theorem PmState.Accounted.channelStep {Y : Multiset (ℕ × ℕ)} (h : s.Accounted pool B maps)
    (hstep : ChannelStep B (s.own s.live + Y) s t) (hbooks : Books pool s.live maps' 0 0 t) :
    t.Accounted pool B maps' ∧ ChannelsOnly s t := by
  have hcpus := hstep.cpus
  have hncpus : t.ncpus = s.ncpus := congrArg (fun r => r.2.1) hstep.roster
  have hlive := hstep.live
  have hdesc : ∀ d ∈ s.live, t.descriptors d = s.descriptors d := fun d hd =>
    descriptors_congr (by rw [hcpus]) fun hne =>
      hstep.fdTable _ 1 (Multiset.mem_add.mpr (Or.inl (mem_own_of_fds hd hne)))
  refine ⟨⟨by rw [hlive]; exact hbooks, ?_, ?_, ?_, fun d hd => ?_, fun x hx => ?_⟩, hlive, hcpus,
    hdesc, hstep.layout⟩
  · rw [hlive, hncpus, hcpus]
    exact h.live
  · rw [hlive, hcpus]
    exact h.idle
  · exact h.init.congr (by rw [hcpus]) hstep.layout
  · rw [hlive] at hd
    rw [hdesc d hd]
    exact h.offsets d hd
  · obtain ⟨l, hl, hlt⟩ := hstep.writes
    rw [hl] at hx
    rcases List.mem_append.mp hx with hx | hx
    · exact h.writes x hx
    · exact hlt x hx

theorem ChannelStep.of_le {B' : ℕ} {Y : Multiset (ℕ × ℕ)} (h : ChannelStep B Y s t) (hle : B ≤ B') :
    ChannelStep B' Y s t := by
  obtain ⟨l, hl, hlt⟩ := h.writes
  exact ⟨h.roster, h.fdTable, ⟨l, hl, fun x hx => (hlt x hx).trans_le hle⟩, h.layout, h.failed⟩

/-- Channels were opened. -/
theorem ViewsStep.opened {os : List OpenChannel} (hlay : SameLayout s.memory t.memory)
    (hlive : t.live = s.live) (hcpus : t.cpus = s.cpus)
    (hopened : t.openChannels = s.openChannels ++ os) :
    ViewsStep L maps (mapChannels maps os) s t := by
  refine ⟨hlay, fun d hd => ?_⟩
  rw [hlive] at hd
  refine .kept os hd (by rw [hcpus]) ?_ ?_ rfl
  · rw [hopened]
    exact fun o ho => List.mem_append_right _ ho
  · rw [hopened]
    exact fun o ho => List.mem_append.mp ho

/-- Channels were closed; the VMs still see their pages. -/
theorem ViewsStep.closed (hlay : SameLayout s.memory t.memory) (hlive : t.live = s.live)
    (hcpus : t.cpus = s.cpus) (hopened : ∀ o ∈ t.openChannels, o ∈ s.openChannels) :
    ViewsStep L maps maps s t := by
  refine ⟨hlay, fun d hd => ?_⟩
  rw [hlive] at hd
  exact .same hd (by rw [hcpus]) hopened _

/-- A channel for a VM, to a driver whose array has room. -/
theorem PmState.Accounted.channel {end1 end2 : ℕ} (h : s.Accounted pool B maps)
    (hB : maxChannels ≤ B) (h1 : end1 ∈ s.live)
    (hroom : (s.channelsOf end2).length < maxChannels) :
    wp (handle c (.channel end1 end2)) (fun _ t => ∃ t' a,
      t.Accounted pool B (mapChannels maps [⟨a, end1, end2⟩]) ∧
      t = t'.post ⟨pmId, c, channelIpc, .channel a⟩ ∧ ChannelsOnly s t' ∧
      t'.openChannels = s.openChannels ++ [⟨a, end1, end2⟩] ∧ IsPage (2 ^ 32) a)
      (Halts (ChannelReady s end1 end2)) s := by
  refine (localChannel_spec h.books.account h.books.arrays h.books.held h1
    (h.channels_mem end2)).bind ?_
  intro a t hopen
  obtain ⟨hacc, honly⟩ := h.channelStep (hopen.step.of_le hB) (h.books.opened hopen hroom)
  exact ⟨t, a, hacc.post _, rfl, honly, hopen.opened, hopen.page.2⟩

/-- A channel is closed. -/
theorem PmState.Accounted.channelClose {a : ℕ} (h : s.Accounted pool B maps)
    (hB : B ≤ maxChannels + 1) (hm : s.machine.Sound) (hroom : CloseRoom B s a) :
    wp (handle c (.channelClose a)) (fun _ t => t.Accounted pool B maps ∧ ∃ t',
      t = t'.post ⟨pmId, c, channelCloseIpc, .result 0⟩ ∧ ChannelsOnly s t' ∧
      t'.openChannels = (s.openChannels.filter fun o => o.addr ≠ a) ∧
      a ∈ s.openChannels.map OpenChannel.addr ∧ t'.memory.Unused a)
      (Halts (a ∈ s.openChannels.map OpenChannel.addr)) s := by
  refine (h.books.close (Y := s.own s.live + 0) hm.ncpus_le
    (fun d hne => (h.live d (h.channels_mem d hne)).2.1) hroom hB).bind ?_
  rintro - t ⟨hbooks', hstep, hopen, hmem, hunused⟩
  obtain ⟨hacc, honly⟩ := h.channelStep hstep hbooks'
  exact ⟨hacc.post _, t, rfl, honly, hopen, hmem, hunused⟩

/-- What an exit does to the descriptors and the channels. -/
structure Departed (c : ℕ) (s t : PmState) : Prop where
  live : t.live = s.live.erase c
  cpus : ∀ d, d ≠ c → t.cpus d = s.cpus d
  descriptors : ∀ d ∈ s.live.erase c, t.descriptors d = s.descriptors d
  opened : t.openChannels =
    s.openChannels.filter fun o => o.addr ∉ closedChannels (s.descriptors c) (List.range maxFd)
  layout : SameLayout s.memory t.memory

/-- A VM exits. -/
theorem PmState.Accounted.exit (status : ℤ) (h : s.Accounted pool B maps)
    (hB : B ≤ maxChannels + 1) (hm : s.machine.Sound) (hc : c ∈ s.live)
    (hempty : s.channelsOf c = [])
    (hroom : ∀ a ∈ closedChannels (s.descriptors c) (List.range maxFd), CloseRoom B s a)
    (hP : P → FdsOpen s (s.descriptors c) ∧ (s.cpus c).vm.parent ≤ maxCpus) :
    wp (handle c (.exit status)) (fun _ t => t.Accounted pool B maps ∧ Departed c s t)
    (Halts P) s := by
  have hncpus := (inferInstance : IsWithin (Same PmState.machine) (localExit c status)).within s
  have hexit := ((localExit_books (P := P) status h.books hc h.idle
    (fun d hd => (h.live d hd).2.1) hm.ncpus_le hB hroom hempty hP).and hncpus).mono
    (fun _ _ hr => hr) fun _ _ he => he.1
  refine hexit.bind ?_
  rintro - t ⟨⟨hbooks', hother, hself, htable, hopened, -, hwrites, hlive, hlay, -⟩, hmach⟩
  rw [wp_modify]
  have hlt : t.ncpus = s.ncpus := congrArg Machine.ncpus hmach
  have hdesc : ∀ d ∈ s.live.erase c,
      PmState.descriptors { t with live := t.live.erase c } d = s.descriptors d := by
    intro d hd
    refine descriptors_congr ?_ fun hne => htable _ 1 (mem_own_of_fds hd hne)
    dsimp only
    rw [hother d (Finset.ne_of_mem_erase hd)]
  have hinit : initId ≠ c := by
    rintro rfl
    exact absurd (h.live _ hc).1 (by decide)
  refine ⟨⟨?_, fun d hd => ?_, fun d hd => ?_, ?_, fun d hd => ?_, fun x hx => ?_⟩,
    by rw [hlive], hother, hdesc, hopened, hlay⟩
  · dsimp only
    rw [hlive]
    exact hbooks'.update (fun _ _ => rfl) (fun _ => rfl) rfl rfl rfl rfl
  · dsimp only at hd ⊢
    rw [hlive] at hd
    rw [hother d (Finset.ne_of_mem_erase hd), hlt]
    exact h.live d (Finset.mem_of_mem_erase hd)
  · dsimp only at hd ⊢
    rw [hlive] at hd
    by_cases hdc : d = c
    · rw [hdc]
      exact hself
    · rw [hother d hdc]
      exact h.idle d fun hmem => hd (Finset.mem_erase.mpr ⟨hdc, hmem⟩)
  · refine h.init.congr ?_ hlay
    dsimp only
    rw [hother _ hinit]
  · dsimp only at hd
    rw [hlive] at hd
    rw [hdesc d hd]
    exact h.offsets d (Finset.mem_of_mem_erase hd)
  · obtain ⟨l, hl, hlB⟩ := hwrites
    dsimp only at hx
    rw [hl] at hx
    rcases List.mem_append.mp hx with hx | hx
    · exact h.writes x hx
    · exact hlB x hx

/-- The other VMs see what they have seen. -/
theorem Departed.viewsStep (h : Departed c s t) (maps : ℕ → View) : ViewsStep L maps maps s t := by
  refine ⟨h.layout, fun d hd => ?_⟩
  rw [h.live] at hd
  refine .same (Finset.mem_of_mem_erase hd) ?_ ?_ _
  · rw [h.cpus d (Finset.ne_of_mem_erase hd)]
  · rw [h.opened]
    exact fun o ho => List.mem_of_mem_filter ho

end Requests

/-! ### After the boot -/

/-- PM before the first request: nothing of the pool is held, and no VM was forked. -/
structure PmState.Fresh (pool : ℕ) (s : PmState) : Prop where
  machine : s.machine.Sound
  booted : s.Booted
  ledger : Ledger s.memory pool 0 0
  pool_le : s.memory.firstFreeAddr + pool * 4096 ≤ 2 ^ 32
  pages : ∀ c, (s.cpus c).vm.fds = 0 ∧ (s.cpus c).vm.channels = 0
  init : s.InitPlaced
  live : s.live = ∅
  opened : s.openChannels = []
  writes : s.arrayWrites = []

/-- The books are kept from the boot on. -/
theorem PmState.Fresh.accounted {pool : ℕ} {s : PmState} (h : s.Fresh pool) (B : ℕ)
    (maps : ℕ → View) : s.Accounted pool B maps := by
  have hnone : ∀ d, s.channelsOf d = [] := by
    intro d
    unfold PmState.channelsOf
    rw [h.opened]
    rfl
  have haccount : Account pool ∅ maps 0 0 s := by
    refine ⟨?_, h.pool_le, fun c hc => absurd hc (Finset.notMem_empty c),
      fun _ c hc => absurd hc (Finset.notMem_empty c)⟩
    unfold PmState.tables PmState.own PmState.shared PmState.channelBlocks
    rw [h.opened]
    exact h.ledger
  have hbooks : Books pool ∅ maps 0 0 s := by
    refine ⟨haccount, ⟨fun d hd => ?_, fun d e hd => ?_⟩, fun d hd => ?_, fun d _ => hnone d⟩
    all_goals exact absurd (h.pages d).2 hd
  refine ⟨by rw [h.live]; exact hbooks, fun c hc => ?_, fun c _ => h.pages c, h.init,
    fun c hc => ?_, fun x hx => ?_⟩
  · rw [h.live] at hc
    exact absurd hc (Finset.notMem_empty c)
  · rw [h.live] at hc
    exact absurd hc (Finset.notMem_empty c)
  · rw [h.writes] at hx
    exact absurd hx List.not_mem_nil

end Savannah
