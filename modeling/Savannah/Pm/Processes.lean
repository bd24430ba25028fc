import Savannah.Foundation.Run
import Savannah.Pm.Frame

/-!
# The process table

What `fork`, `exit` and `waitpid` are about is a small part of the state of PM: for each CPU whether
it has a VM, the parent of the VM and what it waits for, and the messages that PM has posted.  This
part is the `ProcTable`, and `ProcTable.Step` says what each request does to it.  `handle_step` is
the connection: whenever the handler of a request returns, it has made such a step.

The memory, the page tables and the channels do not appear here.  They decide whether a handler
returns, but not what it does to the process table if it does.
-/

namespace Savannah

open Foundation PmState

/-- The entry of a CPU in the process table. -/
structure Proc where
  cpuid : ℕ
  hasVm : Bool
  parent : ℕ
  state : VmState
  exitStatus : ℤ
  deriving DecidableEq, Repr

@[inherit_doc Proc]
def CpuInfo.proc (c : CpuInfo) : Proc :=
  ⟨c.cpuid, c.hasVm, c.vm.parent, c.vm.state, c.vm.exitStatus⟩

/-- The process table of PM, with the messages it has posted. -/
structure ProcTable where
  procs : ℕ → Proc
  ncpus : ℕ
  posted : List Post

@[inherit_doc ProcTable]
def PmState.procTable (s : PmState) : ProcTable := ⟨fun i => (s.cpus i).proc, s.ncpus, s.posted⟩

/-! ### What leaves the process table alone -/

/-- A relation along which the parts of a fork and of an exec move the state: it does not look at
the page tables, the channels and the descriptors, and of the record of a VM at most at the part
that belongs to the process table. -/
class Internal (R : PmState → PmState → Prop) : Prop where
  frame : ∀ {s s'}, Same PmState.frame s s' → R s s'
  quiet : ∀ {s s'}, Same PmState.quiet s s' → R s s'
  assign : ∀ {c : ℕ} {f : VmProc → VmProc}, (∀ v, (f v).parent = v.parent ∧
    (f v).state = v.state ∧ (f v).exitStatus = v.exitStatus) → ∀ s, R s (updateVm c f s)
  table : ∀ {s : PmState} T, R s { s with fdTable := T }

section Internal

variable {α : Type} {R : PmState → PmState → Prop} [hR : Internal R] {c parent child : ℕ}

instance {x : Pm α} [hx : IsWithin (Same PmState.frame) x] : IsWithin R x :=
  ⟨hx.within.mono fun _ _ => hR.frame⟩

instance {x : Pm α} [hx : IsWithin (Same PmState.quiet) x] : IsWithin R x :=
  ⟨hx.within.mono fun _ _ => hR.quiet⟩

/-- Assigning to fields of a VM record that are not part of the process table. -/
theorem within_updateVm {f : VmProc → VmProc} (hf : ∀ v, (f v).parent = v.parent ∧
    (f v).state = v.state ∧ (f v).exitStatus = v.exitStatus) :
    Within R (modify (updateVm c f) : Pm PUnit) := Within.modify (hR.assign hf)

instance {sec : VmSection} : IsWithin (Same PmState.control) (forkShared sec) := by
  unfold forkShared
  infer_instance

instance {h : Phdr} : IsWithin (Same PmState.control) (loadSection h) := by
  unfold loadSection
  infer_instance

variable [Std.Refl R] [IsTrans PmState R]

instance : IsWithin R (forkSections parent child) := by
  unfold forkSections
  dsimp only
  refine ⟨Within.get.bind fun s => (within_updateVm fun _ => by exact ⟨rfl, rfl, rfl⟩).bind
    fun _ => ?_⟩
  iterate 4 refine IsWithin.within.bind fun _ =>
    (within_updateVm fun _ => by exact ⟨rfl, rfl, rfl⟩).bind fun _ => ?_
  exact IsWithin.within.bind fun _ => within_updateVm fun _ => ⟨rfl, rfl, rfl⟩

instance : IsWithin R (forkPages child) := by
  unfold forkPages
  refine ⟨Within.get.bind fun s => Within.ite ?_ ?_⟩
  all_goals exact IsWithin.within.bind fun _ => within_updateVm fun _ => ⟨rfl, rfl, rfl⟩

instance : IsWithin R (forkFds parent child) := by
  unfold forkFds
  refine ⟨Within.get.bind fun s => Within.ite (Within.bind (Within.modify fun s => ?_) fun _ => ?_)
    (Within.pure _)⟩
  · exact hR.table _
  refine Within.forM fun i => Within.get.bind fun s => Within.ite ?_ (Within.pure _)
  exact IsWithin.within.bind fun _ => Within.modify fun s => hR.table _

instance {args : ForkArgs} : IsWithin R (forkRegs parent child args) := by
  unfold forkRegs
  refine ⟨(within_updateVm fun _ => by exact ⟨rfl, rfl, rfl⟩).bind fun _ => ?_⟩
  refine Within.get.bind fun s => IsWithin.within.bind fun _ => IsWithin.within.bind fun _ => ?_
  exact within_updateVm fun _ => ⟨rfl, rfl, rfl⟩

instance {code data rodata bss : Phdr} : IsWithin R (loadSections c code data rodata bss) := by
  unfold loadSections
  dsimp only
  refine ⟨(within_updateVm fun _ => by exact ⟨rfl, rfl, rfl⟩).bind fun _ =>
    IsWithin.within.bind fun _ => Within.ite (Within.bind (Within.throw _) fun _ => ?_) ?_⟩
  all_goals
    -- code, data and rodata
    iterate 2 refine (within_updateVm fun _ => by exact ⟨rfl, rfl, rfl⟩).bind fun _ =>
      IsWithin.within.bind fun _ => ?_
    iterate 2 refine (within_updateVm fun _ => by exact ⟨rfl, rfl, rfl⟩).bind fun _ => ?_
    refine Within.ite (IsWithin.within.bind fun _ =>
      (within_updateVm fun _ => by exact ⟨rfl, rfl, rfl⟩).bind fun _ => ?_) ?_
    all_goals
      refine (within_updateVm fun _ => by exact ⟨rfl, rfl, rfl⟩).bind fun _ =>
        IsWithin.within.bind fun _ => ?_
      refine (within_updateVm fun _ => by exact ⟨rfl, rfl, rfl⟩).bind fun _ => ?_
      exact within_updateVm fun _ => ⟨rfl, rfl, rfl⟩

instance {elf : List Phdr} : IsWithin R (loadElf c elf) := by
  unfold loadElf
  refine ⟨Within.get.bind fun s => ?_⟩
  split
  · exact IsWithin.within.bind fun _ => IsWithin.within
  · exact Within.throw _

instance {saved : List (List ℕ)} : IsWithin R (passArgs c saved) := by
  unfold passArgs
  refine ⟨Within.get.bind fun s => IsWithin.within.bind fun _ => IsWithin.within.bind fun _ => ?_⟩
  exact within_updateVm fun _ => ⟨rfl, rfl, rfl⟩

instance {args : ExecArgs} : IsWithin R (localExec c args) := by
  unfold localExec
  refine ⟨IsWithin.within.bind fun i => ?_⟩
  cases args.elf with
  | none => exact (within_updateVm fun _ => by exact ⟨rfl, rfl, rfl⟩).bind fun _ => Within.pure _
  | some elf => exact IsWithin.within

instance : IsWithin R (exitChannels c) := by
  unfold exitChannels
  refine ⟨Within.get.bind fun s => Within.ite (IsWithin.within.bind fun _ => ?_) (Within.pure _)⟩
  exact within_updateVm fun _ => ⟨rfl, rfl, rfl⟩

end Internal

/-- The process table does not contain the other parts of the state. -/
instance : Internal (Same PmState.procTable) where
  frame {s s'} h := by
    have hproc : ∀ i, (s'.cpus i).proc = (s.cpus i).proc := by
      intro i
      have hcpu := congrArg CpuInfo.proc (congrFun (congrArg Control.cpus h) i)
      exact hcpu
    have hncpus : s'.ncpus = s.ncpus := congrArg Control.ncpus h
    have hposted : s'.posted = s.posted := congrArg Control.posted h
    change ProcTable.mk _ _ _ = ProcTable.mk _ _ _
    rw [hncpus, hposted, funext hproc]
  quiet {s s'} h := by
    have hcpus : s'.cpus = s.cpus := congrArg Control.cpus h
    have hncpus : s'.ncpus = s.ncpus := congrArg Control.ncpus h
    have hposted : s'.posted = s.posted := congrArg Control.posted h
    change ProcTable.mk _ _ _ = ProcTable.mk _ _ _
    rw [hcpus, hncpus, hposted]
  assign {c f} hf s := by
    have hproc : ∀ i, ((s.updateVm c f).cpus i).proc = (s.cpus i).proc := by
      intro i
      unfold updateVm updateCpu
      by_cases hi : i = c
      · subst hi
        simp only [Function.update_self, CpuInfo.proc, hf]
      · simp only [Function.update_of_ne hi]
    change ProcTable.mk _ _ _ = ProcTable.mk _ _ _
    rw [funext hproc]
    rfl
  table _ := rfl

/-! ### Messages in the name of FS -/

/-- Only messages in the name of FS were posted. -/
def Notified (s s' : PmState) : Prop := ∃ ms : List Post, (∀ m ∈ ms, m.slot = fsId) ∧
  s'.procTable = { s.procTable with posted := s.posted ++ ms }

theorem notified_of_same {s s' : PmState} (h : Same PmState.procTable s s') : Notified s s' := by
  refine ⟨[], fun m hm => absurd hm List.not_mem_nil, ?_⟩
  rw [List.append_nil]
  exact h

instance : Std.Refl Notified := ⟨fun _ => notified_of_same rfl⟩

instance : IsTrans PmState Notified where
  trans s₁ s₂ s₃ h₁ h₂ := by
    obtain ⟨ms, hms, heq⟩ := h₁
    obtain ⟨ms', hms', heq'⟩ := h₂
    have hposted : s₂.posted = s₁.posted ++ ms := congrArg ProcTable.posted heq
    refine ⟨ms ++ ms', fun m hm => ?_, ?_⟩
    · exact (List.mem_append.mp hm).elim (hms m) (hms' m)
    · rw [heq', heq, hposted, List.append_assoc]

theorem Within.notified {α : Type} {x : Pm α} (h : Within (Same PmState.procTable) x) :
    Within Notified x := h.mono fun _ _ => notified_of_same

/-- In the name of FS. -/
theorem closeChannel_notified (c fd : ℕ) : Within Notified (closeChannel c fd) := by
  have hrest : ∀ fds offset, Within Notified (do
      localChannelClose offset
      modify fun s => s.setFd fds fd { s.fdTable fds fd with offset := 0 }
      let dst := if fd = 0 then kbdId else if fd = 1 then consoleId else junkId
      modify (post ⟨fsId, dst, channelCloseIpc, .result 0⟩) : Pm Unit) := by
    intro fds offset
    refine (Within.notified IsWithin.within).bind fun _ => ?_
    refine Within.bind (Within.notified (Within.modify fun _ => rfl)) fun _ => ?_
    refine Within.modify fun s => ⟨[_], fun m hm => ?_, rfl⟩
    rw [List.mem_singleton.mp hm]
  unfold closeChannel
  refine Within.get.bind fun s => Within.get.bind fun s' => ?_
  exact Within.ite (Within.bind (Within.throw _) fun _ => hrest _ _) (hrest _ _)

/-- In the name of FS. -/
theorem exitFds_notified (c : ℕ) : Within Notified (exitFds c) := by
  unfold exitFds
  refine Within.get.bind fun s => Within.ite ?_ (Within.pure _)
  refine Within.bind (Within.forM fun i => Within.get.bind fun s => ?_) fun _ => ?_
  · exact Within.ite (closeChannel_notified c i) (Within.pure _)
  refine (Within.notified IsWithin.within).bind fun _ => Within.notified ?_
  exact within_updateVm fun _ => ⟨rfl, rfl, rfl⟩

/-! ### The steps -/

namespace ProcTable

/-- Posting messages. -/
def post (p : ProcTable) (ms : List Post) : ProcTable := { p with posted := p.posted ++ ms }

theorem post_post (p : ProcTable) (ms ms' : List Post) :
    (p.post ms).post ms' = p.post (ms ++ ms') := by
  unfold post
  rw [List.append_assoc]

/-- Assigning to the entry of a CPU. -/
def set (p : ProcTable) (i : ℕ) (f : Proc → Proc) : ProcTable :=
  { p with procs := Function.update p.procs i (f (p.procs i)) }

/-- The CPU `c` may wait for `w`: for any child, or for a child of its own. -/
def MayWait (p : ProcTable) (c : ℕ) (w : ℤ) : Prop :=
  (-1 ≤ w ∧ w ≤ maxCpus) ∧ (w ≠ -1 → (p.procs c).cpuid = (p.procs w.toNat).parent)

/-- What a request of the CPU `c` does to the process table. -/
inductive Step (p : ProcTable) (c : ℕ) : Request → ProcTable → Prop
  | forkFailed {args : ForkArgs} :
      Step p c (.fork args) (p.post [⟨pmId, c, forkIpc, .result (-1)⟩])
  | forked {args : ForkArgs} {child : ℕ} (hchild : alwaysBusy ≤ child ∧ child < p.ncpus)
      (hfree : (p.procs child).hasVm = false) :
      Step p c (.fork args) ((p.set child fun q =>
          { q with hasVm := true, parent := (p.procs c).cpuid, state := .running }).post
        [⟨pmId, (p.procs child).cpuid, forkIpc, .result (p.procs child).cpuid⟩,
          ⟨pmId, c, forkIpc, .result (p.procs child).cpuid⟩])
  | exec {args : ExecArgs} (r : ℤ) : Step p c (.exec args) (p.post [⟨pmId, c, execIpc, .result r⟩])
  /-- The parent waits, for whichever child, and is told. -/
  | exitWaited {status : ℤ} {ms : List Post} (hms : ∀ m ∈ ms, m.slot = fsId)
      (hwait : (p.procs (p.procs c).parent).state = .waitChld) :
      Step p c (.exit status) ((p.set c fun q => { q with hasVm := false }).post
        (ms ++ [⟨pmId, (p.procs (p.procs c).parent).cpuid, waitpidIpc,
          .waitpid (p.procs c).cpuid (some status)⟩]))
  /-- The parent does not wait; the state of the VM stays what it was. -/
  | exitUnwaited {status : ℤ} {ms : List Post} (hms : ∀ m ∈ ms, m.slot = fsId)
      (hwait : (p.procs (p.procs c).parent).state ≠ .waitChld) :
      Step p c (.exit status) ((p.set c fun q => { q with exitStatus := status }).post ms)
  | refused {w : ℤ} (hw : ¬ p.MayWait c w) :
      Step p c (.waitpid w) (p.post [⟨pmId, c, waitpidIpc, .waitpid (-1) none⟩])
  | reaped {w : ℤ} {child : ℕ} (hzombie : (p.procs child).state = .zombie) {ms : List Post} :
      Step p c (.waitpid w) ((p.set child fun q => { q with hasVm := false }).post ms)
  | waits {w : ℤ} (hw : p.MayWait c w) :
      Step p c (.waitpid w) (p.set c fun q => { q with state := .waitChld })
  | channel {end1 end2 a : ℕ} :
      Step p c (.channel end1 end2) (p.post [⟨pmId, c, channelIpc, .channel a⟩])
  | channelClose {cnl : ℕ} :
      Step p c (.channelClose cnl) (p.post [⟨pmId, c, channelCloseIpc, .result 0⟩])
  | other {number : ℕ} : Step p c (.other number) (p.post [⟨pmId, c, number, .result (-1)⟩])

end ProcTable

/-! ### The handlers make such steps -/

section Handlers

variable {s : PmState} {c : ℕ}

theorem procTable_post (m : Post) : (s.post m).procTable = s.procTable.post [m] := rfl

/-- A change of one entry. -/
theorem procTable_updateCpu {f : CpuInfo → CpuInfo} {g : Proc → Proc}
    (hfg : ∀ i, (f i).proc = g i.proc) :
    (s.updateCpu c f).procTable = s.procTable.set c g := by
  have hproc : (fun i => ((s.updateCpu c f).cpus i).proc) =
      Function.update (fun i => (s.cpus i).proc) c (g (s.cpus c).proc) := by
    funext i
    unfold updateCpu
    by_cases hi : i = c
    · subst hi
      simp only [Function.update_self, hfg]
    · simp only [Function.update_of_ne hi]
  change ProcTable.mk _ _ _ = ProcTable.mk _ _ _
  rw [hproc]
  rfl

theorem getCpuInfo_eq_some {i : ℕ} (h : getCpuInfo c = some i) : c = i := by
  unfold getCpuInfo at h
  split at h
  · cases h
  · exact Option.some.inj h

/-- `find_free_vm` returns the first CPU without a VM. -/
theorem findFreeVm_spec {E : PmStop → PmState → Prop}
    (hE : maxCpus < s.ncpus → E (.panic .noCpuInfo) s) : wp findFreeVm (fun r s' => s' = s ∧
      (∀ i, r = some i → alwaysBusy ≤ i ∧ i < s.ncpus ∧ (s.cpus i).hasVm = false ∧
        ∀ j, alwaysBusy ≤ j → j < i → (s.cpus j).hasVm = true) ∧
      (r = none → ∀ j, alwaysBusy ≤ j → j < s.ncpus → (s.cpus j).hasVm = true)) E s := by
  unfold findFreeVm
  rw [wp_bind, wp_get]
  have hin : ∀ {j : ℕ}, alwaysBusy ≤ j → j < s.ncpus →
      j ∈ List.range' alwaysBusy (s.ncpus - alwaysBusy) := fun {j} hj hlt =>
    List.mem_range'.mpr ⟨j - alwaysBusy, by omega, by omega⟩
  cases hfind : (List.range' alwaysBusy (s.ncpus - alwaysBusy)).find? _ with
  | none =>
    refine ⟨rfl, nofun, fun _ j hj hlt => ?_⟩
    have hbusy := List.find?_eq_none.mp hfind j (hin hj hlt)
    simp only [Bool.or_eq_true, decide_eq_true_eq, Bool.not_eq_true', not_or,
      Bool.not_eq_false] at hbusy
    exact hbusy.2
  | some i =>
    obtain ⟨hfree, hmem, hbusy⟩ := List.find?_range'_eq_some.mp hfind
    obtain ⟨k, hk, heq⟩ := List.mem_range'.mp hmem
    refine wp_ite.mpr ⟨fun hi => hE (by omega), fun hi => ⟨rfl, fun j hj => ?_, nofun⟩⟩
    obtain rfl := Option.some.inj hj
    simp only [Bool.or_eq_true, decide_eq_true_eq, Bool.not_eq_true'] at hfree
    refine ⟨by omega, by omega, hfree.resolve_left hi, fun j hj hlt => ?_⟩
    have hj := hbusy j hj hlt
    simp only [Bool.not_or, Bool.not_not, Bool.and_eq_true] at hj
    exact hj.2

/-- The part of the handlers that does not matter here. -/
theorem wp_same {α β : Type} {x : Pm α} {g : α → Pm β} {Q : β → PmState → Prop}
    [IsWithin (Same PmState.procTable) x]
    (h : ∀ a t, t.procTable = s.procTable → wp (g a) Q (fun _ _ => True) t) :
    wp (x >>= g) Q (fun _ _ => True) s :=
  wp_bind.mpr (wp.of_same (f := PmState.procTable) h fun _ _ _ => trivial)

/-- `local_fork` puts a VM on a free CPU, or fails. -/
theorem localFork_spec (args : ForkArgs) : wp (localFork c args) (fun r t =>
    (r = -1 ∧ t.procTable = s.procTable) ∨
    ∃ child, (alwaysBusy ≤ child ∧ child < s.ncpus) ∧ (s.cpus child).hasVm = false ∧
      r = (s.cpus child).cpuid ∧ t.procTable = s.procTable.set child fun q =>
        { q with hasVm := true, parent := (s.cpus c).cpuid, state := .running })
    (fun _ _ => True) s := by
  unfold localFork
  cases hc : getCpuInfo c with
  | none => exact Or.inl ⟨rfl, rfl⟩
  | some i =>
    obtain rfl := getCpuInfo_eq_some hc
    rw [wp_bind, wp_get]
    refine (findFreeVm_spec fun _ => trivial).bind ?_
    rintro r s' ⟨rfl, hfree, -⟩
    cases r with
    | none => exact Or.inl ⟨rfl, rfl⟩
    | some child =>
      obtain ⟨hbusy, hlt, hvm, -⟩ := hfree child rfl
      rw [wp_bind, wp_modify]
      refine wp_same fun parent t₁ h₁ => ?_
      rw [wp_bind, wp_modify]
      have h₂ : (t₁.updateVm child fun v =>
          { v with parent := (s'.cpus c).cpuid, state := .running }).procTable =
          s'.procTable.set child fun q =>
            { q with hasVm := true, parent := (s'.cpus c).cpuid, state := .running } := by
        unfold updateVm
        rw [procTable_updateCpu (g := fun q =>
          { q with parent := (s'.cpus c).cpuid, state := .running }) fun _ => rfl, h₁,
          procTable_updateCpu (g := fun q => { q with hasVm := true }) fun _ => rfl]
        simp only [ProcTable.set, Function.update_self, Function.update_idem]
      generalize (t₁.updateVm child fun v =>
        { v with parent := (s'.cpus c).cpuid, state := .running }) = t₂ at h₂
      refine wp_same fun _ t₃ h₃ => wp_same fun _ t₄ h₄ => wp_same fun _ t₅ h₅ =>
        wp_same fun _ t₆ h₆ => wp_same fun _ t₇ h₇ => wp_same fun _ t₈ h₈ => ?_
      have h : t₈.procTable = _ :=
        (h₈.trans (h₇.trans (h₆.trans (h₅.trans (h₄.trans h₃))))).trans h₂
      refine Or.inr ⟨child, ⟨hbusy, hlt⟩, hvm, ?_, h⟩
      have hid : (t₈.cpus child).cpuid = _ :=
        congrArg Proc.cpuid (congrFun (congrArg ProcTable.procs h) child)
      rw [hid]
      simp only [ProcTable.set, Function.update_self]
      rfl

/-- `local_exit` tells a parent that waits. -/
theorem localExit_spec (status : ℤ) : wp (localExit c status)
    (fun _ t => s.procTable.Step c (.exit status) t.procTable) (fun _ _ => True) s := by
  unfold localExit
  cases hc : getCpuInfo c with
  | none => trivial
  | some i =>
    obtain rfl := getCpuInfo_eq_some hc
    refine wp_same fun _ s₁ h₁ => ?_
    rw [wp_bind, wp_get]
    have hparent : (s₁.cpus c).vm.parent = (s.procTable.procs c).parent :=
      congrArg Proc.parent (congrFun (congrArg ProcTable.procs h₁) c)
    rw [hparent]
    cases hp : getCpuInfo (s.procTable.procs c).parent with
    | none => trivial
    | some parent =>
      obtain rfl := getCpuInfo_eq_some hp
      refine wp_bind.mpr ((exitFds_notified c s₁).mono ?_ fun _ _ _ => trivial)
      rintro - s₂ ⟨ms, hms, h₂⟩
      have hposted : s₁.posted = s.posted := congrArg ProcTable.posted h₁
      rw [h₁, hposted] at h₂
      refine wp_same fun _ s₃ h₃ => ?_
      have h : s₃.procTable = s.procTable.post ms := h₃.trans h₂
      have hproc : ∀ j, (s₃.cpus j).proc = s.procTable.procs j := fun j =>
        congrFun (congrArg ProcTable.procs h) j
      rw [wp_bind, wp_get]
      have hstate : ∀ j, (s₃.cpus j).vm.state = (s.procTable.procs j).state := fun j =>
        congrArg Proc.state (hproc j)
      have hid : ∀ j, (s₃.cpus j).cpuid = (s.procTable.procs j).cpuid := fun j =>
        congrArg Proc.cpuid (hproc j)
      rw [hstate]
      refine wp_ite.mpr ⟨fun hwait => ?_, fun hwait => ?_⟩
      · rw [wp_bind, wp_modify, wp_modify, procTable_post,
          procTable_updateCpu (g := fun q => { q with hasVm := false }) fun _ => rfl, h, hid, hid]
        have hstep : s.procTable.Step c (.exit status) _ := .exitWaited hms hwait
        simpa only [ProcTable.post, ProcTable.set, List.append_assoc] using hstep
      · rw [wp_modify]
        unfold updateVm
        rw [procTable_updateCpu (g := fun q => { q with exitStatus := status }) fun _ => rfl, h]
        exact .exitUnwaited hms hwait

/-- What the search for a finished child says about the process table. -/
theorem findChild_spec (s : PmState) (c : ℕ) (w : ℤ) :
    match findChild s c w with
    | none => ¬ s.procTable.MayWait c w
    | some none => s.procTable.MayWait c w
    | some (some child) => (s.procTable.procs child).state = .zombie := by
  unfold findChild
  dsimp only
  by_cases hrange : w < -1 ∨ w > maxCpus
  · rw [if_pos hrange]
    intro hmay
    obtain ⟨⟨h₁, h₂⟩, -⟩ := hmay
    omega
  have hle : -1 ≤ w ∧ w ≤ maxCpus := by omega
  rw [if_neg hrange]
  by_cases hany : w = -1
  · rw [if_neg (not_not.mpr hany)]
    cases hfind : (List.range' alwaysBusy (maxCpus - alwaysBusy)).find? _ with
    | none => exact ⟨hle, fun hne => absurd hany hne⟩
    | some child =>
      have hmatch := List.find?_some hfind
      exact (of_decide_eq_true hmatch).2
  rw [if_pos hany]
  by_cases hparent : (s.cpus c).cpuid = (s.cpus w.toNat).vm.parent
  · rw [if_neg (not_not.mpr hparent)]
    by_cases hzombie : (s.cpus w.toNat).vm.state = .zombie
    · rw [if_neg (not_not.mpr hzombie)]
      exact hzombie
    · rw [if_pos hzombie]
      exact ⟨hle, fun _ => hparent⟩
  · rw [if_pos hparent]
    exact fun hmay => hparent (hmay.2 hany)

/-- `local_waitpid` refuses, finds a finished child, or lets the caller wait. -/
theorem localWaitpid_spec (w : ℤ) : wp (localWaitpid c w >>= fun r => match r with
      | some data => reply c waitpidIpc data
      | none => pure ())
    (fun _ t => s.procTable.Step c (.waitpid w) t.procTable) (fun _ _ => True) s := by
  unfold localWaitpid
  cases hc : getCpuInfo c with
  | none => trivial
  | some i =>
    obtain rfl := getCpuInfo_eq_some hc
    have hspec := findChild_spec s c w
    rw [wp_bind, wp_bind, wp_get]
    rcases hfind : findChild s c w with _ | _ | child
    all_goals rw [hfind] at hspec
    · exact .refused hspec
    · rw [wp_bind, wp_modify]
      change s.procTable.Step c (.waitpid w) (s.updateCpu c _).procTable
      rw [procTable_updateCpu (g := fun q => { q with state := .waitChld }) fun _ => rfl]
      exact .waits hspec
    · rw [wp_bind, wp_modify]
      have hset : (s.updateCpu child fun i => { i with hasVm := false }).procTable =
          s.procTable.set child fun q => { q with hasVm := false } :=
        procTable_updateCpu fun _ => rfl
      dsimp only
      by_cases hpid : (s.cpus child).cpuid = 0
      · rw [if_pos hpid]
        change s.procTable.Step c (.waitpid w) (s.updateCpu child _).procTable
        rw [hset]
        have hstep : s.procTable.Step c (.waitpid w)
            ((s.procTable.set child fun q => { q with hasVm := false }).post []) := .reaped hspec
        simpa only [ProcTable.post, List.append_nil] using hstep
      · rw [if_neg hpid]
        change s.procTable.Step c (.waitpid w) ((s.updateCpu child _).post _).procTable
        rw [procTable_post, hset]
        exact .reaped hspec

/-- One turn of the loop of `vm_main` is a step of the process table. -/
theorem handle_step {req : Request} {t : PmState} (h : handle c req s = .ok () t) :
    s.procTable.Step c req t.procTable := by
  suffices hwp : wp (handle c req) (fun _ t => s.procTable.Step c req t.procTable)
      (fun _ _ => True) s from hwp.ok h
  cases req with
  | fork args =>
    refine (localFork_spec args).bind ?_
    rintro r t (⟨rfl, ht⟩ | ⟨child, hchild, hfree, rfl, ht⟩)
    · refine wp_ite.mpr ⟨fun hne => absurd rfl hne, fun _ => ?_⟩
      change s.procTable.Step c _ (t.post _).procTable
      rw [procTable_post, ht]
      exact .forkFailed
    · refine wp_ite.mpr ⟨fun _ => ?_, fun hne => absurd hne (by omega)⟩
      change s.procTable.Step c _ (PmState.post _ (PmState.post _ _)).procTable
      rw [procTable_post, procTable_post]
      change s.procTable.Step c _ ((t.procTable.post _).post _)
      rw [ht, Int.toNat_natCast, ProcTable.post_post]
      exact .forked hchild hfree
  | exec args =>
    refine wp_same fun r t ht => ?_
    change s.procTable.Step c _ (t.post _).procTable
    rw [procTable_post, ht]
    exact .exec r
  | exit status => exact (localExit_spec status).bind fun _ t ht => ht
  | waitpid w => exact localWaitpid_spec w
  | channel end1 end2 =>
    refine wp_same fun a t ht => ?_
    change s.procTable.Step c _ (t.post _).procTable
    rw [procTable_post, ht]
    exact .channel
  | channelClose cnl =>
    refine wp_same fun _ t ht => ?_
    change s.procTable.Step c _ (t.post _).procTable
    rw [procTable_post, ht]
    exact .channelClose
  | other number => exact .other

end Handlers

end Savannah
