import Savannah.Pm.Mapping
import Savannah.Pm.Processes

/-!
# What no request changes

The machine that PM runs on: the number of CPUs, the place of their records, and of each record the
number of the CPU and the pages of its messages.  Every handler leaves it alone.
-/

namespace Savannah

open Foundation PmState

/-- The parts of the state that are fixed. -/
structure Machine where
  ncpus : ℕ
  has1GB : Bool
  cpuinfoBase : ℕ
  cpus : ℕ → CpuInfo

/-- The record of a CPU without its VM. -/
def CpuInfo.bare (c : CpuInfo) : CpuInfo := { c with hasVm := false, vm := default }

@[inherit_doc Machine]
def PmState.machine (s : PmState) : Machine :=
  ⟨s.ncpus, s.has1GB, s.cpuinfoBase, fun i => (s.cpus i).bare⟩

/-- Assignments to the record of a CPU other than to its fixed part. -/
theorem machine_updateCpu {s : PmState} {c : ℕ} {f : CpuInfo → CpuInfo}
    (hf : ∀ i, (f i).bare = i.bare) : (s.updateCpu c f).machine = s.machine := by
  have hbare : ∀ i, ((s.updateCpu c f).cpus i).bare = (s.cpus i).bare := by
    intro i
    by_cases hi : i = c
    · subst hi
      exact (congrArg CpuInfo.bare (Function.update_self _ _ _)).trans (hf _)
    · exact congrArg CpuInfo.bare (Function.update_of_ne hi _ _)
  change Machine.mk _ _ _ _ = Machine.mk _ _ _ _
  rw [funext hbare]
  rfl

instance : Internal (Same PmState.machine) where
  frame {s s'} h := by
    have hbare : ∀ i, (s'.cpus i).bare = (s.cpus i).bare := by
      intro i
      have hcpu := congrArg CpuInfo.bare (congrFun (congrArg Control.cpus h) i)
      exact hcpu
    have hncpus : s'.ncpus = s.ncpus := congrArg Control.ncpus h
    have hgb : s'.has1GB = s.has1GB := congrArg Control.has1GB h
    have hbase : s'.cpuinfoBase = s.cpuinfoBase := congrArg Control.cpuinfoBase h
    change Machine.mk _ _ _ _ = Machine.mk _ _ _ _
    rw [hncpus, hgb, hbase, funext hbare]
  quiet {s s'} h := by
    have hcpus : s'.cpus = s.cpus := congrArg Control.cpus h
    have hncpus : s'.ncpus = s.ncpus := congrArg Control.ncpus h
    have hgb : s'.has1GB = s.has1GB := congrArg Control.has1GB h
    have hbase : s'.cpuinfoBase = s.cpuinfoBase := congrArg Control.cpuinfoBase h
    change Machine.mk _ _ _ _ = Machine.mk _ _ _ _
    rw [hcpus, hncpus, hgb, hbase]
  assign _ _ := machine_updateCpu fun _ => rfl
  table _ := rfl

section Same

instance {c : ℕ} {f : VmProc → VmProc} :
    IsWithin (Same PmState.machine) (modify (updateVm c f) : Pm PUnit) :=
  ⟨Within.modify fun _ => machine_updateCpu fun _ => rfl⟩

instance {c : ℕ} {b : Bool} :
    IsWithin (Same PmState.machine)
    (modify (updateCpu c fun i => { i with hasVm := b }) : Pm PUnit) :=
  ⟨Within.modify fun _ => machine_updateCpu fun _ => rfl⟩

instance {m : Post} : IsWithin (Same PmState.machine) (modify (post m) : Pm PUnit) :=
  ⟨Within.modify fun _ => rfl⟩

instance {fds i : ℕ} : IsWithin (Same PmState.machine)
    (modify fun s => s.setFd fds i { s.fdTable fds i with offset := 0 } : Pm PUnit) :=
  ⟨Within.modify fun _ => rfl⟩

variable {c : ℕ}

instance {args : ForkArgs} : IsWithin (Same PmState.machine) (localFork c args) := by
  unfold localFork
  cases getCpuInfo c with
  | none => exact ⟨Within.pure _⟩
  | some info =>
    refine ⟨Within.get.bind fun s => IsWithin.within.bind fun r => ?_⟩
    cases r with
    | none => exact Within.pure _
    | some child =>
      refine IsWithin.within.bind fun _ => IsWithin.within.bind fun parent => ?_
      iterate 7 refine IsWithin.within.bind fun _ => ?_
      exact IsWithin.within

instance {w : ℤ} : IsWithin (Same PmState.machine) (localWaitpid c w) := by
  unfold localWaitpid
  cases getCpuInfo c with
  | none => exact ⟨Within.throw _⟩
  | some i =>
    refine ⟨Within.get.bind fun s => ?_⟩
    cases findChild s i w with
    | none => exact Within.pure _
    | some child => cases child <;> exact IsWithin.within

/-- A request does not change the machine. -/
instance {req : Request} : IsWithin (Same PmState.machine) (handle c req) := by
  have hreply : ∀ dst number data, IsWithin (Same PmState.machine) (reply dst number data) :=
    fun _ _ _ => ⟨Within.modify fun _ => rfl⟩
  have hlive : ∀ f : Finset ℕ → Finset ℕ, IsWithin (Same PmState.machine)
      (modify fun s => { s with live := f s.live } : Pm PUnit) :=
      fun _ => ⟨Within.modify fun _ => rfl⟩
  unfold handle
  cases req with
  | fork args =>
    refine ⟨IsWithin.within.bind fun r => Within.ite (Within.bind ?_ fun _ => ?_) IsWithin.within⟩
    · exact (hlive (insert r.toNat)).within
    · exact IsWithin.within
  | exec args => exact ⟨IsWithin.within⟩
  | exit status => exact ⟨IsWithin.within.bind fun _ => (hlive fun l => l.erase c).within⟩
  | waitpid w =>
    refine ⟨IsWithin.within.bind fun r => ?_⟩
    cases r <;> exact IsWithin.within
  | channel end1 end2 => exact ⟨IsWithin.within⟩
  | channelClose cnl => exact ⟨IsWithin.within⟩
  | other number => exact ⟨IsWithin.within⟩

end Same

/-- What PM relies on: the CPUs know their numbers, and the pages of their records and messages lie
below 4GB. -/
structure Machine.Sound (m : Machine) : Prop where
  ncpus_le : m.ncpus ≤ maxCpus
  cpuid : ∀ i < m.ncpus, (m.cpus i).cpuid = i
  pages : ∀ i < m.ncpus, ∀ p ∈ (m.cpus i).ownPages (m.cpuinfoBase + i * size4KB),
    IsPage (2 ^ 32) p.1

section Sound

variable {s : PmState} {i : ℕ}

theorem Machine.Sound.cpuid_eq (h : s.machine.Sound) (hi : i < s.ncpus) : (s.cpus i).cpuid = i :=
  h.cpuid i hi

theorem Machine.Sound.isPage (h : s.machine.Sound) (hi : i < s.ncpus) :
    ∀ p ∈ (s.cpus i).ownPages (s.infoAddr i), IsPage (2 ^ 32) p.1 := h.pages i hi

end Sound

end Savannah
