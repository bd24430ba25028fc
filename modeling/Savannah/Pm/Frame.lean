import Savannah.Pm.Handlers
import Savannah.Pm.Tables

/-!
# What the parts of a handler leave alone

The allocator and the page-table code of PM work on the pool and on the pages that PM has taken from
it; the rest of the state, `PmState.control`, stays as it is, also where they panic.  The instances
of `IsWithin (Same PmState.control)` say this of each function.

Functions that only put other functions together move the state along whatever relation these move
it along.  This is said once, for every relation, in the sections from `Reading` to `Exit`.
-/

namespace Savannah

open Foundation PmState

/-! ### Page tables -/

section Tables

variable {ε σ : Type} {O : TableOps ε σ} {R : σ → σ → Prop}

variable [Std.Refl R] [IsTrans σ R]

theorem mapPage_within (hO : O.StaysWithin R) (flags pml4 vaddr pageSize entry : ℕ) :
    Within R (mapPage O flags pml4 vaddr pageSize entry) := by
  unfold mapPage
  refine (hO.ensure _ _ _).bind fun pdpe => Within.ite (Within.modify (hO.write _ _ _)) ?_
  refine (hO.ensure _ _ _).bind fun pde => Within.ite (Within.modify (hO.write _ _ _)) ?_
  exact (hO.ensure _ _ _).bind fun pte => Within.modify (hO.write _ _ _)

/-- A loop stays within the relation. -/
theorem mapLoop_within (hO : O.StaysWithin R) (flags pml4 pageSize leafFlags n vaddr paddr : ℕ) :
    Within R (mapLoop O flags pml4 pageSize leafFlags n vaddr paddr) := by
  induction n generalizing vaddr paddr with
  | zero => exact Within.pure _
  | succ n ih => exact (mapPage_within hO _ _ _ _ _).bind fun _ => ih _ _

/-- A mapping call stays within what the access to the tables stays within. -/
theorem mapRegion_within (hO : O.StaysWithin R) (stop : Stop MapPanic → ε)
    (tableFlags leafFlags pml4 start last paddr pageSize flags : ℕ) :
    Within R (mapRegion O stop tableFlags leafFlags pml4 start last paddr pageSize flags) := by
  have hroot : Within R (mapRoot O stop pml4 flags) := by
    unfold mapRoot
    refine Within.ite hO.newTable (Within.ite ?_ (Within.throw _))
    exact Within.get.bind fun s => Within.ite (Within.throw _) (Within.pure _)
  unfold mapRegion
  refine Within.ite (Within.throw _) (Within.ite (Within.throw _) (Within.ite (Within.throw _)
    (Within.ite (Within.throw _) (hroot.bind fun r => Within.ite ?_ ?_))))
  · exact (mapLoop_within hO _ _ _ _ _ _ _).bind fun _ => Within.throw _
  · exact (mapLoop_within hO _ _ _ _ _ _ _).bind fun _ => Within.pure _

end Tables

/-! ### Functions that are put together -/

section Generic

variable {R : PmState → PmState → Prop} [Std.Refl R] [IsTrans PmState R]
  {c a len page channel n k fd parent child rsp base : ℕ}

section Reading

instance : IsWithin R (derefCpu c) := by
  unfold derefCpu
  cases getCpuInfo c <;> infer_instance

instance {vm : VmProc} : IsWithin R (translate vm a) := by
  unfold translate
  cases virt2phys vm a <;> infer_instance

instance {vms : List VmProc} : IsWithin R (writeUser vms a len) := by
  unfold writeUser
  infer_instance

instance : IsWithin R findFreeVm := by
  unfold findFreeVm
  refine ⟨Within.get.bind fun s => ?_⟩
  cases (List.range' alwaysBusy (s.ncpus - alwaysBusy)).find? _ <;> exact IsWithin.within

instance : IsWithin R (forkStack parent child rsp) := by
  unfold forkStack
  infer_instance

instance {args : ExecArgs} : IsWithin R (saveArgs c args) := by
  unfold saveArgs
  infer_instance

end Reading

section Freeing

variable [∀ a, IsWithin R (freePages a)]

instance : IsWithin R (freeOld a) := by
  unfold freeOld
  infer_instance

instance : IsWithin R (freePageTables base) := by
  unfold freePageTables
  infer_instance

/-- Releasing the memory of a VM. -/
instance (vm : VmProc) : IsWithin R (do
    freeOld vm.code.paddr
    freeOld vm.data.paddr
    freeOld vm.rodata.paddr
    freeOld vm.bss.paddr
    freeOld vm.stack.paddr
    freePageTables vm.pageTables
    freePageTables vm.ept : Pm Unit) := by
  refine ⟨?_⟩
  iterate 6 refine IsWithin.within.bind fun _ => ?_
  exact IsWithin.within

instance : IsWithin R (exitFree c) := by
  unfold exitFree
  exact ⟨Within.get.bind fun s => IsWithin.within⟩

end Freeing

section Arrays

variable [hset : ∀ page a e, IsWithin R (setChannel page a e)]

instance : IsWithin R (shiftChannels page n k) := by
  induction n generalizing k with
  | zero => exact ⟨Within.pure _⟩
  | succ n ih =>
    unfold shiftChannels
    refine ⟨Within.get.bind fun s => Within.ite (Within.pure _) ?_⟩
    exact (hset _ _ _).within.bind fun _ => ih.within

instance {found : Bool} : IsWithin R (removeFrom page channel found) := by
  unfold removeFrom
  infer_instance

instance : IsWithin R (removeChannelList channel) := by
  unfold removeChannelList
  dsimp only
  have hloop : ∀ cpus : List ℕ, IsWithin R
      (cpus.foldlM (fun found i => do
        let c ← derefCpu i
        let s ← get
        if (s.cpus c).vm.channels = 0 then pure found
        else removeFrom (s.cpus c).vm.channels channel found) false : Pm Bool) := by
    intro cpus
    infer_instance
  exact ⟨Within.ite (Within.bind (Within.throw _) fun _ => IsWithin.within) IsWithin.within⟩

instance : IsWithin R (addChannelList c channel) := by
  unfold addChannelList
  refine ⟨Within.get.bind fun s => Within.ite (Within.throw _) (Within.ite (Within.throw _) ?_)⟩
  cases (List.range maxChannels).find? _ <;> exact IsWithin.within

end Arrays

section Assigning

variable [∀ c f, IsWithin R (modify (updateVm c f) : Pm PUnit)]

instance {args : ForkArgs} : IsWithin R (forkRegs parent child args) := by
  unfold forkRegs
  infer_instance

instance {saved : List (List ℕ)} : IsWithin R (passArgs c saved) := by
  unfold passArgs
  infer_instance

end Assigning

section Exit

variable [∀ a, IsWithin R (freePages a)] [∀ page a e, IsWithin R (setChannel page a e)]
  [hclose : ∀ channel, IsWithin R (modify fun s =>
    { s with openChannels := s.openChannels.filter fun o => o.addr ≠ channel } : Pm PUnit)]

instance : IsWithin R (localChannelClose channel) := by
  unfold localChannelClose
  exact ⟨IsWithin.within.bind fun _ => IsWithin.within.bind fun _ => (hclose _).within⟩

variable [∀ c f, IsWithin R (modify (updateVm c f) : Pm PUnit)]
  [∀ m, IsWithin R (modify (post m) : Pm PUnit)]
  [∀ c b, IsWithin R (modify (updateCpu c fun i => { i with hasVm := b }) : Pm PUnit)]
  [∀ fds i, IsWithin R
    (modify fun s => s.setFd fds i { s.fdTable fds i with offset := 0 } : Pm PUnit)]

instance : IsWithin R (closeChannel c fd) := by
  unfold closeChannel
  dsimp only
  refine ⟨Within.get.bind fun s => Within.get.bind fun s' => ?_⟩
  exact Within.ite (Within.bind (Within.throw _) fun _ => IsWithin.within) IsWithin.within

instance : IsWithin R (exitFds c) := by
  unfold exitFds
  infer_instance

instance : IsWithin R (exitChannels c) := by
  unfold exitChannels
  infer_instance

instance {status : ℤ} : IsWithin R (localExit c status) := by
  unfold localExit
  cases getCpuInfo c with
  | none => exact ⟨Within.throw _⟩
  | some i =>
    refine ⟨IsWithin.within.bind fun _ => Within.get.bind fun s => ?_⟩
    cases getCpuInfo _ with
    | none => exact Within.throw _
    | some parent => exact IsWithin.within

end Exit

end Generic

/-! ### The functions of PM -/

section Control

theorem withMemory_control {α : Type} (f : MemoryPanic → PmPanic)
    (x : MemoryState → Except MemoryStop (α × MemoryState)) :
    Within (Same PmState.control) (withMemory f x) := by
  intro s
  unfold wp withMemory
  cases x s.memory <;> rfl

instance (n : ℕ) : IsWithin (Same PmState.control) (allocPages n) := by
  unfold allocPages
  exact ⟨(withMemory_control _ _).bind fun a =>
    Within.ite (Within.bind (Within.modify fun _ => rfl) fun _ => Within.pure _) (Within.pure _)⟩

instance (a : ℕ) : IsWithin (Same PmState.control) (reallocPages a) := ⟨withMemory_control _ _⟩

instance (a : ℕ) : IsWithin (Same PmState.control) (freePages a) := ⟨withMemory_control _ _⟩

instance (n : ℕ) : IsWithin (Same PmState.control) (allocCleanPages n) := by
  unfold allocCleanPages
  exact ⟨IsWithin.within.bind fun a =>
    Within.ite (Within.bind (Within.modify fun _ => rfl) fun _ => Within.pure _) (Within.pure _)⟩

instance : IsWithin (Same PmState.control) allocPageTable := by
  unfold allocPageTable
  exact ⟨IsWithin.within.bind fun a =>
    Within.ite (Within.bind (Within.modify fun _ => rfl) fun _ => Within.pure _) (Within.pure _)⟩

/-- Tables are not control data. -/
theorem pmTables_control : pmTables.StaysWithin (Same PmState.control) where
  newTable := by
    unfold pmTables
    exact IsWithin.within
  write _ _ _ _ := rfl

variable {pml4 start last paddr pageSize prot mtype flags ept page fds base : ℕ}

instance : IsWithin (Same PmState.control)
    (mapMemory pmTables mapStop pml4 start last paddr pageSize prot flags) :=
  ⟨mapRegion_within pmTables_control _ _ _ _ _ _ _ _ _⟩

instance : IsWithin (Same PmState.control)
    (eptMapMemory pmTables mapStop pml4 start last paddr pageSize mtype prot flags) :=
  ⟨mapRegion_within pmTables_control _ _ _ _ _ _ _ _ _⟩

instance : IsWithin (Same PmState.control) (eptUpdate ept start last paddr mtype prot) := by
  unfold eptUpdate
  infer_instance

instance : IsWithin (Same PmState.control) (eptIdentity ept page mtype prot) := by
  unfold eptIdentity
  infer_instance

instance : IsWithin (Same PmState.control) mapGuest := by
  unfold mapGuest
  infer_instance

instance {g : Region} :
    IsWithin (Same PmState.control) (PmapOp.run pmTables mapStop .ept size4KB ept (.map g)) := by
  unfold PmapOp.run Region.mapCall
  infer_instance

set_option synthInstance.maxSize 1000 in
instance : IsWithin (Same PmState.control) (eptMapPageTables ept pml4 prot) := by
  unfold eptMapPageTables mapPageTables
  dsimp only
  exact ⟨Within.ite (Within.bind (Within.throw _) fun _ => IsWithin.within) IsWithin.within⟩

instance {vm : VmProc} : IsWithin (Same PmState.control) (eptMapSections ept vm) := by
  unfold eptMapSections
  infer_instance

instance : IsWithin (Same PmState.control) (eptMapFds ept fds) := by
  unfold eptMapFds
  infer_instance

end Control

/-! ### Mapping a VM -/

/-- The records without the addresses of the tables. -/
def Control.withoutTables (k : Control) : Control :=
  { k with
    cpus := fun i => { k.cpus i with vm := { (k.cpus i).vm with pageTables := 0, ept := 0 } } }

/-- The part of the state that `ept_pmap` never changes. -/
def PmState.frame (s : PmState) : Control := s.control.withoutTables

instance {α : Type} {x : Pm α} [hx : IsWithin (Same PmState.control) x] :
    IsWithin (Same PmState.frame) x :=
  ⟨hx.within.mono fun _ _ h => congrArg Control.withoutTables h⟩

/-- Assigning the address of a table. -/
theorem frame_updateVm {s : PmState} {c : ℕ} {f : VmProc → VmProc}
    (hf : ∀ v, { f v with pageTables := 0, ept := 0 } = { v with pageTables := 0, ept := 0 }) :
    (s.updateVm c f).frame = s.frame := by
  simp only [PmState.frame, Control.withoutTables, PmState.control, updateVm, updateCpu,
    Control.mk.injEq, and_true]
  funext i
  by_cases hi : i = c
  · subst hi
    rw [Function.update_self, hf]
  · rw [Function.update_of_ne hi]

instance {c : ℕ} : IsWithin (Same PmState.frame) (eptPmap c) := by
  unfold eptPmap
  refine ⟨IsWithin.within.bind fun r => Within.bind (Within.modify fun s => ?_) fun _ => ?_⟩
  · exact frame_updateVm fun _ => rfl
  refine IsWithin.within.bind fun e => Within.bind (Within.modify fun s => ?_) fun _ => ?_
  · exact frame_updateVm fun _ => rfl
  refine Within.mono (R := Same PmState.control) ?_ fun _ _ h => congrArg Control.withoutTables h
  refine IsWithin.within.bind fun _ => Within.get.bind fun t => ?_
  iterate 8 refine IsWithin.within.bind fun _ => ?_
  dsimp only
  exact IsWithin.within

/-! ### Channels -/

/-- The state without the channels. -/
def Control.quiet (k : Control) : Control := { k with arrayWrites := [], openChannels := [] }

/-- The part of the state that opening and closing channels never changes. -/
def PmState.quiet (s : PmState) : Control := s.control.quiet

section Channels

variable {c a len page channel n k : ℕ}

instance {α : Type} {x : Pm α} [hx : IsWithin (Same PmState.control) x] :
    IsWithin (Same PmState.quiet) x :=
  ⟨hx.within.mono fun _ _ h => congrArg Control.quiet h⟩

instance {e : ℕ} : IsWithin (Same PmState.quiet) (setChannel page a e) :=
  ⟨Within.modify fun _ => rfl⟩

instance : IsWithin (Same PmState.quiet) (modify fun s =>
    { s with openChannels := s.openChannels.filter fun o => o.addr ≠ channel } : Pm PUnit) :=
  ⟨Within.modify fun _ => rfl⟩

instance {end1 end2 : ℕ} : IsWithin (Same PmState.quiet) (localChannel end1 end2) := by
  unfold localChannel
  refine ⟨IsWithin.within.bind fun c₁ => IsWithin.within.bind fun c₂ => Within.get.bind fun s => ?_⟩
  refine Within.ite (Within.throw _) (Within.ite (Within.throw _) (Within.ite (Within.throw _) ?_))
  refine IsWithin.within.bind fun a => ?_
  have hopen : IsWithin (Same PmState.quiet)
      (modify fun s => { s with openChannels := s.openChannels ++ [⟨a, c₁, c₂⟩] } : Pm PUnit) :=
    ⟨Within.modify fun _ => rfl⟩
  dsimp only
  exact Within.ite (Within.bind (Within.throw _) fun _ => IsWithin.within) IsWithin.within

end Channels

end Savannah
