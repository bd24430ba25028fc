import Savannah.Memory.Invariant
import Savannah.Pmap.Defs

/-!
# The state of the process manager

The records that `vms/pm/main.c` works on: one `struct cpu_info` for each CPU with the VM that runs
there, the page allocator, and the pages that PM itself reads and writes.  Such a page is an array
of 64-bit words (`words`: page tables and the `vm_channels` arrays of the drivers) or a table of
file descriptors (`fdTable`: the `vm_fds` pages).  The contents of user memory, of messages and of
channels are not part of the state.

`Pm` is the monad of its functions.  Some fields of the state record what happened and are read by
no function: `allocFailed`, `arrayWrites`, `posted`, `openChannels` and `live`.
-/

namespace Savannah

open Foundation

/-! ### Records -/

/-- `struct regs`. -/
structure Regs where
  rax : ℕ
  rbx : ℕ
  rcx : ℕ
  rdx : ℕ
  rsi : ℕ
  rdi : ℕ
  rsp : ℕ
  rbp : ℕ
  rip : ℕ
  cs : ℕ
  ds : ℕ
  es : ℕ
  fs : ℕ
  gs : ℕ
  ss : ℕ
  rflags : ℕ
  r8 : ℕ
  r9 : ℕ
  r10 : ℕ
  r11 : ℕ
  r12 : ℕ
  r13 : ℕ
  r14 : ℕ
  r15 : ℕ
  cr0 : ℕ
  cr3 : ℕ
  cr4 : ℕ
  deriving DecidableEq, Repr, Inhabited

/-- A section of a VM: `vm_code_paddr`, `vm_code_vaddr` and `vm_code_size`, and so on. -/
structure VmSection where
  paddr : ℕ
  vaddr : ℕ
  size : ℕ
  deriving DecidableEq, Repr, Inhabited

/-- The values of `vm_state`; `unset` is the zero that the boot loader leaves. -/
inductive VmState where
  | unset
  | running
  | waitIo
  | waitChld
  | zombie
  deriving DecidableEq, Repr, Inhabited

/-- `struct vm_proc`, without the pointers that only the VMM uses. -/
structure VmProc where
  regs : Regs
  startPaddr : ℕ
  endPaddr : ℕ
  startVaddr : ℕ
  endVaddr : ℕ
  code : VmSection
  data : VmSection
  rodata : VmSection
  bss : VmSection
  stack : VmSection
  pageTables : ℕ
  ept : ℕ
  parent : ℕ
  exitStatus : ℤ
  state : VmState
  fds : ℕ
  channels : ℕ
  deriving DecidableEq, Repr, Inhabited

/-- `struct cpu_info`: what PM uses of it. -/
structure CpuInfo where
  cpuid : ℕ
  /-- `vmm_info.vmm_has_vm` -/
  hasVm : Bool
  vm : VmProc
  msgInput : ℕ
  msgOutput : ℕ
  msgReady : ℕ
  msgReadyBitmap : ℕ
  deriving DecidableEq, Repr, Inhabited

/-- `struct file_descriptor`. -/
structure FileDescriptor where
  type : ℕ
  length : ℕ
  dst : ℕ
  offset : ℕ
  deriving DecidableEq, Repr, Inhabited

/-- `TYPE_CHAR` -/
abbrev typeChar : ℕ := 2

/-- `MAX_FD` and `MAX_CHANNELS`. -/
abbrev maxFd : ℕ := 32

@[inherit_doc maxFd]
abbrev maxChannels : ℕ := 32

/-- `MAX_CPUS` -/
abbrev maxCpus : ℕ := 255

/-- `ALWAYS_BUSY`, the number of VMs that run from the boot on. -/
abbrev alwaysBusy : ℕ := 3

/-- The CPUs of the servers and of the first process. -/
abbrev pmId : ℕ := 0

@[inherit_doc pmId]
abbrev fsId : ℕ := 1

@[inherit_doc pmId]
abbrev initId : ℕ := 2

/-- The CPUs of the drivers. -/
abbrev kbdId : ℕ := 3

@[inherit_doc kbdId]
abbrev junkId : ℕ := 4

@[inherit_doc kbdId]
abbrev consoleId : ℕ := 5

/-- `is_driver` -/
def isDriver (id : ℕ) : Bool := id = kbdId || id = consoleId || id = junkId

/-! ### Messages -/

/-- The data of a message. -/
inductive Payload where
  | result (r : ℤ)
  /-- `struct waitpid_reply`; the status is `none` where the source leaves it unset. -/
  | waitpid (child : ℤ) (status : Option ℤ)
  | channel (addr : ℕ)
  deriving DecidableEq, Repr

/-- A message that PM has put with `msg_reply` into the inbox of the CPU `dst`, in the slot of the
server `slot`. -/
structure Post where
  slot : ℕ
  dst : ℕ
  number : ℕ
  data : Payload
  deriving DecidableEq, Repr

/-- The numbers of PM's requests. -/
abbrev forkIpc : ℕ := 1

@[inherit_doc forkIpc]
abbrev execIpc : ℕ := 2

@[inherit_doc forkIpc]
abbrev exitIpc : ℕ := 3

@[inherit_doc forkIpc]
abbrev waitpidIpc : ℕ := 4

@[inherit_doc forkIpc]
abbrev channelIpc : ℕ := 5

@[inherit_doc forkIpc]
abbrev channelCloseIpc : ℕ := 6

/-- A channel that `local_channel` created. -/
structure OpenChannel where
  addr : ℕ
  end1 : ℕ
  end2 : ℕ
  deriving DecidableEq, Repr

/-! ### The state -/

/-- The panics of `vms/pm/main.c` and of the functions it calls. -/
inductive PmPanic where
  | alloc (p : MemoryPanic)
  | realloc (p : MemoryPanic)
  | free (p : MemoryPanic)
  | map (p : MapPanic)
  /-- "could not get cpu information!" -/
  | noCpuInfo
  /-- "Removing channel 0!" -/
  | removeZero
  /-- "Channel %x not found!" -/
  | channelNotFound
  /-- "Cpu does not have any channel!" -/
  | noChannels
  /-- "Channel is 0!" -/
  | channelZero
  /-- "VM1 does not exist!" -/
  | noVm1
  /-- "VM2 does not exist!" -/
  | noVm2
  /-- "The second end of the channel needs to be always a driver" -/
  | notDriver
  /-- "Failed to alloced memory!" -/
  | channelAlloc
  /-- "virt2phys failed for child stack" -/
  | childStack
  /-- "virt2phys failed for parent stack" -/
  | parentStack
  /-- "virt2phys: address %x out of range on core %d!" -/
  | virt2phys
  /-- "Unexpected VM Header!" -/
  | vmHeader
  /-- "VM without code section!" -/
  | noCode
  /-- "cnl_send: No channel specified" -/
  | cnlSend
  /-- A call of `halt` after a debug message. -/
  | halted
  deriving DecidableEq, Repr

/-- What ends a request other than its handler returning. -/
abbrev PmStop := Stop PmPanic

/-- The state of PM. -/
structure PmState where
  /-- The page allocator. -/
  memory : MemoryState
  /-- The pages that PM accesses as arrays of 64-bit words: address of the page, index. -/
  words : Tables
  /-- The pages that hold file descriptors: address of the page, index. -/
  fdTable : ℕ → ℕ → FileDescriptor
  /-- The record of each CPU. -/
  cpus : ℕ → CpuInfo
  ncpus : ℕ
  has1GB : Bool
  /-- The address of the first `struct cpu_info`. -/
  cpuinfoBase : ℕ
  /-- Some allocation of at least one page has failed. -/
  allocFailed : Bool
  /-- The entries of `vm_channels` arrays that were assigned: address of the array, index. -/
  arrayWrites : List (ℕ × ℕ)
  /-- The messages posted so far. -/
  posted : List Post
  /-- The channels that were created and have not been closed, in the order of their creation. -/
  openChannels : List OpenChannel
  /-- The VMs that `local_fork` created and that have not exited. -/
  live : Finset ℕ

/-- The functions of PM. -/
abbrev Pm := EStateM PmStop PmState

namespace PmState

/-- Assignments to the record of the CPU `i`. -/
def updateCpu (i : ℕ) (f : CpuInfo → CpuInfo) (s : PmState) : PmState :=
  { s with cpus := Function.update s.cpus i (f (s.cpus i)) }

/-- Assignments to the VM record of the CPU `i`. -/
def updateVm (i : ℕ) (f : VmProc → VmProc) (s : PmState) : PmState :=
  s.updateCpu i fun c => { c with vm := f c.vm }

/-- Assigning a word of a page. -/
def setWord (page i e : ℕ) (s : PmState) : PmState := { s with words := s.words.set page i e }

/-- Assigning a file descriptor. -/
def setFd (page i : ℕ) (f : FileDescriptor) (s : PmState) : PmState :=
  { s with fdTable := fun t j => if t = page ∧ j = i then f else s.fdTable t j }

/-- `memset` of `n` pages from `a` to zero. -/
def clear (a n : ℕ) (s : PmState) : PmState :=
  { s with
    words := fun t i => if IsPageOf a n t then 0 else s.words t i
    fdTable := fun t i => if IsPageOf a n t then ⟨0, 0, 0, 0⟩ else s.fdTable t i }

/-- `msg_reply` -/
def post (m : Post) (s : PmState) : PmState := { s with posted := s.posted ++ [m] }

end PmState

/-! ### The allocator -/

/-- Running an allocator function on the allocator of the state. -/
def withMemory {α : Type} (f : MemoryPanic → PmPanic)
    (x : MemoryState → Except MemoryStop (α × MemoryState)) : Pm α := fun s =>
  match x s.memory with
  | .ok (a, m) => .ok a { s with memory := m }
  | .error e => .error (e.map f) s

/-- `alloc_mem_pages` -/
def allocPages (n : ℕ) : Pm ℕ := do
  let a ← withMemory .alloc (allocMemPages n)
  if a = 0 ∧ n ≠ 0 then
    modify fun s => { s with allocFailed := true }
  return a

/-- `realloc_mem_block` -/
def reallocPages (paddr : ℕ) : Pm ℕ := withMemory .realloc (reallocMemBlock paddr)

/-- `free_mem_pages` -/
def freePages (paddr : ℕ) : Pm Unit :=
  withMemory .free fun m => (freeMemPages paddr m).map fun m' => ((), m')

/-- `alloc_clean_mem_pages` -/
def allocCleanPages (n : ℕ) : Pm ℕ := do
  let a ← allocPages n
  if a > 0 then
    modify (PmState.clear a n)
  return a

/-- `alloc_page_table` -/
def allocPageTable : Pm ℕ := do
  let a ← allocPages 1
  if a > 0 then
    modify (PmState.clear a 1)
  return a

/-- The tables of PM: `alloc_page_table` followed by the check that every use makes. -/
def pmTables : TableOps PmStop PmState where
  read s := s.words
  write := PmState.setWord
  newTable := do
    let a ← allocPageTable
    if a = 0 then
      throw (.panic (.map .allocFailed))
    else
      return a

/-- The panics of the page-table code as panics of PM. -/
def mapStop : Stop MapPanic → PmStop := Stop.map .map

end Savannah
