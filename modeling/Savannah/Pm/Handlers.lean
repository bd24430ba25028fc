import Savannah.Pm.State
import Savannah.Pmap.Nested

/-!
# The request handlers of the process manager

The functions of `vms/pm/main.c`, with `ept_map_page_tables` and `free_page_tables` of
`vms/pm/pmap.c` and `virt2phys` of `lib/lib_mem.c`.  `handle` is one turn of the loop of `vm_main`:
it serves one request and posts the replies.

A copy into user memory is not part of the state.  It is checked to stay inside the sections of the
VM it is meant for; a copy that does not would overwrite unrelated memory, and ends the run with
`outOfBounds`.  Waiting for an answer (of FS in `local_exec`, of a driver in `close_channel`) is
left out; what FS answers is part of the request.
-/

namespace Savannah

open Foundation PmState

/-! ### Records and addresses -/

/-- `get_cpu_info` -/
def getCpuInfo (id : ℕ) : Option ℕ := if id > maxCpus then none else some id

/-- An access through the result of `get_cpu_info`. -/
def derefCpu (id : ℕ) : Pm ℕ :=
  match getCpuInfo id with
  | some i => pure i
  | none => throw .nullPointer

/-- `find_free_vm` -/
def findFreeVm : Pm (Option ℕ) := do
  let s ← get
  match (List.range' alwaysBusy (s.ncpus - alwaysBusy)).find? fun i =>
      i > maxCpus || !(s.cpus i).hasVm with
  | none => pure none
  | some i => if i > maxCpus then throw (.panic .noCpuInfo) else pure (some i)

/-- `virt2phys` -/
def virt2phys (vm : VmProc) (vaddr : ℕ) : Option ℕ :=
  let inSection (sec : VmSection) := some ((sec.paddr + (vaddr - sec.vaddr)) % 2 ^ 64)
  if vaddr ≥ vm.code.vaddr ∧ vaddr < vm.data.vaddr then inSection vm.code
  else if vaddr ≥ vm.data.vaddr ∧ vaddr < vm.rodata.vaddr then inSection vm.data
  else if vaddr ≥ vm.rodata.vaddr ∧ vaddr < vm.bss.vaddr then inSection vm.rodata
  else if vaddr ≥ vm.bss.vaddr ∧ vaddr < vm.stack.vaddr then inSection vm.bss
  else if vaddr ≥ vm.stack.vaddr ∧ vaddr ≤ vm.endVaddr then inSection vm.stack
  else none

/-- `virt2phys`, with its panic. -/
def translate (vm : VmProc) (vaddr : ℕ) : Pm ℕ :=
  match virt2phys vm vaddr with
  | some a => pure a
  | none => throw (.panic .virt2phys)

/-- The sections of a VM. -/
def VmProc.sections (vm : VmProc) : List VmSection :=
  [vm.code, vm.data, vm.rodata, vm.bss, vm.stack]

/-- The `len` bytes from `a` lie in a section of one of the VMs. -/
def inUserMemory (vms : List VmProc) (a len : ℕ) : Bool :=
  vms.any fun vm => vm.sections.any fun sec =>
    decide (sec.paddr ≤ a ∧ a + len ≤ sec.paddr + sec.size)

/-- A write of `len` bytes to `a` that is meant for the memory of the VMs. -/
def writeUser (vms : List VmProc) (a len : ℕ) : Pm Unit :=
  if inUserMemory vms a len then pure () else throw (.outOfBounds a)

/-! ### Mapping the memory of a VM -/

/-- `EPT_PAGE_READ`, `EPT_PAGE_WRITE` and `EPT_PAGE_EXEC`. -/
abbrev eptRead : ℕ := 1

@[inherit_doc eptRead]
abbrev eptWrite : ℕ := 2

@[inherit_doc eptRead]
abbrev eptExec : ℕ := 4

/-- `EPT_MTYPE_UC`, `EPT_MTYPE_WT` and `EPT_MTYPE_WB`. -/
abbrev mtypeUc : ℕ := 0

@[inherit_doc mtypeUc]
abbrev mtypeWt : ℕ := 4

@[inherit_doc mtypeUc]
abbrev mtypeWb : ℕ := 6

/-- `PAGE_PRESENT`, `PAGE_RW` and `PAGE_PCD`. -/
abbrev pagePresent : ℕ := 1

@[inherit_doc pagePresent]
abbrev pageRw : ℕ := 2

@[inherit_doc pagePresent]
abbrev pagePcd : ℕ := 0x10

/-- `ept_map_memory` for the nested tables at `ept`, with `MAP_UPDATE` and pages of 4KB. -/
def eptUpdate (ept start stop paddr mtype prot : ℕ) : Pm Unit := do
  let _ ← eptMapMemory pmTables mapStop ept start stop paddr size4KB mtype prot mapUpdate

/-- `eptUpdate` for one page at its own address. -/
def eptIdentity (ept page mtype prot : ℕ) : Pm Unit :=
  eptUpdate ept page ((page + size4KB) % 2 ^ 64) page mtype prot

/-- `ept_map_page_tables` -/
def eptMapPageTables (ept pml4 prot : ℕ) : Pm Unit := mapPageTables pmTables mapStop ept pml4 prot

/-- The guest page tables that `ept_pmap` builds: an identity map of the first 4GB. -/
def mapGuest : Pm ℕ := do
  let pageSize := if (← get).has1GB then size1GB else size2MB
  let root ← mapMemory pmTables mapStop 0 0 size2MB 0 pageSize
    (pagePresent ||| pageRw ||| pagePcd) mapNew
  let root ← mapMemory pmTables mapStop root size2MB 0xFEC00000 size2MB pageSize
    (pagePresent ||| pageRw) mapUpdate
  mapMemory pmTables mapStop root 0xFEC00000 (size1GB * 4) 0xFEC00000 pageSize
    (pagePresent ||| pageRw ||| pagePcd) mapUpdate

/-- The sections of a VM with the access that its nested tables grant. -/
def VmProc.access (vm : VmProc) : List (VmSection × ℕ) :=
  [(vm.code, eptRead ||| eptExec), (vm.data, eptRead ||| eptWrite), (vm.rodata, eptRead),
    (vm.bss, eptRead ||| eptWrite), (vm.stack, eptRead ||| eptWrite)]

/-- Mapping the sections that are not empty. -/
def eptMapSections (ept : ℕ) (vm : VmProc) : Pm Unit :=
  vm.access.forM fun a => do
    if a.1.size > 0 then
      eptUpdate ept a.1.vaddr ((a.1.vaddr + a.1.size) % 2 ^ 64) a.1.paddr mtypeWb a.2

/-- Mapping the page of descriptors and the pages that the descriptors refer to. -/
def eptMapFds (ept fds : ℕ) : Pm Unit := do
  if fds > 0 then
    eptIdentity ept fds mtypeWb (eptRead ||| eptWrite)
    (List.range maxFd).forM fun i => do
      let offset := ((← get).fdTable fds i).offset
      if offset ≠ 0 then
        eptIdentity ept offset mtypeWb (eptRead ||| eptWrite)

/-- `ept_pmap` -/
def eptPmap (c : ℕ) : Pm Unit := do
  let root ← mapGuest
  modify (updateVm c fun vm => { vm with pageTables := root })
  let ept ← eptMapMemory pmTables mapStop 0 0xB8000 0xB9000 0xB8000 size4KB mtypeUc
    (eptRead ||| eptWrite) mapNew
  modify (updateVm c fun vm => { vm with ept := ept })
  eptUpdate ept 0xFEC00000 0x100000000 0xFEC00000 mtypeUc (eptRead ||| eptWrite)
  let s ← get
  let info := s.cpus c
  eptMapPageTables ept info.vm.pageTables (eptRead ||| eptWrite)
  eptIdentity ept (s.cpuinfoBase + c * size4KB) mtypeWb eptRead
  eptIdentity ept info.msgInput mtypeWb (eptRead ||| eptWrite)
  eptIdentity ept info.msgOutput mtypeWb (eptRead ||| eptWrite)
  eptIdentity ept info.msgReady mtypeWb (eptRead ||| eptWrite)
  eptIdentity ept info.msgReadyBitmap mtypeWb (eptRead ||| eptWrite)
  eptMapSections ept info.vm
  eptMapFds ept info.vm.fds
  if info.vm.channels > 0 then
    eptIdentity ept info.vm.channels mtypeWb (eptRead ||| eptWrite)
  eptUpdate ept 0xC0000000 0xC6000000 0xC0000000 mtypeUc (eptRead ||| eptWrite)

/-- `free_page_tables`.  Only the first entry of the root and the first four of the next table are
looked at. -/
def freePageTables (base : ℕ) : Pm Unit := do
  let pdpe := tableAddr ((← get).words base 0)
  if pdpe ≠ 0 then
    (List.range 4).forM fun i => do
      let e := (← get).words pdpe i
      if e ≠ 0 ∧ ¬ IsPse e then
        let pde := tableAddr e
        if pde ≠ 0 then
          (List.range pageTableEntries).forM fun j => do
            let e := (← get).words pde j
            if e ≠ 0 ∧ ¬ IsPse e then
              freePages (tableAddr e)
          freePages pde
  freePages pdpe
  freePages base

/-! ### Channels -/

/-- Assigning an entry of a `vm_channels` array. -/
def setChannel (page i e : ℕ) : Pm Unit :=
  modify fun s => { s.setWord page i e with arrayWrites := s.arrayWrites ++ [(page, i)] }

/-- The inner loop of `remove_channel_list`, with `n` iterations left: move the entries from `k` on
one place down, up to the first zero; the result is the value of `k` after the loop. -/
def shiftChannels (page : ℕ) : ℕ → ℕ → Pm ℕ
  | 0, k => pure k
  | n + 1, k => do
    let s ← get
    if s.words page k = 0 then
      pure k
    else
      setChannel page k (s.words page (k + 1))
      shiftChannels page n (k + 1)

/-- The loop of `remove_channel_list` over one array; `found` says whether the channel was seen. -/
def removeFrom (page channel : ℕ) (found : Bool) : Pm Bool :=
  (List.range maxChannels).foldlM (fun found j => do
    if (← get).words page j = channel then
      let k ← shiftChannels page (maxChannels - 1 - j) j
      setChannel page (k + 1) 0
      return true
    else
      return found) found

/-- `remove_channel_list` -/
def removeChannelList (channel : ℕ) : Pm Unit := do
  if channel = 0 then
    throw (.panic .removeZero)
  let found ← (List.range (← get).ncpus).foldlM (fun found i => do
    let c ← derefCpu i
    let page := ((← get).cpus c).vm.channels
    if page = 0 then
      return found
    else
      removeFrom page channel found) false
  if !found then
    throw (.panic .channelNotFound)

/-- `add_channel_list` -/
def addChannelList (c channel : ℕ) : Pm Unit := do
  let s ← get
  let page := (s.cpus c).vm.channels
  if page = 0 then
    throw (.panic .noChannels)
  else if channel = 0 then
    throw (.panic .channelZero)
  else
    match (List.range maxChannels).find? fun i => s.words page i = 0 with
    | some i => setChannel page i channel
    | none => pure ()

/-- `local_channel` -/
def localChannel (end1 end2 : ℕ) : Pm ℕ := do
  let c1 ← derefCpu end1
  let c2 ← derefCpu end2
  let s ← get
  if (s.cpus c1).hasVm = false then
    throw (.panic .noVm1)
  else if (s.cpus c2).hasVm = false then
    throw (.panic .noVm2)
  else if !isDriver (s.cpus c2).cpuid then
    throw (.panic .notDriver)
  else
    let channel ← allocCleanPages (pages size4KB size4KB)
    if channel = 0 then
      throw (.panic .channelAlloc)
    eptIdentity (s.cpus c1).vm.ept channel mtypeWt (eptRead ||| eptWrite)
    eptIdentity (s.cpus c2).vm.ept channel mtypeWt (eptRead ||| eptWrite)
    addChannelList c2 channel
    modify fun s => { s with openChannels := s.openChannels ++ [⟨channel, c1, c2⟩] }
    return channel

/-- `local_channel_close` -/
def localChannelClose (channel : ℕ) : Pm Unit := do
  removeChannelList channel
  freePages channel
  modify fun s => { s with openChannels := s.openChannels.filter fun o => o.addr ≠ channel }

/-! ### Fork -/

/-- What `local_fork` reads of a request: the saved registers of the parent, and the address of its
variable `cpuinfo`. -/
structure ForkArgs where
  regs : Regs
  cpuinfoVaddr : ℕ
  deriving DecidableEq, Repr, Inhabited

/-- The pages of a section that parent and child may share: a block of the allocator gets one more
reference, other memory is copied. -/
def forkShared (sec : VmSection) : Pm ℕ := do
  if reallocable (← get).memory sec.paddr then
    reallocPages sec.paddr
  else
    allocPages (pages sec.size size4KB)

/-- The record of the child, up to its stack. -/
def forkSections (parent child : ℕ) : Pm Unit := do
  let p := ((← get).cpus parent).vm
  modify (updateVm child fun v => { v with
    startVaddr := p.startVaddr, startPaddr := p.startPaddr
    endVaddr := p.endVaddr, endPaddr := p.endPaddr })
  let code ← forkShared p.code
  modify (updateVm child fun v => { v with code := { p.code with paddr := code } })
  let data ← allocPages (pages p.data.size size4KB)
  modify (updateVm child fun v => { v with data := { p.data with paddr := data } })
  let rodata ← forkShared p.rodata
  modify (updateVm child fun v => { v with rodata := { p.rodata with paddr := rodata } })
  let bss ← allocPages (pages p.bss.size size4KB)
  modify (updateVm child fun v => { v with bss := { p.bss with paddr := bss } })
  let stack ← allocPages (pages p.stack.size size4KB)
  modify (updateVm child fun v => { v with stack := { p.stack with paddr := stack } })

/-- Copying the used part of the stack. -/
def forkStack (parent child rsp : ℕ) : Pm Unit := do
  let s ← get
  let p := (s.cpus parent).vm
  let c := (s.cpus child).vm
  let dst ← translate c rsp
  let src ← translate p rsp
  if dst = 0 then
    throw (.panic .childStack)
  else if src = 0 then
    throw (.panic .parentStack)
  else
    writeUser [c] dst ((p.stack.vaddr + p.stack.size + 2 ^ 64 - rsp) % 2 ^ 64)

/-- The page of descriptors, or for a driver that of the channels. -/
def forkPages (child : ℕ) : Pm Unit := do
  if isDriver ((← get).cpus child).cpuid then
    -- `MAX_CHANNELS * sizeof (virt_addr_t)`
    let a ← allocCleanPages (pages (maxChannels * 8) size4KB)
    modify (updateVm child fun v => { v with channels := a })
  else
    -- `MAX_FD * sizeof (struct file_descriptor)`
    let a ← allocCleanPages (pages (maxFd * 24) size4KB)
    modify (updateVm child fun v => { v with fds := a })

/-- Copying the descriptors; a character device gets a new channel for the child. -/
def forkFds (parent child : ℕ) : Pm Unit := do
  let s ← get
  let src := (s.cpus parent).vm.fds
  let dst := (s.cpus child).vm.fds
  if dst ≠ 0 ∧ src ≠ 0 then
    modify fun s => { s with
      fdTable := fun t i => if t = dst ∧ i < maxFd then s.fdTable src i else s.fdTable t i }
    (List.range maxFd).forM fun i => do
      let fd := (← get).fdTable dst i
      if fd.type = typeChar then
        let channel ← localChannel (s.cpus child).cpuid fd.dst
        modify fun s => s.setFd dst i { s.fdTable dst i with offset := channel }

/-- The registers of the child, and its variable `cpuinfo`, which is looked for in the bss. -/
def forkRegs (parent child : ℕ) (args : ForkArgs) : Pm Unit := do
  modify (updateVm child fun v => { v with regs := args.regs })
  let s ← get
  let p := (s.cpus parent).vm
  let c := (s.cpus child).vm
  let a ← translate p args.cpuinfoVaddr
  writeUser [c, p] ((c.bss.paddr + (a + 2 ^ 64 - p.bss.paddr)) % 2 ^ 64) 8
  modify (updateVm child fun v => { v with regs := { v.regs with rax := 0 } })

/-- `local_fork` -/
def localFork (fromId : ℕ) (args : ForkArgs) : Pm ℤ := do
  match getCpuInfo fromId with
  | none => return -1
  | some info =>
    let parentId := ((← get).cpus info).cpuid
    match ← findFreeVm with
    | none => return -1
    | some child =>
      modify (updateCpu child fun c => { c with hasVm := true })
      let parent ← derefCpu parentId
      modify (updateVm child fun v => { v with parent := parentId, state := .running })
      forkSections parent child
      forkStack parent child args.regs.rsp
      forkPages child
      eptPmap child
      forkFds parent child
      forkRegs parent child args
      return ((← get).cpus child).cpuid

/-! ### Exec -/

/-- `Elf64_Phdr`, without the position of the contents in the file. -/
structure Phdr where
  vaddr : ℕ
  memsz : ℕ
  deriving DecidableEq, Repr, Inhabited

/-- What `local_exec` reads of a request, and FS's answer: the program headers of the file, if FS
found it.  An argument is its address in the memory of the caller and its text. -/
structure ExecArgs where
  elf : Option (List Phdr)
  path : List ℕ
  argv : List (ℕ × List ℕ)
  regs : Regs
  deriving DecidableEq, Repr, Inhabited

/-- The memory of a section that is loaded; an empty one gets none. -/
def loadSection (h : Phdr) : Pm VmSection := do
  let a ← if h.memsz > 0 then allocPages (pages h.memsz size4KB) else pure 0
  return ⟨a, h.vaddr, h.memsz⟩

/-- `if (old) free_mem_pages (old)` -/
def freeOld (old : ℕ) : Pm Unit := do
  if old ≠ 0 then
    freePages old

/-- The new sections of a VM.  An empty bss leaves the old `vm_bss_paddr` and `vm_bss_size` in
place. -/
def loadSections (c : ℕ) (code data rodata bss : Phdr) : Pm Unit := do
  modify (updateVm c fun v => { v with startVaddr := code.vaddr })
  let sec ← loadSection code
  if code.memsz = 0 then
    throw (.panic .noCode)
  modify (updateVm c fun v => { v with
    startPaddr := sec.paddr, code := sec, regs := { v.regs with rip := v.startVaddr } })
  let sec ← loadSection data
  modify (updateVm c fun v => { v with data := sec })
  let sec ← loadSection rodata
  modify (updateVm c fun v => { v with rodata := sec })
  modify (updateVm c fun v => { v with bss := { v.bss with vaddr := bss.vaddr } })
  if bss.memsz > 0 then
    let a ← allocPages (pages bss.memsz size4KB)
    modify (updateVm c fun v => { v with bss := { v.bss with paddr := a, size := bss.memsz } })
  let vaddr := alignPage ((bss.vaddr + bss.memsz) % 2 ^ 64)
  modify (updateVm c fun v => { v with stack := { v.stack with vaddr := vaddr, size := size2MB } })
  let a ← allocPages (pages size2MB size4KB)
  modify (updateVm c fun v => { v with
    stack := { v.stack with paddr := a }
    regs := { v.regs with rsp := (vaddr + size2MB) % 2 ^ 64, rflags := 0x2 } })
  -- the end addresses are computed from the places of the first and of the last section
  modify (updateVm c fun v =>
    let size := (v.stack.paddr + v.stack.size + 2 ^ 64 - v.startPaddr) % 2 ^ 64
    { v with
      endVaddr := (v.startVaddr + size) % 2 ^ 64
      endPaddr := (v.startPaddr + size) % 2 ^ 64 })

/-- `load_elf` -/
def loadElf (c : ℕ) (elf : List Phdr) : Pm Unit := do
  let old := ((← get).cpus c).vm
  match elf with
  | [code, data, rodata, bss] =>
    loadSections c code data rodata bss
    freeOld old.code.paddr
    freeOld old.data.paddr
    freeOld old.rodata.paddr
    freeOld old.bss.paddr
    freeOld old.stack.paddr
    freePageTables old.pageTables
    freePageTables old.ept
  | _ => throw (.panic .vmHeader)

/-- The size of `arg_vector[i]`, `MAX_ARGV_LEN`, and the number of its entries, `MAX_ARGV`. -/
abbrev maxArgvLen : ℕ := 256

@[inherit_doc maxArgvLen]
abbrev maxArgv : ℕ := 16

/-- Saving the arguments in `arg_vector`; the first one is the path. -/
def saveArgs (c : ℕ) (args : ExecArgs) : Pm (List (List ℕ)) := do
  let vm := ((← get).cpus c).vm
  let argv := args.argv.take (maxArgv - 1)
  argv.forM fun a => do
    let _ ← translate vm a.1
  let saved := args.path :: argv.map Prod.snd
  saved.forM fun a => do
    if a.length ≥ maxArgvLen then
      throw (.outOfBounds a.length)
  return saved

/-- Putting the saved arguments and their addresses on the new stack. -/
def passArgs (c : ℕ) (saved : List (List ℕ)) : Pm Unit := do
  let s ← get
  let vm := (s.cpus c).vm
  let top ← translate vm vm.regs.rsp
  let size := (saved.map fun a => a.length + 1).sum + saved.length * 8
  writeUser [vm] (top - size) size
  let argvPtr := (vm.regs.rsp + 2 ^ 64 - size) % 2 ^ 64
  modify (updateVm c fun v => { v with regs := { v.regs with
    rsp := (argvPtr + 2 ^ 64 - 8) % 2 ^ 64
    rdx := s.cpuinfoBase + c * size4KB
    rdi := saved.length
    rsi := argvPtr } })

/-- `local_exec` -/
def localExec (fromId : ℕ) (args : ExecArgs) : Pm ℤ := do
  let c ← derefCpu fromId
  match args.elf with
  | none =>
    modify (updateVm c fun v => { v with regs := args.regs })
    return -1
  | some elf =>
    let saved ← saveArgs c args
    loadElf c elf
    eptPmap c
    passArgs c saved
    return 0

/-! ### Exit and wait -/

/-- `close_channel`: the driver is told through the channel and then, in the name of FS, by a
message. -/
def closeChannel (c fd : ℕ) : Pm Unit := do
  let fds := ((← get).cpus c).vm.fds
  let offset := ((← get).fdTable fds fd).offset
  if offset = 0 then
    throw (.panic .cnlSend)
  localChannelClose offset
  modify fun s => s.setFd fds fd { s.fdTable fds fd with offset := 0 }
  let dst := if fd = 0 then kbdId else if fd = 1 then consoleId else junkId
  modify (post ⟨fsId, dst, channelCloseIpc, .result 0⟩)

/-- Releasing the memory of a VM that exits. -/
def exitFree (c : ℕ) : Pm Unit := do
  let vm := ((← get).cpus c).vm
  freeOld vm.code.paddr
  freeOld vm.data.paddr
  freeOld vm.rodata.paddr
  freeOld vm.bss.paddr
  freeOld vm.stack.paddr
  freePageTables vm.pageTables
  freePageTables vm.ept

/-- Closing the channels of a VM that exits, and releasing its page of descriptors. -/
def exitFds (c : ℕ) : Pm Unit := do
  let fds := ((← get).cpus c).vm.fds
  if fds ≠ 0 then
    (List.range maxFd).forM fun i => do
      if ((← get).fdTable fds i).type = typeChar then
        closeChannel c i
    freePages fds
    modify (updateVm c fun v => { v with fds := 0 })

/-- Releasing the array of channels of a driver that exits. -/
def exitChannels (c : ℕ) : Pm Unit := do
  let channels := ((← get).cpus c).vm.channels
  if channels ≠ 0 then
    freePages channels
    modify (updateVm c fun v => { v with channels := 0 })

/-- `local_exit` -/
def localExit (fromId : ℕ) (status : ℤ) : Pm Unit := do
  match getCpuInfo fromId with
  | none => throw (.panic .halted)
  | some c =>
    exitFree c
    match getCpuInfo ((← get).cpus c).vm.parent with
    | none => throw (.panic .noCpuInfo)
    | some parent =>
      exitFds c
      exitChannels c
      let s ← get
      if (s.cpus parent).vm.state = .waitChld then
        modify (updateCpu c fun i => { i with hasVm := false })
        modify (post ⟨pmId, (s.cpus parent).cpuid, waitpidIpc,
          .waitpid (s.cpus c).cpuid (some status)⟩)
      else
        modify (updateVm c fun v => { v with exitStatus := status })

/-- The child that `local_waitpid` finds for the CPU `c`: `none` for an invalid request, and
`some none` when there is no finished child yet. -/
def findChild (s : PmState) (c : ℕ) (waitFor : ℤ) : Option (Option ℕ) :=
  if waitFor < -1 ∨ waitFor > maxCpus then
    none
  else if waitFor ≠ -1 then
    let child := waitFor.toNat
    if (s.cpus c).cpuid ≠ (s.cpus child).vm.parent then
      none
    else if (s.cpus child).vm.state ≠ .zombie then
      some none
    else
      some (some child)
  else
    some ((List.range' alwaysBusy (maxCpus - alwaysBusy)).find? fun i =>
      (s.cpus i).vm.parent = (s.cpus c).cpuid ∧ (s.cpus i).vm.state = .zombie)

/-- `local_waitpid`: the reply, `none` when it is deferred. -/
def localWaitpid (fromId : ℕ) (waitFor : ℤ) : Pm (Option Payload) := do
  match getCpuInfo fromId with
  | none => throw (.panic .halted)
  | some c =>
    let s ← get
    match findChild s c waitFor with
    | none => return some (.waitpid (-1) none)
    | some (some child) =>
      modify (updateCpu child fun i => { i with hasVm := false })
      let pid := (s.cpus child).cpuid
      -- a reply for the child 0 would not be sent
      return if pid = 0 then none else
        some (.waitpid pid (some (s.cpus child).vm.exitStatus))
    | some none =>
      modify (updateVm c fun v => { v with state := .waitChld })
      return none

/-! ### The loop -/

/-- A request. -/
inductive Request where
  | fork (args : ForkArgs)
  | exec (args : ExecArgs)
  | exit (status : ℤ)
  | waitpid (waitFor : ℤ)
  | channel (end1 end2 : ℕ)
  | channelClose (cnl : ℕ)
  | other (number : ℕ)
  deriving DecidableEq, Repr

/-- `msg_reply` to the sender of a request. -/
def reply (dst number : ℕ) (data : Payload) : Pm Unit := modify (post ⟨pmId, dst, number, data⟩)

/-- Serving one request of the CPU `fromId`: one turn of the loop of `vm_main`. -/
def handle (fromId : ℕ) : Request → Pm Unit
  | .fork args => do
    let r ← localFork fromId args
    if r ≠ -1 then
      modify fun s => { s with live := insert r.toNat s.live }
      -- the start message of the child
      reply r.toNat forkIpc (.result r)
    reply fromId forkIpc (.result r)
  | .exec args => do
    let r ← localExec fromId args
    reply fromId execIpc (.result r)
  | .exit status => do
    localExit fromId status
    modify fun s => { s with live := s.live.erase fromId }
  | .waitpid waitFor => do
    match ← localWaitpid fromId waitFor with
    | some data => reply fromId waitpidIpc data
    | none => pure ()
  | .channel end1 end2 => do
    let channel ← localChannel end1 end2
    reply fromId channelIpc (.channel channel)
  | .channelClose cnl => do
    localChannelClose cnl
    reply fromId channelCloseIpc (.result 0)
  | .other number => reply fromId number (.result (-1))

end Savannah
