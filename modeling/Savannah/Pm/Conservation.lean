import Savannah.Pm.Devices

/-!
# What PM conserves

In every run of PM and FS in order the memory that PM has handed out is accounted for.  The
reference count of a block is the number of records that name it: sections of the live VMs, their
tables, their pages of descriptors and channels, and the open channels (`holders_of_run`).  What has
one holder overlaps nothing else (`alone_of_run`).  So no request stops in `free_mem_pages`
(`free_of_run`), a VM can always exit (`exit_of_run`), and when all VMs have exited, the pool is one
free block again (`restored_of_run`).  The arrays of the drivers list the open channels and nothing
else (`registry_of_run`).
-/

namespace Savannah

open Foundation PmState MemoryState

/-! ### Who records a block -/

/-- The blocks that are recorded once: tables, private sections and pages of the live VMs, and the
pages of the open channels. -/
def PmState.exclusiveBlocks (s : PmState) : Multiset (ℕ × ℕ) :=
  pageBlocks (s.tables s.live) + (s.own s.live + s.channelBlocks)

/-- All blocks that are recorded, each as often as it is; code and rodata may be recorded by several
VMs. -/
def PmState.recordedBlocks (s : PmState) : Multiset (ℕ × ℕ) := s.exclusiveBlocks + s.shared s.live

section Holders

variable {pool B c : ℕ} {maps : ℕ → View} {files : List Fs.FileHeader} {evs : List DeviceEvent}
  {s₀ s t : PmState}

/-- The blocks of the ledger. -/
theorem PmState.Accounted.ledger (h : s.Accounted pool B maps) :
    Ledger s.memory pool s.exclusiveBlocks (s.shared s.live) := by
  have hled := h.books.account.ledger
  rw [add_zero, add_zero] at hled
  exact hled

/-- The block of a section of a live VM is recorded. -/
theorem PmState.section_recorded (hc : c ∈ s.live) {sec : VmSection}
    (hsec : sec ∈ (s.cpus c).vm.sections) (hne : sec.paddr ≠ 0) :
    (sec.paddr, pages sec.size size4KB) ∈ s.recordedBlocks := by
  have hmem := Multiset.mem_of_le (VmProc.block_le hsec)
    (mem_blockAt (n := pages sec.size size4KB) hne)
  unfold PmState.recordedBlocks PmState.exclusiveBlocks
  rw [own_eq hc, shared_eq hc]
  simp only [Multiset.mem_add] at hmem ⊢
  rcases hmem with hmem | hmem
  · exact Or.inl (Or.inr (Or.inl (Or.inl hmem)))
  · exact Or.inr (Or.inl hmem)

/-- A run in order, from PM after the boot. -/
theorem PmState.Fresh.run (hfresh : s₀.Fresh pool) (hfiles : RegularFiles files)
    (hrun : Run (orderedStep files) s₀ evs s) :
    ∃ maps, DeviceInv pool maps s :=
  (hfresh.deviceInv fun _ => ⟨[], []⟩).run hfiles hrun

/-- In every run the reference count of a block is the number of records that name it; a page at
which no recorded block starts has the count 0. -/
theorem holders_of_run (hfresh : s₀.Fresh pool) (hfiles : RegularFiles files)
    (hrun : Run (orderedStep files) s₀ evs s) {i : ℕ}
    (hi : i < s.memory.allNodes) : (s.memory.blockNodeArray i).bRef =
      s.recordedBlocks.countP fun x => x.1 = s.memory.pageAddr i := by
  obtain ⟨maps, hinv⟩ := hfresh.run hfiles hrun
  exact hinv.accounted.ledger.bRef_eq hi

theorem holders_of_run_stdin : ∃ (m : MemoryState) (s : PmState),
    Run (orderedStep []) (bootPm m) stdinEvents s ∧
    0 < s.memory.allNodes ∧ (s.memory.blockNodeArray 0).bRef =
      s.recordedBlocks.countP fun x => x.1 = s.memory.pageAddr 0 := by
  obtain ⟨m, s, hfresh, hrun, -⟩ := bootPm_stdin
  obtain ⟨maps, hinv⟩ := hfresh.run regularFiles_nil hrun
  obtain ⟨L, hmem, -⟩ := hinv.accounted.ledger.held
  have hpos : 0 < s.memory.allNodes := hmem.layout.pool_pos.trans_le hmem.layout.pool_le
  exact ⟨m, s, hrun, hpos, holders_of_run hfresh regularFiles_nil hrun hpos⟩

/-- In every run a block that is recorded once has no byte in common with any other record. -/
theorem alone_of_run (hfresh : s₀.Fresh pool) (hfiles : RegularFiles files)
    (hrun : Run (orderedStep files) s₀ evs s) {x y : ℕ × ℕ}
    (hx : x ∈ s.exclusiveBlocks) (hy : y ∈ s.recordedBlocks.erase x) {a : ℕ}
    (ha : x.1 ≤ a ∧ a < x.1 + x.2 * 4096) : ¬ (y.1 ≤ a ∧ a < y.1 + y.2 * 4096) := by
  obtain ⟨maps, hinv⟩ := hfresh.run hfiles hrun
  exact hinv.accounted.ledger.alone hx hy ha

/-- The channel of the keyboard and the page of descriptors of the VM that has opened it. -/
theorem alone_of_run_stdin : ∃ (m : MemoryState) (s : PmState),
    Run (orderedStep []) (bootPm m) stdinEvents s ∧
    ((s.descriptors 6 0).offset, 1) ∈ s.exclusiveBlocks ∧
    ¬ ((s.cpus 6).vm.fds ≤ (s.descriptors 6 0).offset ∧
      (s.descriptors 6 0).offset < (s.cpus 6).vm.fds + 1 * 4096) := by
  obtain ⟨m, s, hfresh, hrun, h6, htype, -⟩ := bootPm_stdin
  obtain ⟨maps, hinv⟩ := hfresh.run regularFiles_nil hrun
  have hopen := (hinv.entries.opened 6 h6 0 (by decide) htype).1
  have hne : (s.cpus 6).vm.fds ≠ 0 := by
    intro h0
    rw [PmState.descriptors, if_pos h0] at htype
    exact absurd htype (by decide)
  have hx : ((s.descriptors 6 0).offset, 1) ∈ s.channelBlocks :=
    mem_pageBlocks.mpr ⟨Multiset.mem_coe.mpr (List.mem_map_of_mem hopen), rfl⟩
  have hown := mem_own_of_fds h6 hne
  have hmem : ((s.descriptors 6 0).offset, 1) ∈ s.exclusiveBlocks :=
    Multiset.mem_add.mpr (Or.inr (Multiset.mem_add.mpr (Or.inr hx)))
  have hy : ((s.cpus 6).vm.fds, 1) ∈ s.recordedBlocks.erase ((s.descriptors 6 0).offset, 1) := by
    -- the page of descriptors is no channel
    have hdiff : ((s.cpus 6).vm.fds, 1) ≠ ((s.descriptors 6 0).offset, 1) := by
      intro heq
      have hnd := (Multiset.nodup_add.mp hinv.accounted.ledger.nodup).2.1
      rw [heq] at hown
      exact Multiset.disjoint_left.mp (Multiset.nodup_add.mp hnd).2.2 hown hx
    refine (Multiset.mem_erase_of_ne hdiff).mpr (Multiset.mem_add.mpr (Or.inl ?_))
    exact Multiset.mem_add.mpr (Or.inr (Multiset.mem_add.mpr (Or.inl hown)))
  exact ⟨m, s, hrun, hmem, alone_of_run hfresh regularFiles_nil hrun hmem hy
    ⟨le_rfl, Nat.lt_add_of_pos_right (by norm_num)⟩⟩

/-- The devices of a VM are open. -/
theorem DeviceInv.fds_open (h : DeviceInv pool maps s) (hc : c ∈ s.live) :
    FdsOpen s (s.descriptors c) := by
  constructor
  · refine List.Nodup.map_on (fun i hi j hj heq => ?_) (List.nodup_range.filter _)
    obtain ⟨hilt, hchar⟩ := mem_charFds.mp hi
    obtain ⟨hjlt, hchar'⟩ := mem_charFds.mp hj
    exact h.entries.apart c hc i (List.mem_range.mp hilt) j (List.mem_range.mp hjlt)
      hchar hchar' heq
  · intro a ha
    obtain ⟨i, hi, rfl⟩ := List.mem_map.mp ha
    obtain ⟨hilt, hchar⟩ := mem_charFds.mp hi
    exact List.mem_map_of_mem (h.entries.opened c hc i (List.mem_range.mp hilt) hchar).1

/-- A VM can exit, unless it is a driver that still has channels. -/
theorem DeviceInv.exit (hinv : DeviceInv pool maps s) (hok : s.allocFailed = false) {status : ℤ}
    (horder : DeviceOrder files s (.pm ⟨c, .exit status⟩)) :
    ∃ t, deviceStep files s (.pm ⟨c, .exit status⟩) t ∧ t.live = s.live.erase c ∧
      t.openChannels = (s.openChannels.filter fun o => o.end1 ≠ c) ∧ t.allocFailed = false := by
  obtain ⟨hc, hempty, hroom⟩ := horder
  have hlt : c < s.ncpus := (hinv.accounted.live c hc).2.1
  have hparent : (s.cpus c).vm.parent ≤ maxCpus := by
    have hlt' : (s.cpus c).vm.parent < s.ncpus := hinv.procs.parent c
    exact (Nat.le_of_lt hlt').trans hinv.machine.ncpus_le
  obtain ⟨t, ht, hdep, hok', -⟩ := hinv.accounted.exit_returns status le_rfl hinv.machine hc
    hempty (fun a _ d _ => by have := hroom d; omega) (hinv.fds_open hc) hparent hok
  refine ⟨t, ⟨trivial, hlt, ht⟩, hdep.live, ?_, hok'⟩
  rw [hdep.opened]
  -- the channels of the descriptors are those of which the VM is the first end
  refine List.filter_congr fun o ho => decide_eq_decide.mpr (not_congr ?_)
  constructor
  · intro hmem
    obtain ⟨i, hi, haddr⟩ := List.mem_map.mp hmem
    obtain ⟨hilt, hchar⟩ := mem_charFds.mp hi
    have hopen := (hinv.entries.opened c hc i (List.mem_range.mp hilt) hchar).1
    exact congrArg OpenChannel.end1 (hinv.accounted.books.account.channel_eq ho hopen haddr.symm)
  · rintro rfl
    obtain ⟨-, i, hi, hchar, haddr⟩ := hinv.entries.owner o ho
    exact List.mem_map.mpr ⟨i, mem_charFds.mpr ⟨List.mem_range.mpr hi, hchar⟩, haddr⟩

/-- In every run without a failed allocation a VM can exit, unless it is a driver that still has
channels: PM does not stop, and the VM and its channels are gone. -/
theorem exit_of_run (hfresh : s₀.Fresh pool) (hfiles : RegularFiles files)
    (hrun : Run (orderedStep files) s₀ evs s)
    (hok : s.allocFailed = false) {status : ℤ}
    (horder : DeviceOrder files s (.pm ⟨c, .exit status⟩)) :
    ∃ t, deviceStep files s (.pm ⟨c, .exit status⟩) t ∧ t.live = s.live.erase c ∧
      t.openChannels = (s.openChannels.filter fun o => o.end1 ≠ c) ∧ t.allocFailed = false := by
  obtain ⟨maps, hinv⟩ := hfresh.run hfiles hrun
  exact hinv.exit hok horder

/-- A VM with a bss has opened "stdin", and may exit. -/
theorem bootPm_leaving : ∃ m s a, (bootPm m).Fresh 776224 ∧
    Run (orderedStep []) (bootPm m) stdinEvents s ∧
    s.allocFailed = false ∧ s.ncpus = 8 ∧ (s.cpus 6).vm.bss.paddr ≠ 0 ∧
    s.openChannels = [⟨a, 6, kbdId⟩] ∧ DeviceOrder [] s (.pm ⟨6, .exit 0⟩) := by
  obtain ⟨m, s, hfresh, hrun, h6, -, hres, hncpus, -, a, hopened, hbss⟩ := bootPm_stdin
  obtain ⟨maps, hinv⟩ := hfresh.run regularFiles_nil hrun
  have hbacked := hinv.accounted.books.account.backed hres.ok 6 h6 (s.cpus 6).vm.bss
    (by simp [VmProc.sections]) (by rw [hbss]; decide)
  refine ⟨m, s, a, hfresh, hrun, hres.ok, hncpus, hbacked, hopened, h6, ?_, fun d => ?_⟩
  · rw [PmState.channelsOf, hopened]
    rfl
  · have hle : (s.channelsOf d).length ≤ s.openChannels.length := by
      rw [PmState.channelsOf, List.length_map]
      exact List.length_filter_le _ _
    rw [hopened, List.length_singleton] at hle
    exact hle.trans_lt (by decide)

theorem exit_of_run_stdin : ∃ (m : MemoryState) (s t : PmState) (a : ℕ),
    Run (orderedStep []) (bootPm m) stdinEvents s ∧
    (s.cpus 6).vm.bss.paddr ≠ 0 ∧ s.openChannels = [⟨a, 6, kbdId⟩] ∧
    deviceStep [] s (.pm ⟨6, .exit 0⟩) t ∧ t.live = s.live.erase 6 ∧ t.openChannels = [] := by
  obtain ⟨m, s, a, hfresh, hrun, hok, -, hbss, hopened, horder⟩ := bootPm_leaving
  obtain ⟨t, hstep, hlive, hleft, -⟩ := exit_of_run hfresh regularFiles_nil hrun hok horder
  rw [hopened] at hleft
  exact ⟨m, s, t, a, hrun, hbss, hopened, hstep, hlive, hleft⟩

/-- In every run that ends without VMs PM has everything back: no channel is open, no block is in
use, and the whole pool can be allocated in one piece. -/
theorem restored_of_run (hfresh : s₀.Fresh pool) (hfiles : RegularFiles files)
    (hrun : Run (orderedStep files) s₀ evs s) (hnone : s.live = ∅) :
    s.openChannels = [] ∧ (∀ i < s.memory.allNodes, (s.memory.blockNodeArray i).bRef = 0) ∧
      ∃ m, allocMemPages pool s.memory = .ok (s.memory.firstFreeAddr, m) := by
  obtain ⟨maps, hinv⟩ := hfresh.run hfiles hrun
  have hopen : s.openChannels = [] := by
    refine List.eq_nil_iff_forall_not_mem.mpr fun o ho => ?_
    have hlive := (hinv.entries.owner o ho).1
    rw [hnone] at hlive
    exact Finset.notMem_empty _ hlive
  have hled := hinv.accounted.ledger
  have hall : s.exclusiveBlocks = 0 ∧ s.shared s.live = 0 := by
    unfold PmState.exclusiveBlocks PmState.tables PmState.own PmState.shared PmState.channelBlocks
    rw [hnone, hopen]
    exact ⟨rfl, rfl⟩
  rw [hall.1, hall.2] at hled
  refine ⟨hopen, fun i hi => ?_, ?_⟩
  · rw [hled.bRef_eq hi]
    rfl
  · exact hled.alloc_pool

/-- A child of INIT that has done nothing yet may exit. -/
theorem InitForked.exit_order {k n j : ℕ} (h : InitForked pool B n k s₀ s) (hj : j ∈ s.live)
    (status : ℤ) : DeviceOrder [] s (.pm ⟨j, .exit status⟩) := by
  have hnone : ∀ d, s.channelsOf d = [] := by
    intro d
    unfold PmState.channelsOf
    rw [h.opened]
    rfl
  refine ⟨hj, hnone j, fun d => ?_⟩
  rw [hnone]
  decide

theorem restored_of_run_first : ∃ (m : MemoryState) (s : PmState),
    Run (orderedStep []) (bootPm m)
      [.pm ⟨initId, .fork bootArgs⟩, .pm ⟨3, .exit 0⟩] s ∧
    s.live = ∅ ∧ ∃ m', allocMemPages 776224 s.memory = .ok (s.memory.firstFreeAddr, m') := by
  obtain ⟨m, s, hfresh, -, hrun, hforked⟩ := bootPm_devices (k := 1) (by decide)
  obtain ⟨maps, hinv⟩ := hfresh.run regularFiles_nil hrun
  have hlive : ∀ j, j ∈ s.live ↔ j = 3 := by
    intro j
    rw [hforked.live]
    constructor
    · rintro ⟨hge, hlt⟩
      exact le_antisymm (Nat.le_of_lt_succ hlt) hge
    · rintro rfl
      decide
  have horder := hforked.exit_order ((hlive 3).mpr rfl) 0
  obtain ⟨t, hstep, hlive', -⟩ := hinv.exit hforked.reserve.ok horder
  have hnone : t.live = ∅ := by
    rw [hlive']
    refine Finset.eq_empty_of_forall_notMem fun j hj => ?_
    exact Finset.ne_of_mem_erase hj ((hlive j).mp (Finset.mem_of_mem_erase hj))
  have hrun' := hrun.snoc ⟨horder, hstep⟩
  exact ⟨m, t, hrun', hnone, (restored_of_run hfresh regularFiles_nil hrun' hnone).2.2⟩

end Holders

/-! ### Requests never free what is not held -/

/-- The requests that PM gets in an event. -/
def Asked (files : List Fs.FileHeader) (s : PmState) : DeviceEvent → PmEvent → Prop
  | .pm e, e' => e' = e ∧ e.request.OfVm ∧ e.sender < s.ncpus
  | .fs c req, e' => ∃ pm fs' r, Fs.handle c pm req (s.fsView files) = .ok () fs' ∧
      fsAsks c req (s.fsView files) fs' = some r ∧ e' = ⟨fsId, r⟩

section Requests

variable {pool B c : ℕ} {maps : ℕ → View} {files : List Fs.FileHeader} {evs : List DeviceEvent}
  {pm : Fs.PmAnswer} {req : Fs.FsRequest} {fs' : Fs.FsState} {r : Request} {s₀ s t : PmState}

/-- FS asks PM for a channel of the VM that it serves, or to close a channel. -/
theorem DeviceInv.fs_asks (h : DeviceInv pool maps s) (hin : req.InBounds (s.fsView files) c)
    (hrun : Fs.handle c pm req (s.fsView files) = .ok () fs')
    (hask : fsAsks c req (s.fsView files) fs' = some r) :
    (∃ d, r = .channel c d ∧ c ∈ s.live) ∨ ∃ a, r = .channelClose a := by
  cases req with
  | «open» pathname flags =>
    cases (Fs.handle_open hin).ok hrun with
    | refused hun =>
      rw [fsAsks_none (by rintro _ ⟨⟩) hun.2] at hask
      cases hask
    | file fd header hmem hname hfree hassign hch =>
      rw [fsAsks_none (by rintro _ ⟨⟩) hch] at hask
      cases hask
    | char fd hfree hassign hch =>
      unfold fsAsks at hask
      dsimp only at hask
      rw [hch, List.drop_left] at hask
      obtain rfl := Option.some.inj hask
      exact Or.inl ⟨_, rfl, (hasFds_live h.accounted hassign.table).1⟩
  | close fd =>
    unfold fsAsks at hask
    dsimp only at hask
    split at hask
    · exact Or.inr ⟨_, (Option.some.inj hask).symm⟩
    · cases hask
  | _ =>
    have hun := (Fs.handle_other hin nofun nofun).ok hrun
    rw [fsAsks_none (by rintro _ ⟨⟩) hun.2] at hask
    cases hask

/-- In every run PM never stops in `free_mem_pages`, whatever request in order comes next: it frees
only blocks that are in use. -/
theorem free_of_run (hfresh : s₀.Fresh pool) (hfiles : RegularFiles files)
    (hrun : Run (orderedStep files) s₀ evs s) {e : DeviceEvent}
    {e' : PmEvent} (horder : DeviceOrder files s e) (hasked : Asked files s e e')
    (p : MemoryPanic) : handle e'.sender e'.request s ≠ .error (.panic (.free p)) t := by
  intro hstop
  obtain ⟨maps, hm, hp, hacc, hent⟩ := hfresh.run hfiles hrun
  cases e with
  | pm e =>
    obtain ⟨rfl, hvm, hlt⟩ := hasked
    obtain ⟨c, req⟩ := e'
    have hcle : c ≤ maxCpus := (Nat.le_of_lt hlt).trans hm.ncpus_le
    cases req with
    | fork args =>
      exact ((hacc.fork (P := False) (Nat.le_succ _) hm hlt horder.1 horder.2 False.elim
        False.elim).error hstop).1 p rfl
    | exec args => exact ((hacc.exec hm horder.1 horder.2).error hstop).1 p rfl
    | exit status =>
      obtain ⟨hc, hempty, hroom⟩ := horder
      exact ((hacc.exit (P := False) status le_rfl hm hc hempty
        (fun a _ d _ => by have := hroom d; omega) False.elim).error hstop).1 p rfl
    | waitpid w => exact ((hacc.waitpid (P := False) hp hcle).error hstop).1 p rfl
    | other number => cases hstop
    | channel end1 end2 => exact hvm.elim
    | channelClose a => exact hvm.elim
  | fs c req =>
    obtain ⟨pm, fs', r, hfs, hask, rfl⟩ := hasked
    obtain ⟨hin, hroom⟩ := horder
    rcases DeviceInv.fs_asks ⟨hm, hp, hacc, hent⟩ hin hfs hask with ⟨d, rfl, hc⟩ | ⟨a, rfl⟩
    · exact ((hacc.channel (Nat.le_succ _) hc (hroom d)).error hstop).1 p rfl
    · exact ((hacc.channelClose le_rfl hm fun d _ => by have := hroom d; omega).error hstop).1 p rfl

/-- A VM with a bss and an open channel exits. -/
theorem free_of_run_stdin : ∃ (m : MemoryState) (s : PmState) (a : ℕ),
    Run (orderedStep []) (bootPm m) stdinEvents s ∧
    (s.cpus 6).vm.bss.paddr ≠ 0 ∧ s.openChannels = [⟨a, 6, kbdId⟩] ∧
    ∀ p t, handle 6 (.exit 0) s ≠ .error (.panic (.free p)) t := by
  obtain ⟨m, s, a, hfresh, hrun, -, hncpus, hbss, hopened, horder⟩ := bootPm_leaving
  have hasked : Asked [] s (.pm ⟨6, .exit 0⟩) ⟨6, .exit 0⟩ := ⟨rfl, trivial, by rw [hncpus]; decide⟩
  exact ⟨m, s, a, hrun, hbss, hopened,
    fun p t => free_of_run hfresh regularFiles_nil hrun horder hasked p⟩

end Requests

/-! ### The arrays of the drivers -/

/-- The arrays of the drivers list the open channels and nothing else: each array holds the channels
of its driver in the order in which they were opened, followed by zeros, and no entry behind the one
after the array was ever assigned. -/
structure PmState.RegistryExact (s : PmState) : Prop where
  lists : ∀ d, (s.cpus d).vm.channels ≠ 0 →
    ZeroTerminated maxChannels (s.words (s.cpus d).vm.channels) (s.channelsOf d)
  nodup : ∀ d, (s.channelsOf d).Nodup
  registered : ∀ o ∈ s.openChannels, ∀ d, s.Registered d o.addr ↔ d = o.end2
  writes : ∀ x ∈ s.arrayWrites, x.2 ≤ maxChannels

section Registry

variable {pool : ℕ} {maps : ℕ → View} {files : List Fs.FileHeader} {evs : List DeviceEvent}
  {s₀ s : PmState}

/-- The registry is exact. -/
theorem DeviceInv.registryExact (h : DeviceInv pool maps s) : s.RegistryExact := by
  have hbooks := h.accounted.books
  have hnodup := hbooks.account.nodup_channels
  refine ⟨hbooks.arrays.array, fun d => ?_, fun o ho d => ?_, fun x hx => ?_⟩
  · exact hnodup.sublist (List.filter_sublist.map _)
  · have hne := hbooks.account.channel_ne (List.mem_map_of_mem ho)
    have hiff : s.Registered d o.addr ↔ o.addr ∈ s.channelsOf d := by
      rw [← h.accounted.registered_iff]
      exact (and_iff_left hne).symm
    rw [hiff, mem_channelsOf]
    constructor
    · rintro ⟨o', ho', rfl, haddr⟩
      rw [hbooks.account.channel_eq ho' ho haddr]
    · rintro rfl
      exact ⟨o, ho, rfl, rfl⟩
  · exact Nat.le_of_lt_succ (h.accounted.writes x hx)

theorem registry_of_run (hfresh : s₀.Fresh pool) (hfiles : RegularFiles files)
    (hrun : Run (orderedStep files) s₀ evs s) : s.RegistryExact := by
  obtain ⟨maps, hinv⟩ := hfresh.run hfiles hrun
  exact hinv.registryExact

theorem registry_of_run_stdin : ∃ (m : MemoryState) (s : PmState),
    Run (orderedStep []) (bootPm m) stdinEvents s ∧
    s.openChannels ≠ [] ∧ s.RegistryExact := by
  obtain ⟨m, s, hfresh, hrun, h6, htype, -⟩ := bootPm_stdin
  obtain ⟨maps, hinv⟩ := hfresh.run regularFiles_nil hrun
  have hopen := (hinv.entries.opened 6 h6 0 (by decide) htype).1
  exact ⟨m, s, hrun, List.ne_nil_of_mem hopen, registry_of_run hfresh regularFiles_nil hrun⟩

end Registry

end Savannah
