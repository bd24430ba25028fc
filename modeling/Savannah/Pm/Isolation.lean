import Savannah.Pm.Views

/-!
# Isolation

What of the pool a VM can reach is what it holds, as long as it closes no character device: its
guest page tables, its sections, its page of descriptors and its open channels, and it can write
only to what it holds alone (`reachable_of_run`).  So it reaches no page of another VM that this VM
holds alone, and neither its own nested tables nor those of others (`isolated_of_run`).  The drivers
are left out, for nothing is taken out of the nested tables again: a driver keeps the pages of all
channels that were ever opened to it in view, and so does a VM that has closed a character device.
-/

namespace Savannah

open Foundation PmState MemoryState

/-! ### Where things lie -/

/-- An address of the pool. -/
def PmState.InPool (pool : ℕ) (s : PmState) (a : ℕ) : Prop :=
  s.memory.firstFreeAddr ≤ a ∧ a < s.memory.firstFreeAddr + pool * 4096

/-- A page outside of the pool. -/
def PmState.Outside (pool : ℕ) (s : PmState) (p : ℕ) : Prop :=
  p + 4096 ≤ s.memory.firstFreeAddr ∨ s.memory.firstFreeAddr + pool * 4096 ≤ p

/-- The pool lies between the screen and the windows to devices; the pages of the CPUs and the files
are outside of it. -/
structure PmState.Disposed (pool : ℕ) (files : List Fs.FileHeader) (s : PmState) : Prop where
  low : 0xB9000 ≤ s.memory.firstFreeAddr
  high : s.memory.firstFreeAddr + pool * 4096 ≤ 0xC0000000
  cpus : ∀ c < s.ncpus, ∀ p ∈ (s.cpus c).ownPages (s.infoAddr c), s.Outside pool p.1
  files : ∀ h ∈ files, s.Outside pool h.offset

/-- An address of the block. -/
def InBlock (z : ℕ × ℕ) (a : ℕ) : Prop := z.1 ≤ a ∧ a < z.1 + z.2 * 4096

/-- What the VM `c` holds alone and may write: the guest page tables, the private sections and
pages, and the channels that it has opened. -/
def PmState.writable (s : PmState) (c : ℕ) : Multiset (ℕ × ℕ) :=
  pageBlocks (treeTables s.words size2MB (s.cpus c).vm.pageTables) + ((s.cpus c).vm.own +
    pageBlocks ↑((s.openChannels.filter fun o => o.end1 = c).map OpenChannel.addr))

/-- What is recorded once and the VM `c` may not write: the nested tables of all VMs, and what the
others have for themselves, with their guest page tables and their channels. -/
def PmState.hidden (s : PmState) (c : ℕ) : Multiset (ℕ × ℕ) :=
  pageBlocks (treeTables s.words size4KB (s.cpus c).vm.ept + s.tables (s.live.erase c)) +
    (s.own (s.live.erase c) +
      pageBlocks ↑((s.openChannels.filter fun o => o.end1 ≠ c).map OpenChannel.addr))

/-- What the VM `c` holds and may read. -/
def PmState.readable (s : PmState) (c : ℕ) : Multiset (ℕ × ℕ) :=
  s.writable c + (s.cpus c).vm.shared

section Steps

variable {pool c p : ℕ} {maps : ℕ → View} {files : List Fs.FileHeader} {e : DeviceEvent}
  {s t : PmState}

theorem PmState.Disposed.congr (h : s.Disposed pool files) (hmach : t.machine = s.machine)
    (hlay : SameLayout s.memory t.memory) : t.Disposed pool files := by
  have hncpus : t.ncpus = s.ncpus := congrArg Machine.ncpus hmach
  have hout : ∀ p, s.Outside pool p → t.Outside pool p := by
    intro p hp
    unfold PmState.Outside
    rw [hlay.firstFree]
    exact hp
  refine ⟨?_, ?_, fun c hc p hp => ?_, fun h' hmem => hout _ (h.files h' hmem)⟩
  · rw [hlay.firstFree]
    exact h.low
  · rw [hlay.firstFree]
    exact h.high
  · rw [hncpus] at hc
    rw [ownPages_of_machine hmach] at hp
    exact hout _ (h.cpus c hc p hp)

/-- The second end of a channel is a driver. -/
theorem DeviceInv.end2_driver (h : DeviceInv pool maps s) {o : OpenChannel}
    (ho : o ∈ s.openChannels) : isDriver o.end2 = true := by
  obtain ⟨hlive, i, hi, htype, hoff⟩ := h.entries.owner o ho
  have hopen := (h.entries.opened _ hlive i hi htype).1
  have heq := h.accounted.books.account.channel_eq ho hopen hoff.symm
  have hend : o.end2 = Fs.closeDriver i := congrArg OpenChannel.end2 heq
  rw [hend]
  unfold Fs.closeDriver
  split
  · rfl
  · split <;> rfl

/-- What was given to a VM is given to it still if its pages, its descriptors in use and its
channels are there. -/
theorem grants_subset (hpages : (t.cpus c).vm.fds = (s.cpus c).vm.fds ∧
      (t.cpus c).vm.channels = (s.cpus c).vm.channels)
    (hdesc : ∀ i < maxFd, (s.descriptors c i).offset ≠ 0 →
      (t.descriptors c i).offset = (s.descriptors c i).offset)
    (hopen : ∀ o ∈ s.openChannels, o.end1 = c ∨ o.end2 = c → o ∈ t.openChannels) :
    s.grants c ⊆ t.grants c := by
  rintro p (⟨hne, rfl | rfl | ⟨i, hi, rfl⟩⟩ | ⟨o, ho, hend, rfl⟩)
  · exact Or.inl ⟨hne, Or.inl hpages.1.symm⟩
  · exact Or.inl ⟨hne, Or.inr (Or.inl hpages.2.symm)⟩
  · exact Or.inl ⟨hne, Or.inr (Or.inr ⟨i, hi, hdesc i hi hne⟩)⟩
  · exact Or.inr ⟨o, hopen o ho hend, hend, rfl⟩

/-- Assigning a free descriptor changes no other one. -/
theorem Stored.offset_eq {d fd i : ℕ} {f : FileDescriptor} (h : Stored d fd f s t)
    (hfree : (s.descriptors d fd).offset = 0) (hc : c ∈ s.live) (hi : i < maxFd)
    (hne : (s.descriptors c i).offset ≠ 0) :
    (t.descriptors c i).offset = (s.descriptors c i).offset := by
  by_cases hcd : c = d
  · subst hcd
    have hifd : i ≠ fd := by
      rintro rfl
      exact hne hfree
    rw [h.self i hi, if_neg hifd]
  · rw [h.other c hc hcd]

/-- A VM that is no driver keeps what it was given as long as it lives and closes nothing. -/
theorem DeviceEffect.grants_mono (heff : DeviceEffect files s t e) (hinv : DeviceInv pool maps s)
    (hc : c ∈ s.live) (hc' : c ∈ t.live) (hdriver : isDriver c = false)
    (hno : ∀ fd, e ≠ .fs c (.close fd)) : s.grants c ⊆ t.grants c := by
  have hend1 : ∀ o ∈ s.openChannels, o.end1 = c ∨ o.end2 = c → o.end1 = c := by
    rintro o ho (hend | rfl)
    · exact hend
    · exact absurd (hinv.end2_driver ho) (by rw [hdriver]; decide)
  have haccount := hinv.accounted.books.account
  cases heff with
  | quiet hq =>
    refine grants_subset (hq.pages c hc) (fun i _ _ => by rw [hq.descriptors c hc]) fun o ho _ => ?_
    rwa [hq.opened]
  | spawned child hsp =>
    obtain ⟨addr, hopened, -, -⟩ := hsp.copied
    refine grants_subset (hsp.pages c hc) (fun i _ _ => by rw [hsp.descriptors c hc])
      fun o ho _ => ?_
    rw [hopened]
    exact List.mem_append_left _ ho
  | @departed d status hd hdep =>
    rw [hdep.live] at hc'
    refine grants_subset (by rw [hdep.cpus c (Finset.ne_of_mem_erase hc')]; exact ⟨rfl, rfl⟩)
      (fun i _ _ => by rw [hdep.descriptors c hc']) fun o ho hend => ?_
    have hkept : o.addr ∉ closedChannels (s.descriptors d) (List.range maxFd) := by
      intro hmem
      obtain ⟨j, hj, hoff⟩ := List.mem_map.mp hmem
      obtain ⟨hjlt, hjtype⟩ := mem_charFds.mp hj
      obtain ⟨hmem', -⟩ := hinv.entries.opened d hd j (List.mem_range.mp hjlt) hjtype
      have heq := congrArg OpenChannel.end1 (haccount.channel_eq hmem' ho hoff)
      exact Finset.ne_of_mem_erase hc' ((hend1 o ho hend).symm.trans heq.symm)
    rw [hdep.opened]
    exact List.mem_filter.mpr ⟨ho, decide_eq_true hkept⟩
  | entered fd a hfree hopened hst =>
    refine grants_subset (by rw [hst.cpus]; exact ⟨rfl, rfl⟩) (fun i hi hne => ?_) fun o ho _ => ?_
    · exact hst.offset_eq hfree hc hi hne
    · rw [hopened]
      exact List.mem_append_left _ ho
  | filed fd header hmem hname hfree hopened hst =>
    refine grants_subset (by rw [hst.cpus]; exact ⟨rfl, rfl⟩) (fun i hi hne => ?_) fun o ho _ => ?_
    · exact hst.offset_eq hfree hc hi hne
    · rwa [hopened]
  | @cleared d fd hopened hunused hst =>
    have hcd : c ≠ d := by
      rintro rfl
      exact hno fd rfl
    refine grants_subset (by rw [hst.cpus]; exact ⟨rfl, rfl⟩)
      (fun i _ _ => by rw [hst.other c hc hcd]) fun o ho hend => ?_
    rw [hopened]
    refine List.mem_filter.mpr ⟨ho, decide_eq_true fun htype haddr => ?_⟩
    have hmem := (hinv.entries.opened d hst.mem fd hst.lt htype).1
    have heq := congrArg OpenChannel.end1 (haccount.channel_eq ho hmem haddr)
    exact hcd ((hend1 o ho hend).symm.trans heq)

end Steps

/-! ### What a VM holds -/

section Held

variable {pool B c d p : ℕ} {maps : ℕ → View} {files : List Fs.FileHeader} {s : PmState}
  {z : ℕ × ℕ}

/-- What is recorded once is what the VM may write or what is hidden from it. -/
theorem exclusiveBlocks_eq (hc : c ∈ s.live) : s.exclusiveBlocks = s.writable c + s.hidden c := by
  have hchannels : s.openChannels.map OpenChannel.addr =
      ((s.openChannels.filter fun o => o.end1 = c).map OpenChannel.addr +
        (s.openChannels.filter fun o => o.end1 ≠ c).map OpenChannel.addr : Multiset ℕ) := by
    rw [← Multiset.map_coe, ← Multiset.map_coe, ← Multiset.map_coe, ← Multiset.filter_coe,
      ← Multiset.filter_coe, ← Multiset.map_add, Multiset.filter_add_not]
  unfold PmState.exclusiveBlocks PmState.writable PmState.hidden PmState.channelBlocks
  rw [hchannels, tables_eq hc, own_eq hc, VmProc.tables]
  simp only [pageBlocks_add]
  abel

theorem writable_le (hc : c ∈ s.live) : s.writable c ≤ s.exclusiveBlocks := by
  rw [exclusiveBlocks_eq hc]
  exact Multiset.le_add_right _ _

/-- What is hidden from a VM is recorded once, and not writable. -/
theorem PmState.Accounted.not_writable (h : s.Accounted pool B maps) (hc : c ∈ s.live)
    (hz : z ∈ s.hidden c) : z ∈ s.exclusiveBlocks ∧ z ∉ s.writable c := by
  have hnodup : s.exclusiveBlocks.Nodup := h.ledger.nodup
  rw [exclusiveBlocks_eq hc] at hnodup ⊢
  exact ⟨Multiset.mem_add.mpr (Or.inr hz),
    fun hmem => Multiset.disjoint_left.mp (Multiset.nodup_add.mp hnodup).2.2 hmem hz⟩

/-- What another VM has for itself is hidden. -/
theorem mem_hidden_own (hd : d ∈ s.live) (hne : d ≠ c) (hz : z ∈ (s.cpus d).vm.own) :
    z ∈ s.hidden c := by
  refine Multiset.mem_add.mpr (Or.inr (Multiset.mem_add.mpr (Or.inl ?_)))
  rw [own_eq (Finset.mem_erase.mpr ⟨hne, hd⟩)]
  exact Multiset.mem_add.mpr (Or.inl hz)

/-- The nested tables of every VM are hidden, also its own. -/
theorem mem_hidden_nested (hd : d ∈ s.live)
    (hp : p ∈ treeTables s.words size4KB (s.cpus d).vm.ept) : (p, 1) ∈ s.hidden c := by
  refine Multiset.mem_add.mpr (Or.inl (mem_pageBlocks.mpr ⟨Multiset.mem_add.mpr ?_, rfl⟩))
  by_cases hne : d = c
  · subst hne
    exact Or.inl hp
  · exact Or.inr (mem_tables (Finset.mem_erase.mpr ⟨hne, hd⟩) (Multiset.mem_add.mpr (Or.inl hp)))

/-- The channels that other VMs have opened are hidden. -/
theorem mem_hidden_channel {o : OpenChannel} (ho : o ∈ s.openChannels) (hne : o.end1 ≠ c) :
    (o.addr, 1) ∈ s.hidden c := by
  refine Multiset.mem_add.mpr
    (Or.inr (Multiset.mem_add.mpr (Or.inr (mem_pageBlocks.mpr ⟨?_, rfl⟩))))
  exact Multiset.mem_coe.mpr (List.mem_map_of_mem (List.mem_filter.mpr ⟨ho, decide_eq_true hne⟩))

/-- A channel that `c` has opened. -/
theorem mem_writable_channel {o : OpenChannel} (ho : o ∈ s.openChannels) (hend : o.end1 = c) :
    (o.addr, 1) ∈ s.writable c := by
  refine Multiset.mem_add.mpr
    (Or.inr (Multiset.mem_add.mpr (Or.inr (mem_pageBlocks.mpr ⟨?_, rfl⟩))))
  exact Multiset.mem_coe.mpr (List.mem_map_of_mem (List.mem_filter.mpr ⟨ho, decide_eq_true hend⟩))

theorem mem_writable_own (hz : z ∈ (s.cpus c).vm.own) : z ∈ s.writable c :=
  Multiset.mem_add.mpr (Or.inr (Multiset.mem_add.mpr (Or.inl hz)))

/-- What was given to a VM that is no driver is its own, or lies outside of the pool. -/
theorem DeviceInv.grants_held (h : DeviceInv pool maps s) (hfile : FileEntries files s)
    (hdisp : s.Disposed pool files) (hc : c ∈ s.live) (hdriver : isDriver c = false)
    (hp : p ∈ s.grants c) : (p, 1) ∈ s.writable c ∨ s.Outside pool p := by
  have hpages : ∀ q, (q, 1) ∈ (s.cpus c).vm.ownPages → (q, 1) ∈ s.writable c := fun q hq =>
    mem_writable_own (Multiset.mem_add.mpr (Or.inr hq))
  rcases hp with ⟨hne, rfl | rfl | ⟨i, hi, rfl⟩⟩ | ⟨o, ho, hend, rfl⟩
  · exact Or.inl (hpages _ (Multiset.mem_add.mpr (Or.inl (mem_blockAt hne))))
  · exact Or.inl (hpages _ (Multiset.mem_add.mpr (Or.inr (mem_blockAt hne))))
  · by_cases htype : (s.descriptors c i).type = typeChar
    · exact Or.inl (mem_writable_channel (h.entries.opened c hc i hi htype).1 rfl)
    · obtain ⟨file, hmem, hoff⟩ := (hfile c hc i hi htype).resolve_left hne
      rw [hoff]
      exact Or.inr (hdisp.files file hmem)
  · rcases hend with hend | rfl
    · exact Or.inl (mem_writable_channel ho hend)
    · exact absurd (h.end2_driver ho) (by rw [hdriver]; decide)

/-- A section that has memory is readable, and writable unless it is code or rodata. -/
theorem mem_readable_section {a : VmSection × ℕ} (ha : a ∈ (s.cpus c).vm.access)
    (hbacked : a.1.paddr ≠ 0) : (a.1.paddr, pages a.1.size size4KB) ∈ s.readable c ∧
      (a.2.testBit 1 = true → (a.1.paddr, pages a.1.size size4KB) ∈ s.writable c) := by
  have hblock : (a.1.paddr, pages a.1.size size4KB) ∈ a.1.block := mem_blockAt hbacked
  have hprivate : a.1.block ≤ (s.cpus c).vm.own → _ ∈ s.writable c := fun hle =>
    mem_writable_own (Multiset.mem_of_le hle hblock)
  have hshared : a.1.block ≤ (s.cpus c).vm.shared → _ ∈ s.readable c := fun hle =>
    Multiset.mem_add.mpr (Or.inr (Multiset.mem_of_le hle hblock))
  have hboth : a.1.block ≤ (s.cpus c).vm.own →
      (a.1.paddr, pages a.1.size size4KB) ∈ s.readable c ∧
        (a.2.testBit 1 = true → (a.1.paddr, pages a.1.size size4KB) ∈ s.writable c) := fun hle =>
    ⟨Multiset.mem_add.mpr (Or.inl (hprivate hle)), fun _ => hprivate hle⟩
  unfold VmProc.own VmProc.ownSections at hboth
  unfold VmProc.access at ha
  simp only [List.mem_cons, List.not_mem_nil, or_false] at ha
  rcases ha with rfl | rfl | rfl | rfl | rfl
  · exact ⟨hshared (Multiset.le_add_right _ _), fun hbit => absurd (show
      (eptRead ||| eptExec).testBit 1 = true from hbit) (by decide)⟩
  · exact hboth (((Multiset.le_add_right _ _).trans (Multiset.le_add_right _ _)).trans
      (Multiset.le_add_right _ _))
  · exact ⟨hshared (Multiset.le_add_left _ _), fun hbit => absurd (show
      eptRead.testBit 1 = true from hbit) (by decide)⟩
  · exact hboth (((Multiset.le_add_left _ _).trans (Multiset.le_add_right _ _)).trans
      (Multiset.le_add_right _ _))
  · exact hboth ((Multiset.le_add_left _ _).trans (Multiset.le_add_right _ _))

/-- A page that a VM sees at its own address. -/
theorem inBlock_page {v : ℕ} (hv : InPage p v) : InBlock (p, 1) v := ⟨hv.1, by simpa using hv.2⟩

/-- A page outside of the pool has no address of the pool. -/
theorem PmState.Outside.not_inPool {v : ℕ} (h : s.Outside pool p) (hv : InPage p v) :
    ¬ s.InPool pool v := by
  rintro ⟨hlo, hhi⟩
  have := hv.1
  have := hv.2
  rcases h with h | h
  · omega
  · omega

/-- What a VM sees in the pool, for a reason, is what it holds. -/
theorem Sees.held {v : ℕ} {y : Translation} (hsees : Sees s c (· ∈ s.grants c) v y)
    (h : DeviceInv pool maps s) (hfile : FileEntries files s) (hdisp : s.Disposed pool files)
    (hok : s.allocFailed = false) (hc : c ∈ s.live) (hdriver : isDriver c = false)
    (hpool : s.InPool pool y.addr) : (∃ z ∈ s.readable c, InBlock z y.addr) ∧
      (y.prot.testBit 1 = true → ∃ z ∈ s.writable c, InBlock z y.addr) := by
  have hwrite : ∀ {z : ℕ × ℕ}, z ∈ s.writable c → InBlock z y.addr →
      (∃ z ∈ s.readable c, InBlock z y.addr) ∧
        (y.prot.testBit 1 = true → ∃ z ∈ s.writable c, InBlock z y.addr) := fun hz hin =>
    ⟨⟨_, Multiset.mem_add.mpr (Or.inl hz), hin⟩, fun _ => ⟨_, hz, hin⟩⟩
  cases hsees with
  | device hv hy =>
    -- the pool lies between the screen and the windows
    subst hy
    obtain ⟨hlo, hhi⟩ := hpool
    have hlow := hdisp.low
    have hhigh := hdisp.high
    dsimp only at hlo hhi
    rcases hv with hv | ⟨hv, -⟩ | ⟨hv, -⟩
    · omega
    · omega
    · omega
  | cpu q hq hv hy =>
    subst hy
    exact absurd hpool ((hdisp.cpus c (h.accounted.live c hc).2.1 q hq).not_inPool hv)
  | segment a ha hpos hv hy =>
    have hsec := (access_prot a ha).1
    have hbacked := h.accounted.books.account.backed hok c hc a.1 hsec hpos
    have hmap := (h.mappable hc).sections a.1 hsec hpos
    have hin : InBlock (a.1.paddr, pages a.1.size size4KB) y.addr := by
      obtain ⟨u, hu, hpage⟩ := hv
      have hal := hmap.vaddr
      have hspec := pages_spec a.1.size (show 0 < 4096 by norm_num)
      have hlo := hu.1
      have hhi := hu.2
      subst hy
      unfold InBlock
      rw [show size4KB = 4096 from rfl]
      dsimp only
      constructor
      · omega
      · omega
    obtain ⟨hread, hwrite'⟩ := mem_readable_section ha hbacked
    refine ⟨⟨_, hread, hin⟩, fun hbit => ⟨_, hwrite' ?_, hin⟩⟩
    rw [hy] at hbit
    exact hbit
  | table q hq hv hy =>
    have hmapped := h.accounted.books.account.mapped c hc
    subst hy
    refine hwrite (Multiset.mem_add.mpr (Or.inl (mem_pageBlocks.mpr ⟨?_, rfl⟩))) (inBlock_page hv)
    rw [hmapped.guest.tables_eq]
    exact Multiset.mem_coe.mpr hq
  | page q hq hv haddr hprot =>
    rw [← haddr] at hv
    rcases h.grants_held hfile hdisp hc hdriver hq with hmem | hout
    · exact hwrite hmem (inBlock_page hv)
    · exact absurd hpool (hout.not_inPool hv)

end Held

/-! ### Runs -/

section Runs

variable {pool c d v : ℕ} {maps : ℕ → View} {files : List Fs.FileHeader} {evs : List DeviceEvent}
  {s₀ s t : PmState} {e : DeviceEvent} {y : Translation} {z : ℕ × ℕ}

/-- Along a run in which the VM `c` closes nothing its view shows only what is given to it. -/
theorem PmState.Fresh.shows (hfresh : s₀.Fresh pool) (hfiles : RegularFiles files)
    (hdriver : isDriver c = false) (hrun : Run (orderedStep files) s₀ evs s)
    (hno : ∀ e ∈ evs, ∀ fd, e ≠ .fs c (.close fd)) :
    ∃ maps, DeviceInv pool maps s ∧ (c ∈ s.live → (maps c).Shows s c (· ∈ s.grants c)) := by
  refine (hrun.with_labels hno).invariant (I := fun s => ∃ maps, DeviceInv pool maps s ∧
    (c ∈ s.live → (maps c).Shows s c (· ∈ s.grants c))) ?_ ?_
  · rintro s e t ⟨hstep, hno⟩ ⟨maps, hinv, hshows⟩
    obtain ⟨maps', hinv', hviews, heff⟩ := hinv.step hfiles hstep.1 hstep.2
    refine ⟨maps', hinv', fun hc => ?_⟩
    refine (hviews.views c hc).shows (deviceStep_sound hinv.procs hstep.2).1 hshows
      (fun hc' p hp => ?_) fun p hp => hp
    exact heff.grants_mono hinv hc' hc hdriver hno hp
  · refine ⟨_, hfresh.deviceInv fun _ => ⟨[], []⟩, fun hc => ?_⟩
    rw [hfresh.live] at hc
    exact absurd hc (Finset.notMem_empty c)

/-- What such a VM sees, it sees for a reason. -/
theorem PmState.Fresh.sees (hfresh : s₀.Fresh pool) (hfiles : RegularFiles files)
    (hdriver : isDriver c = false) (hrun : Run (orderedStep files) s₀ evs s)
    (hno : ∀ e ∈ evs, ∀ fd, e ≠ .fs c (.close fd)) (hc : c ∈ s.live) (hv : v < 2 ^ 48)
    (hy : s.nested c v = some y) :
    ∃ maps, DeviceInv pool maps s ∧ Sees s c (· ∈ s.grants c) v y := by
  obtain ⟨maps, hinv, hshows⟩ := hfresh.shows hfiles hdriver hrun hno
  rw [hinv.accounted.nested_eq hc hv] at hy
  exact ⟨maps, hinv, hinv.sees hc (hshows hc) (fun p hp => hinv.grants_le hc hp) hy⟩

/-- In every run in which a VM closes nothing and no allocation has failed, what the VM reaches in
the pool is what it holds, and what it can write it holds alone. -/
theorem reachable_of_run (hfresh : s₀.Fresh pool) (hfiles : RegularFiles files)
    (hdisp : s₀.Disposed pool files) (hdriver : isDriver c = false)
    (hrun : Run (orderedStep files) s₀ evs s) (hno : ∀ e ∈ evs, ∀ fd, e ≠ .fs c (.close fd))
    (hok : s.allocFailed = false) (hc : c ∈ s.live) (hv : v < 2 ^ 48)
    (hy : s.nested c v = some y) (hpool : s.InPool pool y.addr) :
    (∃ z ∈ s.readable c, InBlock z y.addr) ∧
      (y.prot.testBit 1 = true → ∃ z ∈ s.writable c, InBlock z y.addr) := by
  obtain ⟨maps, hinv, hsees⟩ := hfresh.sees hfiles hdriver hrun hno hc hv hy
  obtain ⟨hmach, hlay, hfile⟩ := hfresh.settled hfiles hrun
  exact hsees.held hinv hfile (hdisp.congr hmach hlay) hok hc hdriver hpool

/-- On the machine of `bootPm` everything is in its place. -/
theorem bootPm_disposed {m : MemoryState} (hff : m.firstFreeAddr = 0x27E0000) :
    (bootPm m).Disposed 776224 [] := by
  have hfirst : (bootPm m).memory.firstFreeAddr = 0x27E0000 := hff
  refine ⟨?_, ?_, fun c hc p hp => Or.inl ?_, fun h hmem => absurd hmem List.not_mem_nil⟩
  · rw [hfirst]
    norm_num
  · exact (congrArg (· + 776224 * 4096) hfirst).le
  · have hc' : c < 8 := hc
    rw [hfirst]
    change p ∈ (bootInfo c).ownPages (0x100000 + c * 4096) at hp
    simp only [bootInfo, CpuInfo.ownPages, List.mem_cons, List.not_mem_nil, or_false] at hp
    rcases hp with rfl | rfl | rfl | rfl | rfl
    all_goals omega

/-- The VM that has opened "stdin" closes nothing. -/
theorem bootPm_no_close : ∀ e ∈ stdinEvents, ∀ fd, e ≠ .fs 6 (.close fd) := by
  intro e he fd heq
  subst heq
  rcases List.mem_append.mp he with he | he
  · cases List.eq_of_mem_replicate he
  · cases List.mem_singleton.mp he

/-- It sees the page of its channel, which is a page of the pool. -/
theorem bootPm_seen : ∃ m s, (bootPm m).Fresh 776224 ∧ m.firstFreeAddr = 0x27E0000 ∧
    Run (orderedStep []) (bootPm m) stdinEvents s ∧
    s.allocFailed = false ∧ 6 ∈ s.live ∧ kbdId ∈ s.live ∧ (s.cpus kbdId).vm.channels ≠ 0 ∧
    s.InPool 776224 (s.descriptors 6 0).offset ∧ (s.descriptors 6 0).offset < 2 ^ 48 ∧
    ∃ k, s.nested 6 (s.descriptors 6 0).offset =
      some ⟨(s.descriptors 6 0).offset, eptRead ||| eptWrite, k⟩ := by
  obtain ⟨m, s, hfresh, hrun, h6, htype, hres, -, hff, a, hopened, -⟩ := bootPm_stdin
  obtain ⟨maps, hinv, hhas⟩ := hfresh.channels regularFiles_nil hrun
  have hopen := (hinv.entries.opened 6 h6 0 (by decide) htype).1
  have hle : (s.descriptors 6 0).offset + 4096 ≤ 2 ^ 48 := hinv.channel_le hopen
  have hself : InPage (s.descriptors 6 0).offset (s.descriptors 6 0).offset :=
    ⟨le_rfl, Nat.lt_add_of_pos_right (by norm_num)⟩
  have hblock : ((s.descriptors 6 0).offset, 1) ∈ s.exclusiveBlocks :=
    Multiset.mem_of_le (writable_le h6) (mem_writable_channel hopen rfl)
  have hchannels : (s.cpus kbdId).vm.channels ≠ 0 := by
    intro h0
    have hlist := hinv.accounted.books.listed kbdId h0
    have hmem : a ∈ s.channelsOf kbdId :=
      mem_channelsOf.mpr ⟨⟨a, 6, kbdId⟩, by rw [hopened]; exact List.mem_singleton_self _, rfl, rfl⟩
    rw [hlist] at hmem
    exact List.not_mem_nil hmem
  obtain ⟨-, hlo, -, -, hend, -⟩ :=
    hinv.accounted.ledger.addr (Multiset.mem_add.mpr (Or.inl hblock))
  exact ⟨m, s, hfresh, hff, hrun, hres.ok, h6, hinv.accounted.channels_mem _ hchannels, hchannels,
    ⟨hlo, by omega⟩, by omega, hinv.nested_has h6 (hhas _ hopen) hle hself⟩

theorem reachable_of_run_stdin : ∃ (m : MemoryState) (s : PmState) (y : Translation),
    Run (orderedStep []) (bootPm m) stdinEvents s ∧
    s.nested 6 (s.descriptors 6 0).offset = some y ∧
    ∃ z ∈ s.writable 6, InBlock z y.addr := by
  obtain ⟨m, s, hfresh, hff, hrun, hok, h6, -, -, hpool, hlt, k, hy⟩ := bootPm_seen
  obtain ⟨-, hwrite⟩ := reachable_of_run hfresh regularFiles_nil (bootPm_disposed hff) (by decide)
    hrun bootPm_no_close hok h6 hlt hy hpool
  exact ⟨m, s, _, hrun, hy, hwrite (show (eptRead ||| eptWrite).testBit 1 = true by decide)⟩

/-- In every run in which a VM closes nothing and no allocation has failed, the VM reaches no block
that somebody else holds alone: no private memory of another VM, and no nested tables, not even its
own. -/
theorem isolated_of_run (hfresh : s₀.Fresh pool) (hfiles : RegularFiles files)
    (hdisp : s₀.Disposed pool files) (hdriver : isDriver c = false)
    (hrun : Run (orderedStep files) s₀ evs s) (hno : ∀ e ∈ evs, ∀ fd, e ≠ .fs c (.close fd))
    (hok : s.allocFailed = false) (hc : c ∈ s.live) (hv : v < 2 ^ 48)
    (hy : s.nested c v = some y) (hz : z ∈ s.exclusiveBlocks) (hother : z ∉ s.writable c) :
    ¬ InBlock z y.addr := by
  intro hin
  obtain ⟨maps, hinv, hsees⟩ := hfresh.sees hfiles hdriver hrun hno hc hv hy
  obtain ⟨hmach, hlay, hfile⟩ := hfresh.settled hfiles hrun
  have hled := hinv.accounted.ledger
  -- a block lies in the pool
  have hpool : s.InPool pool y.addr := by
    obtain ⟨-, hlo, -, -, hend, -⟩ := hled.addr (a := z.1) (n := z.2)
      (Multiset.mem_add.mpr (Or.inl hz))
    exact ⟨hlo.trans hin.1, hin.2.trans_le hend⟩
  obtain ⟨⟨x, hx, hxin⟩, -⟩ :=
    hsees.held hinv hfile (hdisp.congr hmach hlay) hok hc hdriver hpool
  refine hled.alone hz ?_ hin hxin
  rcases Multiset.mem_add.mp hx with hx | hx
  · have hne : x ≠ z := by
      rintro rfl
      exact hother hx
    rw [Multiset.mem_erase_of_ne hne]
    exact Multiset.mem_add.mpr (Or.inl (Multiset.mem_of_le (writable_le hc) hx))
  · rw [Multiset.erase_add_left_pos _ hz]
    refine Multiset.mem_add.mpr (Or.inr ?_)
    rw [shared_eq hc]
    exact Multiset.mem_add.mpr (Or.inl hx)

/-- The page with the array of the keyboard driver is out of reach, and so are all nested tables and
the channels of the other VMs. -/
theorem isolated_of_run_stdin : ∃ (m : MemoryState) (s : PmState) (y : Translation),
    Run (orderedStep []) (bootPm m) stdinEvents s ∧
    s.nested 6 (s.descriptors 6 0).offset = some y ∧ (s.cpus kbdId).vm.channels ≠ 0 ∧
    ¬ InBlock ((s.cpus kbdId).vm.channels, 1) y.addr ∧
    (∀ d ∈ s.live, ∀ p ∈ treeTables s.words size4KB (s.cpus d).vm.ept, ¬ InBlock (p, 1) y.addr) ∧
    ∀ o ∈ s.openChannels, o.end1 ≠ 6 → ¬ InBlock (o.addr, 1) y.addr := by
  obtain ⟨m, s, hfresh, hff, hrun, hok, h6, hkbd, hne, -, hlt, k, hy⟩ := bootPm_seen
  obtain ⟨maps, hinv⟩ := hfresh.run regularFiles_nil hrun
  have hown : ((s.cpus kbdId).vm.channels, 1) ∈ (s.cpus kbdId).vm.own :=
    Multiset.mem_add.mpr (Or.inr (Multiset.mem_add.mpr (Or.inr (mem_blockAt hne))))
  have hout : ∀ z ∈ s.hidden 6, ¬ InBlock z (s.descriptors 6 0).offset := fun z hz => by
    obtain ⟨hex, hother⟩ := hinv.accounted.not_writable h6 hz
    exact isolated_of_run hfresh regularFiles_nil (bootPm_disposed hff) (by decide) hrun
      bootPm_no_close hok h6 hlt hy hex hother
  exact ⟨m, s, _, hrun, hy, hne, hout _ (mem_hidden_own hkbd (by decide) hown),
    fun d hd p hp => hout _ (mem_hidden_nested hd hp),
    fun o ho hend => hout _ (mem_hidden_channel ho hend)⟩

end Runs

end Savannah
