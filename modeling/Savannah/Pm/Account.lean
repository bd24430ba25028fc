import Savannah.Pm.Release

/-!
# Who holds the memory of PM

The pages that PM has taken from its pool belong to the VMs and to the open channels: a VM holds its
data, bss and stack, its tables, and its page of descriptors or of channels, alone, and its code and
rodata together with the VMs it was forked from or has forked (`VmProc.tables`, `VmProc.own`,
`VmProc.shared`).  `Account pool V maps X S s` says that the pages handed out are those that the VMs
of `V` and the channels hold, and besides the blocks `X`, which have one holder, and `S`, which may
have several.  While PM builds or takes down a VM, what this VM holds is part of `X` and `S`
(`Account.take`, `Account.put`).

Each operation of the allocator and of the page-table code moves blocks between these parts, and
leaves the rest of the state alone.
-/

namespace Savannah

open Foundation PmState MemoryState

/-! ### What a VM holds -/

/-- The block at `a`, if there is one. -/
def blockAt (a n : ℕ) : Multiset (ℕ × ℕ) := if a = 0 then 0 else {(a, n)}

@[simp] theorem blockAt_zero (n : ℕ) : blockAt 0 n = 0 := rfl

theorem blockAt_of_ne {a : ℕ} (h : a ≠ 0) (n : ℕ) : blockAt a n = {(a, n)} := if_neg h

theorem mem_blockAt {a n : ℕ} (h : a ≠ 0) : (a, n) ∈ blockAt a n := by
  rw [blockAt_of_ne h]
  exact Multiset.mem_singleton_self _

/-- The memory of a section. -/
def VmSection.block (sec : VmSection) : Multiset (ℕ × ℕ) :=
  blockAt sec.paddr (pages sec.size size4KB)

/-- The tables of a VM. -/
def VmProc.tables (w : Tables) (v : VmProc) : Multiset ℕ :=
  treeTables w size4KB v.ept + treeTables w size2MB v.pageTables

/-- The page of descriptors and the page of channels. -/
def VmProc.ownPages (v : VmProc) : Multiset (ℕ × ℕ) := blockAt v.fds 1 + blockAt v.channels 1

/-- The sections that a VM has for itself. -/
def VmProc.ownSections (v : VmProc) : Multiset (ℕ × ℕ) := v.data.block + v.bss.block + v.stack.block

/-- What a VM has for itself besides its tables. -/
def VmProc.own (v : VmProc) : Multiset (ℕ × ℕ) := v.ownSections + v.ownPages

/-- What a VM may hold together with others. -/
def VmProc.shared (v : VmProc) : Multiset (ℕ × ℕ) := v.code.block + v.rodata.block

/-- The fields of a record that say what the VM holds. -/
def VmProc.holdings (v : VmProc) : List VmSection × ℕ × ℕ × ℕ × ℕ :=
  (v.sections, v.pageTables, v.ept, v.fds, v.channels)

/-- The nested tables of a VM map addresses below 4GB. -/
def nestedShape : Shape := fun d i => (d = 2 → i = 0) ∧ (d = 1 → i < 4)

/-- The nested tree reaches 4 GB. -/
theorem reaches_nested : Reaches nestedShape (2 ^ 32) := by
  refine ⟨le_rfl, by norm_num, by norm_num, fun v hv fl hfl => ?_⟩
  have h₁ : tableIndex 39 v = 0 := by
    unfold tableIndex
    omega
  have h₂ : tableIndex 30 v < 4 := by
    unfold tableIndex
    omega
  rw [(paths_4KB v).2.2]
  refine ⟨fun a ha => ⟨by omega, ?_⟩, fun a ha => ⟨by omega, ?_⟩,
    fun a ha => ⟨by omega, ?_⟩, trivial⟩
  · exact ⟨fun _ => h₁, fun h => absurd h (by simp)⟩
  · exact ⟨fun h => absurd h (by simp), fun _ => h₂⟩
  · exact ⟨fun h => absurd h (by simp), fun h => absurd h (by simp)⟩

/-- A section lies at the start of a page, below 4GB. -/
def VmSection.Placed (sec : VmSection) : Prop :=
  0 < sec.size → sec.vaddr % 4096 = 0 ∧ sec.vaddr + sec.size ≤ 2 ^ 32

/-- What the tables of a VM say: the regions that the nested ones realize, and the guest page
tables. -/
structure View where
  regions : List Region
  guest : List ℕ

/-- One more region. -/
def View.add (x : View) (g : Region) : View := { x with regions := x.regions ++ [g] }

/-- The tables of a VM are as `ept_pmap` and later calls of `local_channel` leave them. -/
structure VmProc.Mapped (w : Tables) (x : View) (v : VmProc) : Prop where
  guest : GuestTree w v.pageTables
  list : guestList w v.pageTables = x.guest
  tree : IsTree 7 nestedShape w size4KB v.ept
  realizes : Realizes .ept w size4KB v.ept (x.regions.map .map)
  notNull : ¬ NullTables .ept size4KB (x.regions.map .map)
  placed : ∀ sec ∈ v.sections, sec.Placed

section Vm

variable {w w' : Tables} {v v' : VmProc} {x : View} {t n : ℕ}

/-- The tables are not written. -/
def VmProc.Kept (v : VmProc) (w w' : Tables) : Prop := ∀ t ∈ v.tables w, w' t = w t

theorem VmProc.Kept.ept (h : v.Kept w w') : ∀ t ∈ treeTables w size4KB v.ept, w' t = w t :=
  fun t ht => h t (Multiset.mem_add.mpr (Or.inl ht))

theorem VmProc.Kept.guest (h : v.Kept w w') : ∀ t ∈ treeTables w size2MB v.pageTables, w' t = w t :=
  fun t ht => h t (Multiset.mem_add.mpr (Or.inr ht))

/-- Tables that are kept. -/
theorem VmProc.tables_congr (h : v.Kept w w') : v.tables w' = v.tables w := by
  unfold VmProc.tables
  rw [treeTables_congr h.ept, treeTables_congr h.guest]

/-- What the tables depend on. -/
theorem VmProc.tables_of_holdings (h : v'.holdings = v.holdings) (w : Tables) :
    v'.tables w = v.tables w := by
  simp only [VmProc.holdings, Prod.mk.injEq] at h
  unfold VmProc.tables
  rw [h.2.1, h.2.2.1]

/-- What the own blocks depend on. -/
theorem VmProc.own_congr (h : v'.holdings = v.holdings) : v'.own = v.own := by
  simp only [VmProc.holdings, VmProc.sections, Prod.mk.injEq, List.cons.injEq, and_true] at h
  obtain ⟨⟨-, hdata, -, hbss, hstack⟩, -, -, hfds, hchannels⟩ := h
  unfold VmProc.own VmProc.ownSections VmProc.ownPages
  rw [hdata, hbss, hstack, hfds, hchannels]

/-- What the shared blocks depend on. -/
theorem VmProc.shared_congr (h : v'.holdings = v.holdings) : v'.shared = v.shared := by
  simp only [VmProc.holdings, VmProc.sections, Prod.mk.injEq, List.cons.injEq] at h
  unfold VmProc.shared
  rw [h.1.1, h.1.2.2.1]

/-- What the maps depend on. -/
theorem VmProc.Mapped.congr (hv : v.Mapped w x) (h : v'.holdings = v.holdings)
    (hw : v.Kept w w') : v'.Mapped w' x := by
  simp only [VmProc.holdings, Prod.mk.injEq] at h
  obtain ⟨hsections, hguest, hept, -, -⟩ := h
  refine ⟨?_, ?_, ?_, ?_, hv.notNull, ?_⟩
  · rw [hguest]
    exact (hv.guest.congr hw.guest).1
  · rw [hguest, (hv.guest.congr hw.guest).2]
    exact hv.list
  · rw [hept]
    exact hv.tree.congr hw.ept
  · rw [hept]
    exact hv.realizes.congr hw.ept
  · rw [hsections]
    exact hv.placed

/-- The tables of the guest are those that `free_page_tables` finds. -/
theorem GuestTree.releaseList_eq {r : ℕ} (h : GuestTree w r)
    (hne : ∀ a ∈ treeTables w size2MB r, a ≠ 0) :
    (↑(releaseList w r) : Multiset ℕ) = treeTables w size2MB r := by
  obtain ⟨hroot, -, hpdpe, -⟩ := h.entries
  rw [h.tables_eq] at hne ⊢
  have hmem : ∀ a ∈ guestList w r, a ≠ 0 := fun a ha => hne a (Multiset.mem_coe.mpr ha)
  have hpd : tableAddr (w r 0) ≠ 0 := hmem _ (by simp [guestList])
  have hint := (h.tree.interior 0 (by norm_num) hroot).2
  -- a directory holds pages only, so that it is released alone
  have hpde : ∀ i < 4, releasePde w (tableAddr (w r 0)) i =
      [tableAddr (w (tableAddr (w r 0)) i)] := by
    intro i hi
    have hflags := (hint i (by omega) (hpdpe i hi)).1.1
    have haddr : tableAddr (w (tableAddr (w r 0)) i) ≠ 0 := by
      refine hmem _
        (List.mem_cons_of_mem _ (List.mem_cons_of_mem _ (List.mem_map.mpr ⟨i, ?_, rfl⟩)))
      exact List.mem_range.mpr hi
    rw [releasePde, if_pos ⟨hpdpe i hi, not_isPse_of_flags (Or.inl hflags)⟩, if_pos haddr,
      releasePte_pages fun j hj hne => (h.large hi hj).resolve_left hne]
    rfl
  unfold releaseList guestList
  rw [if_pos hpd]
  simp only [List.range_succ, List.range_zero, List.nil_append, List.cons_append, List.flatMap_cons,
    List.flatMap_nil, List.map_cons, List.map_nil, hpde 0 (by norm_num), hpde 1 (by norm_num),
    hpde 2 (by norm_num), hpde 3 (by norm_num), Multiset.coe_eq_coe, List.append_nil]
  grind

/-- So are the nested tables. -/
theorem VmProc.Mapped.releaseEpt (hv : v.Mapped w x)
    (hne : ∀ a ∈ treeTables w size4KB v.ept, a ≠ 0) :
    (↑(releaseList w v.ept) : Multiset ℕ) = treeTables w size4KB v.ept := by
  have hlow : LowTree w size4KB v.ept := by
    refine ⟨hv.tree.nodup, hv.tree.interior.mono ?_, fun hsize => absurd rfl hsize⟩
    rintro k i e ⟨hflags, hroot, hfour⟩
    exact ⟨Or.inr hflags, fun hk => hroot (Nat.succ.inj hk), fun hk => hfour
      (Nat.add_right_cancel hk)⟩
  refine hlow.releaseList_eq (Or.inl rfl) hne fun hzero => hv.notNull fun u hu => ?_
  rw [← hv.realizes.result u (by omega), leafEntry_of_root_zero hzero hu, leafResult_zero]

end Vm

/-! ### The account -/

/-- The tables of the VMs of `V`. -/
def PmState.tables (V : Finset ℕ) (s : PmState) : Multiset ℕ :=
  ∑ c ∈ V, (s.cpus c).vm.tables s.words

/-- The sections and pages that the VMs of `V` have for themselves. -/
def PmState.own (V : Finset ℕ) (s : PmState) : Multiset (ℕ × ℕ) := ∑ c ∈ V, (s.cpus c).vm.own

/-- The sections that the VMs of `V` may share. -/
def PmState.shared (V : Finset ℕ) (s : PmState) : Multiset (ℕ × ℕ) := ∑ c ∈ V, (s.cpus c).vm.shared

/-- The pages of the open channels. -/
def PmState.channelBlocks (s : PmState) : Multiset (ℕ × ℕ) :=
  pageBlocks ↑(s.openChannels.map OpenChannel.addr)

/-- The memory of a VM: each of its sections that is not empty has some. -/
def VmProc.Backed (v : VmProc) : Prop := ∀ sec ∈ v.sections, 0 < sec.size → sec.paddr ≠ 0

/-- The pages handed out are held by the VMs of `V`, by the open channels, and by `X` and `S`. -/
structure Account (pool : ℕ) (V : Finset ℕ) (maps : ℕ → View) (X S : Multiset (ℕ × ℕ))
    (s : PmState) : Prop where
  ledger : Ledger s.memory pool (pageBlocks (s.tables V) + (s.own V + (s.channelBlocks + X)))
    (s.shared V + S)
  pool_le : s.memory.firstFreeAddr + pool * 4096 ≤ 2 ^ 32
  mapped : ∀ c ∈ V, (s.cpus c).vm.Mapped s.words (maps c)
  backed : s.allocFailed = false → ∀ c ∈ V, (s.cpus c).vm.Backed

/-- The pages of `Y`, and everything but the pages and the allocator, are the same. -/
structure Frame (Y : Multiset (ℕ × ℕ)) (s s' : PmState) : Prop where
  control : s'.control = s.control
  words : ∀ t n, (t, n) ∈ Y → s'.words t = s.words t
  fdTable : ∀ t n, (t, n) ∈ Y → s'.fdTable t = s.fdTable t
  layout : SameLayout s.memory s'.memory
  failed : s.allocFailed = true → s'.allocFailed = true

section Account

variable {pool a n c : ℕ} {V : Finset ℕ} {maps : ℕ → View} {X X' S S' Y : Multiset (ℕ × ℕ)}
  {s s' t : PmState} {E : PmStop → PmState → Prop}

/-- Two steps. -/
theorem Frame.trans (h : Frame Y s s') (h' : Frame Y s' t) : Frame Y s t :=
  ⟨h'.control.trans h.control, fun a n ha => (h'.words a n ha).trans (h.words a n ha),
    fun a n ha => (h'.fdTable a n ha).trans (h.fdTable a n ha), h.layout.trans h'.layout,
    fun hf => h'.failed (h.failed hf)⟩

/-- A frame for fewer blocks. -/
theorem Frame.of_le (h : Frame Y s s') (hle : X ≤ Y) : Frame X s s' :=
  ⟨h.control, fun a n ha => h.words a n (Multiset.mem_of_le hle ha),
    fun a n ha => h.fdTable a n (Multiset.mem_of_le hle ha), h.layout, h.failed⟩

theorem Frame.cpus (h : Frame Y s s') : s'.cpus = s.cpus := congrArg Control.cpus h.control

theorem Frame.openChannels (h : Frame Y s s') : s'.openChannels = s.openChannels :=
  congrArg Control.openChannels h.control

/-- The channels stay. -/
theorem Frame.channelBlocks (h : Frame Y s s') : s'.channelBlocks = s.channelBlocks := by
  unfold PmState.channelBlocks
  rw [h.openChannels]

/-- The tables of one VM and of the others. -/
theorem tables_eq (h : c ∈ V) (s : PmState) :
    s.tables V = (s.cpus c).vm.tables s.words + s.tables (V.erase c) :=
  (Finset.add_sum_erase V (fun c => (s.cpus c).vm.tables s.words) h).symm

theorem own_eq (h : c ∈ V) (s : PmState) : s.own V = (s.cpus c).vm.own + s.own (V.erase c) :=
  (Finset.add_sum_erase V (fun c => (s.cpus c).vm.own) h).symm

theorem shared_eq (h : c ∈ V) (s : PmState) :
    s.shared V = (s.cpus c).vm.shared + s.shared (V.erase c) :=
  (Finset.add_sum_erase V (fun c => (s.cpus c).vm.shared) h).symm

theorem mem_tables (hc : c ∈ V) (ht : n ∈ (s.cpus c).vm.tables s.words) : n ∈ s.tables V := by
  rw [tables_eq hc]
  exact Multiset.mem_add.mpr (Or.inl ht)

theorem not_failed (h : s.allocFailed = true → s'.allocFailed = true)
    (hok : s'.allocFailed = false) : s.allocFailed = false := by
  by_contra hne
  rw [Bool.not_eq_false] at hne
  exact Bool.false_ne_true (hok.symm.trans (h hne))

/-- A step that changes neither the records of `V`, as far as they say what is held, nor their
tables. -/
theorem Account.change (h : Account pool V maps X S s)
    (hvm : ∀ c ∈ V, (s'.cpus c).vm.holdings = (s.cpus c).vm.holdings)
    (hw : ∀ t ∈ s.tables V, s'.words t = s.words t)
    (hfail : s.allocFailed = true → s'.allocFailed = true)
    (hff : s'.memory.firstFreeAddr = s.memory.firstFreeAddr)
    (hled : Ledger s'.memory pool (pageBlocks (s.tables V) + (s.own V + (s'.channelBlocks + X')))
      (s.shared V + S')) : Account pool V maps X' S' s' := by
  have hkept : ∀ c ∈ V, (s.cpus c).vm.Kept s.words s'.words :=
    fun c hc t ht => hw t (mem_tables hc ht)
  have htables : s'.tables V = s.tables V := Finset.sum_congr rfl fun c hc => by
    rw [VmProc.tables_of_holdings (hvm c hc), VmProc.tables_congr (hkept c hc)]
  have hown : s'.own V = s.own V := Finset.sum_congr rfl fun c hc => VmProc.own_congr (hvm c hc)
  have hshared : s'.shared V = s.shared V :=
    Finset.sum_congr rfl fun c hc => VmProc.shared_congr (hvm c hc)
  refine ⟨?_, by rw [hff]; exact h.pool_le, fun c hc => (h.mapped c hc).congr
    (hvm c hc) (hkept c hc), fun hok c hc => ?_⟩
  · rw [htables, hown, hshared]
    exact hled
  · have hs := not_failed hfail hok
    have hsections : (s'.cpus c).vm.sections = (s.cpus c).vm.sections :=
      congrArg Prod.fst (hvm c hc)
    unfold VmProc.Backed
    rw [hsections]
    exact h.backed hs c hc

/-- Steps of PM that touch neither the allocator nor what the VMs of `V` hold. -/
theorem Account.update (h : Account pool V maps X S s)
    (hvm : ∀ c ∈ V, (s'.cpus c).vm.holdings = (s.cpus c).vm.holdings)
    (hw : s'.words = s.words) (hfail : s'.allocFailed = s.allocFailed) (hmem : s'.memory = s.memory)
    (hch : s'.openChannels = s.openChannels) : Account pool V maps X S s' := by
  refine h.change hvm (fun t _ => by rw [hw]) (fun hf => by rw [hfail, hf]) (by rw [hmem]) ?_
  have hblocks : s'.channelBlocks = s.channelBlocks := by
    unfold PmState.channelBlocks
    rw [hch]
  rw [hblocks, hmem]
  exact h.ledger

/-- The record of a VM that is not counted may change. -/
theorem Account.updateVm (h : Account pool V maps X S s) (hc : c ∉ V) (f : VmProc → VmProc) :
    Account pool V maps X S (s.updateVm c f) := by
  refine h.update (fun d hd => ?_) rfl rfl rfl rfl
  have hne : d ≠ c := fun heq => hc (heq ▸ hd)
  change ((Function.update s.cpus c _) d).vm.holdings = _
  rw [Function.update_of_ne hne]

/-- What the account says of views. -/
theorem Account.congr_maps {maps' : ℕ → View} (h : Account pool V maps X S s)
    (heq : ∀ c ∈ V, maps' c = maps c) : Account pool V maps' X S s :=
  ⟨h.ledger, h.pool_le, fun c hc => by rw [heq c hc]; exact h.mapped c hc, h.backed⟩

/-- Everything that is held lies in the pool. -/
theorem Account.addr (h : Account pool V maps X S s)
    (ha : (a, n) ∈ pageBlocks (s.tables V) + (s.own V + (s.channelBlocks + X)) + (s.shared V + S)) :
    0 < n ∧ a ≠ 0 ∧ a % 4096 = 0 ∧ a + n * 4096 ≤ 2 ^ 32 := by
  obtain ⟨hn, -, hpos, hal, hend, -⟩ := h.ledger.addr ha
  exact ⟨hn, hpos.ne', hal, hend.trans h.pool_le⟩

/-- A block of `X`. -/
theorem Account.addr_extra (h : Account pool V maps X S s) (ha : (a, n) ∈ X) :
    0 < n ∧ a ≠ 0 ∧ a % 4096 = 0 ∧ a + n * 4096 ≤ 2 ^ 32 := by
  refine h.addr (n := n) ?_
  simp only [Multiset.mem_add]
  exact Or.inl (Or.inr (Or.inr (Or.inr ha)))

/-- What the VM `c` holds is no longer counted as such. -/
theorem Account.take (h : Account pool V maps X S s) (hc : c ∈ V) :
    Account pool (V.erase c) maps
      (pageBlocks ((s.cpus c).vm.tables s.words) + ((s.cpus c).vm.own + X))
      ((s.cpus c).vm.shared + S) s := by
  refine ⟨?_, h.pool_le, fun d hd => h.mapped d (Finset.mem_of_mem_erase hd),
    fun hok d hd => h.backed hok d (Finset.mem_of_mem_erase hd)⟩
  have hled := h.ledger
  rw [tables_eq hc, own_eq hc, shared_eq hc, pageBlocks_add] at hled
  convert hled using 1 <;> abel

/-- What the VM `c` holds is counted as such. -/
theorem Account.put (h : Account pool V maps
      (pageBlocks ((s.cpus c).vm.tables s.words) + ((s.cpus c).vm.own + X))
      ((s.cpus c).vm.shared + S) s) (hc : c ∉ V)
    (hmapped : (s.cpus c).vm.Mapped s.words (maps c))
    (hbacked : s.allocFailed = false → (s.cpus c).vm.Backed) :
    Account pool (insert c V) maps X S s := by
  have hmem : c ∈ insert c V := Finset.mem_insert_self c V
  refine ⟨?_, h.pool_le, fun d hd => ?_, fun hok d hd => ?_⟩
  · have hled := h.ledger
    rw [tables_eq hmem, own_eq hmem, shared_eq hmem, pageBlocks_add, Finset.erase_insert hc]
    convert hled using 1 <;> abel
  · rcases Finset.mem_insert.mp hd with rfl | hd
    · exact hmapped
    · exact h.mapped d hd
  · rcases Finset.mem_insert.mp hd with rfl | hd
    · exact hbacked hok
    · exact h.backed hok d hd

/-- A block of which there is one holder may be counted as shared. -/
theorem Account.share (h : Account pool V maps (Y + X) S s) : Account pool V maps X (Y + S) s := by
  refine ⟨?_, h.pool_le, h.mapped, h.backed⟩
  have hled := h.ledger
  rw [show pageBlocks (s.tables V) + (s.own V + (s.channelBlocks + (Y + X))) =
    Y + (pageBlocks (s.tables V) + (s.own V + (s.channelBlocks + X))) by abel] at hled
  rw [show s.shared V + (Y + S) = Y + (s.shared V + S) by abel]
  exact hled.share

/-! ### The allocator -/

/-- Only the allocator has changed, and the block at `a` has been allocated, unless that failed. -/
structure Allocated (n a : ℕ) (s s' : PmState) : Prop where
  same : ∃ m b, s' = { s with memory := m, allocFailed := b }
  layout : SameLayout s.memory s'.memory
  failed : s.allocFailed = true → s'.allocFailed = true
  granted : s'.allocFailed = false → 0 < n → a ≠ 0

/-- Only the allocator has changed. -/
def OnlyMemory (s s' : PmState) : Prop := ∃ m, s' = { s with memory := m } ∧ SameLayout s.memory m

theorem Allocated.frame (h : Allocated n a s s') (Y : Multiset (ℕ × ℕ)) : Frame Y s s' := by
  obtain ⟨m, b, rfl⟩ := h.same
  exact ⟨rfl, fun _ _ _ => rfl, fun _ _ _ => rfl, h.layout, h.failed⟩

theorem OnlyMemory.trans (h : OnlyMemory s s') (h' : OnlyMemory s' t) : OnlyMemory s t := by
  obtain ⟨m, rfl, hlay⟩ := h
  obtain ⟨m', rfl, hlay'⟩ := h'
  exact ⟨m', rfl, hlay.trans hlay'⟩

/-- A change of the allocator. -/
theorem Account.memory {m' : MemoryState} {b : Bool} (h : Account pool V maps X S s)
    (hlay : SameLayout s.memory m') (hb : s.allocFailed = true → b = true)
    (hled : Ledger m' pool (pageBlocks (s.tables V) + (s.own V + (s.channelBlocks + X')))
      (s.shared V + S')) :
    Account pool V maps X' S' { s with memory := m', allocFailed := b } :=
  h.change (fun _ _ => rfl) (fun _ _ => rfl) hb hlay.firstFree hled

/-- An allocation is booked. -/
theorem Account.alloc (h : Account pool V maps X S s) (n : ℕ) :
    wp (allocPages n)
      (fun a s' => Account pool V maps (blockAt a n + X) S s' ∧ Allocated n a s s') E s := by
  by_cases hn : n = 0
  · subst hn
    refine allocPages_zero ⟨?_, ⟨s.memory, s.allocFailed, rfl⟩, .refl _, id,
      fun _ hlt => absurd hlt (lt_irrefl 0)⟩
    rwa [blockAt_zero, zero_add]
  refine (allocPages_spec h.ledger (Nat.pos_of_ne_zero hn)).mono ?_ fun _ _ he => he
  rintro a s' (⟨rfl, rfl⟩ | ⟨ha, m', rfl, hlay, hled, -⟩)
  · refine ⟨?_, ⟨s.memory, true, rfl⟩, .refl _, fun _ => rfl, fun hf => nomatch hf⟩
    rw [blockAt_zero, zero_add]
    exact h.memory (.refl _) (fun _ => rfl) h.ledger
  · refine ⟨h.memory hlay id ?_, ⟨m', s.allocFailed, rfl⟩, hlay, id, fun _ _ => ha⟩
    rw [blockAt_of_ne ha]
    convert hled using 1
    rw [← Multiset.singleton_add]
    abel

/-- Fresh pages filled with zeros, which are none of those held. -/
theorem Account.allocClean (h : Account pool V maps X S s) (hn : 0 < n) :
    wp (allocCleanPages n) (fun a s' => Account pool V maps (blockAt a n + X) S s' ∧
      Frame (s.own V + (s.channelBlocks + X)) s s' ∧
      (s'.allocFailed = false → a ≠ 0) ∧
      (a ≠ 0 → ∀ i, s'.words a i = 0 ∧ s'.fdTable a i = ⟨0, 0, 0, 0⟩)) E s := by
  unfold allocCleanPages
  refine (h.alloc n).bind fun a s₁ ⟨h₁, halloc⟩ => ?_
  by_cases ha : a = 0
  · rw [if_neg (by omega)]
    exact ⟨h₁, halloc.frame _, fun hok => halloc.granted hok hn, fun hne => absurd ha hne⟩
  rw [if_pos (Nat.pos_of_ne_zero ha), wp_bind, wp_modify, wp_pure]
  -- the pages are no page of another block
  have hout : ∀ t k, (t, k) ∈ pageBlocks (s₁.tables V) + (s₁.own V + (s₁.channelBlocks + X)) →
      ¬ IsPageOf a n t := by
    intro t k ht hpage
    have hled := h₁.ledger
    rw [blockAt_of_ne ha, show pageBlocks (s₁.tables V) +
      (s₁.own V + (s₁.channelBlocks + ({(a, n)} + X))) =
      {(a, n)} + (pageBlocks (s₁.tables V) + (s₁.own V + (s₁.channelBlocks + X))) by abel] at hled
    have hmem : (t, k) ∈ {(a, n)} +
        (pageBlocks (s₁.tables V) + (s₁.own V + (s₁.channelBlocks + X))) :=
      Multiset.mem_add.mpr (Or.inr ht)
    have hk := (hled.addr (Multiset.mem_add.mpr (Or.inl hmem))).1
    have heq : ((a, n) : ℕ × ℕ) = (t, k) := hled.eq_of_page
      (Multiset.mem_add.mpr
      (Or.inl (Multiset.mem_add.mpr (Or.inl (Multiset.mem_singleton_self _)))))
      (Multiset.mem_add.mpr (Or.inl hmem)) (t := t) ⟨hpage.1, hpage.2.1⟩
      ⟨le_rfl, by dsimp only; omega⟩
    refine Multiset.disjoint_left.mp (Multiset.nodup_add.mp hled.nodup).2.2
      (Multiset.mem_singleton_self (a, n)) ?_
    rw [heq]
    exact ht
  have hown : s₁.own V + (s₁.channelBlocks + X) = s.own V + (s.channelBlocks + X) := by
    obtain ⟨m, b, rfl⟩ := halloc.same
    rfl
  have hself : IsPageOf a n a := ⟨le_rfl, by omega, by rw [Nat.sub_self]⟩
  refine ⟨h₁.change (fun _ _ => rfl) (fun t ht => funext fun i => if_neg ?_) id rfl h₁.ledger, ?_,
    fun _ => ha, fun _ i => ⟨if_pos ?_, if_pos ?_⟩⟩
  · exact hout t 1 (Multiset.mem_add.mpr (Or.inl (mem_pageBlocks.mpr ⟨ht, rfl⟩)))
  · have hframe := halloc.frame (s.own V + (s.channelBlocks + X))
    refine ⟨hframe.control, fun t k ht => ?_, fun t k ht => ?_, hframe.layout, hframe.failed⟩
    · rw [← hframe.words t k ht]
      exact funext fun i => if_neg (hout t k (Multiset.mem_add.mpr (Or.inr (hown ▸ ht))))
    · rw [← hframe.fdTable t k ht]
      exact funext fun i => if_neg (hout t k (Multiset.mem_add.mpr (Or.inr (hown ▸ ht))))
  · exact hself
  · exact hself

theorem card_blockAt (a n : ℕ) : Multiset.card (blockAt a n) ≤ 1 := by
  unfold blockAt
  split
  · exact Nat.zero_le 1
  · exact (Multiset.card_singleton _).le

/-- There are at most two shared sections for each VM. -/
theorem card_shared (V : Finset ℕ) (s : PmState) : Multiset.card (s.shared V) ≤ 2 * V.card := by
  unfold PmState.shared
  rw [Multiset.card_sum, mul_comm]
  refine Finset.sum_le_card_nsmul V _ 2 fun c _ => ?_
  unfold VmProc.shared VmSection.block
  rw [Multiset.card_add]
  exact add_le_add (card_blockAt _ _) (card_blockAt _ _)

/-- One more holder of a shared block. -/
theorem Account.realloc (h : Account pool V maps X S s) (ha : (a, n) ∈ s.shared V + S)
    (hcard : Multiset.card (s.shared V + S) < 2 ^ 32 - 1) :
    wp (reallocPages a) (fun b s' => b = a ∧ Account pool V maps X (blockAt a n + S) s' ∧
      OnlyMemory s s') E s := by
  have hne : a ≠ 0 := (h.addr (Multiset.mem_add.mpr (Or.inr ha))).2.1
  obtain ⟨m', hm', hlay, hled⟩ := h.ledger.realloc ha hcard
  unfold reallocPages wp withMemory
  rw [hm']
  refine ⟨rfl, h.memory hlay id ?_, m', rfl, hlay⟩
  rw [blockAt_of_ne hne]
  convert hled using 1
  rw [← Multiset.singleton_add]
  abel

/-- Releasing a block that has one holder. -/
theorem Account.freePage (h : Account pool V maps ((a, n) ::ₘ X) S s) :
    wp (freePages a) (fun _ s' => Account pool V maps X S s' ∧ OnlyMemory s s') E s := by
  have hled := h.ledger
  rw [show pageBlocks (s.tables V) + (s.own V + (s.channelBlocks + (a, n) ::ₘ X)) =
    (a, n) ::ₘ (pageBlocks (s.tables V) + (s.own V + (s.channelBlocks + X))) by
      rw [← Multiset.singleton_add, ← Multiset.singleton_add]; abel] at hled
  obtain ⟨m', hm', hlay, hled'⟩ := hled.freeExclusive (Multiset.mem_cons_self _ _)
  rw [Multiset.erase_cons_head] at hled'
  unfold wp
  rw [freePages_ok hm']
  exact ⟨h.memory hlay id hled', m', rfl, hlay⟩

/-- A release is booked. -/
theorem Account.free (h : Account pool V maps (blockAt a n + X) S s) :
    wp (freeOld a) (fun _ s' => Account pool V maps X S s' ∧ OnlyMemory s s') E s := by
  unfold freeOld
  by_cases ha : a = 0
  · rw [if_neg (not_not.mpr ha)]
    rw [ha, blockAt_zero, zero_add] at h
    exact ⟨h, s.memory, rfl, .refl _⟩
  · rw [if_pos ha]
    rw [blockAt_of_ne ha, Multiset.singleton_add] at h
    exact h.freePage

/-- Releasing a block that may have other holders. -/
theorem Account.freeShared (h : Account pool V maps X (blockAt a n + S) s) :
    wp (freeOld a) (fun _ s' => Account pool V maps X S s' ∧ OnlyMemory s s') E s := by
  unfold freeOld
  by_cases ha : a = 0
  · rw [if_neg (not_not.mpr ha)]
    rw [ha, blockAt_zero, zero_add] at h
    exact ⟨h, s.memory, rfl, .refl _⟩
  · rw [if_pos ha]
    have hled := h.ledger
    rw [blockAt_of_ne ha, show s.shared V + ({(a, n)} + S) = (a, n) ::ₘ (s.shared V + S) by
      rw [← Multiset.singleton_add]; abel] at hled
    obtain ⟨m', hm', hlay, hled'⟩ := hled.freeShared (Multiset.mem_cons_self _ _)
    rw [Multiset.erase_cons_head] at hled'
    unfold wp
    rw [freePages_ok hm']
    exact ⟨h.memory hlay id hled', m', rfl, hlay⟩

/-- Releasing the tables of a tree, if `free_page_tables` finds all of them. -/
theorem Account.freeTables {pageSize r : ℕ}
    (h : Account pool V maps (pageBlocks (treeTables s.words pageSize r) + X) S s)
    (hlist : (↑(releaseList s.words r) : Multiset ℕ) = treeTables s.words pageSize r) :
    wp (freePageTables r) (fun _ s' => Account pool V maps X S s' ∧ OnlyMemory s s') E s := by
  have hled := h.ledger
  rw [← hlist, show pageBlocks (s.tables V) + (s.own V + (s.channelBlocks +
      (pageBlocks ↑(releaseList s.words r) + X))) = pageBlocks ↑(releaseList s.words r) +
      (pageBlocks (s.tables V) + (s.own V + (s.channelBlocks + X))) by abel] at hled
  obtain ⟨m', hok, hlay, hled'⟩ := forM_freePages_ledger hled
  unfold wp
  rw [freePageTables_eq, hok]
  exact ⟨h.memory hlay id hled', m', rfl, hlay⟩

/-! ### Page tables -/

/-- The page of a channel. -/
def channelRegion (page : ℕ) : Region :=
  ⟨page, (page + size4KB) % 2 ^ 64, page, eptRead ||| eptWrite, mtypeWt⟩

theorem channelRegion_fits {page : ℕ} (h : IsPage (2 ^ 32) page) :
    (channelRegion page).Fits nestedShape := by
  obtain ⟨hvalid, hcount, hwithin⟩ :=
    h.region reaches_nested (eptRead ||| eptWrite) (by decide) (by decide)
  refine ⟨⟨hvalid.nonempty, hvalid.vaddr_aligned, hvalid.paddr_aligned, hvalid.vaddr_le,
    hvalid.paddr_le, ?_⟩, hcount, hwithin⟩
  exact ⟨hvalid.prot.1, hvalid.prot.2.1, show mtypeWt < 8 by decide⟩

/-- A new region in the nested tables of a VM. -/
theorem Account.map {g : Region} (h : Account pool V maps X S s) (hc : c ∈ V)
    (hg : g.Fits nestedShape)
    (hE : ∀ s, s.allocFailed = true → E (.panic (.map .allocFailed)) s) :
    wp (eptUpdate (s.cpus c).vm.ept g.start g.stop g.paddr g.mtype g.prot) (fun _ s' =>
      Account pool V (Function.update maps c ((maps c).add g)) X S s' ∧
      Frame (s.own V + (s.channelBlocks + X)) s s' ∧ s'.allocFailed = s.allocFailed) E s := by
  have hm := h.mapped c hc
  -- the tables of `c` on top of everything else
  set rest := pageBlocks (treeTables s.words size2MB (s.cpus c).vm.pageTables) +
    (pageBlocks (s.tables (V.erase c)) + (s.own V + (s.channelBlocks + X))) with hrest
  have hled := h.ledger
  rw [tables_eq hc, pageBlocks_add, VmProc.tables, pageBlocks_add, add_assoc, add_assoc] at hled
  have hnested : Nested pmTables (HoldsTables pool rest (s.shared V + S) s) .ept nestedShape size4KB
      (s.cpus c).vm.ept 0 ((maps c).regions.map .map) s.words s := by
    refine ⟨hm.tree, ?_, hm.realizes, fun _ _ => Multiset.notMem_zero _,
      fun u hu => absurd hu (Multiset.notMem_zero u)⟩
    rw [add_zero]
    exact ⟨hled, .refl _, rfl, fun _ _ _ => rfl, fun _ _ _ => rfl, rfl⟩
  refine wp.mono (x := PmapOp.run pmTables mapStop .ept size4KB (s.cpus c).vm.ept (.map g))
    (hnested.map (pmTables_lawful hE) (Or.inl rfl) hg.1 hg.2.1 hg.2.2 hm.notNull) ?_
    fun _ _ he => he
  intro _ s' n
  have hold := n.owned
  rw [add_zero] at hold
  have hcpus := hold.cpus
  have hguest : ∀ t ∈ treeTables s.words size2MB (s.cpus c).vm.pageTables, s'.words t = s.words t :=
    fun t ht => hold.words t 1 (Multiset.mem_add.mpr (Or.inl (mem_pageBlocks.mpr ⟨ht, rfl⟩)))
  have hkept : ∀ d ∈ V.erase c, (s.cpus d).vm.Kept s.words s'.words := fun d hd t ht =>
    hold.words t 1 (Multiset.mem_add.mpr (Or.inr (Multiset.mem_add.mpr
      (Or.inl (mem_pageBlocks.mpr ⟨mem_tables hd ht, rfl⟩)))))
  have hplain : s.own V + (s.channelBlocks + X) ≤ rest := by
    exact (Multiset.le_add_left _ _).trans (Multiset.le_add_left _ _)
  have hframe : Frame (s.own V + (s.channelBlocks + X)) s s' :=
    ⟨hold.control, fun t k ht => hold.words t k (Multiset.mem_of_le hplain ht),
      fun t k ht => hold.fdTable t k (Multiset.mem_of_le hplain ht), hold.layout,
      fun hf => hold.noFail.trans hf⟩
  refine ⟨⟨?_, ?_, fun d hd => ?_, fun hok d hd => ?_⟩, hframe, hold.noFail⟩
  · have htables : s'.tables (V.erase c) = s.tables (V.erase c) :=
      Finset.sum_congr rfl fun d hd => by rw [hcpus, VmProc.tables_congr (hkept d hd)]
    have hown : s'.own V = s.own V ∧ s'.shared V = s.shared V := by
      unfold PmState.own PmState.shared
      rw [hcpus]
      exact ⟨rfl, rfl⟩
    rw [tables_eq hc, htables, pageBlocks_add, VmProc.tables, pageBlocks_add, hcpus,
      treeTables_congr hguest, hown.1, hown.2, hframe.channelBlocks, add_assoc, add_assoc]
    exact hold.ledger
  · rw [hold.layout.firstFree]
    exact h.pool_le
  · by_cases hdc : d = c
    · subst hdc
      rw [hcpus, Function.update_self]
      obtain ⟨htree, hlist⟩ := hm.guest.congr hguest
      refine ⟨htree, hlist.trans hm.list, n.tree, ?_, fun hn => hm.notNull ?_, hm.placed⟩
      · rw [View.add, List.map_append]
        exact n.realizes
      · rw [View.add, List.map_append] at hn
        exact hn.of_append
    · rw [hcpus, Function.update_of_ne hdc]
      exact (h.mapped d hd).congr rfl (hkept d (Finset.mem_erase.mpr ⟨hdc, hd⟩))
  · rw [hcpus]
    exact h.backed (hold.noFail ▸ hok) d hd

/-- The record of a VM that is being built: its memory is part of `X` and `S`, and its sections, its
page of descriptors and the pages of the CPU can be mapped. -/
structure Unmapped (X S : Multiset (ℕ × ℕ)) (c : ℕ) (s : PmState) : Prop where
  cpuPages : ∀ p ∈ (s.cpus c).ownPages (s.infoAddr c), IsPage (2 ^ 32) p.1
  placed : ∀ sec ∈ (s.cpus c).vm.sections, sec.Placed
  held : ∀ sec ∈ (s.cpus c).vm.sections, sec.block ≤ X + S
  own : (s.cpus c).vm.ownPages ≤ X
  offsets : (s.cpus c).vm.fds ≠ 0 →
    ∀ i < maxFd, (s.fdTable (s.cpus c).vm.fds i).offset + 4096 ≤ 2 ^ 32

/-- A VM without tables can get them. -/
theorem Unmapped.ready (hu : Unmapped X S c s) (h : Account pool V maps X S s) :
    s.Ready pool (2 ^ 32) (pageBlocks (s.tables V) + (s.own V + (s.channelBlocks + X)))
      (s.shared V + S) c := by
  have hX : X ≤ pageBlocks (s.tables V) + (s.own V + (s.channelBlocks + X)) :=
    ((Multiset.le_add_left _ _).trans (Multiset.le_add_left _ _)).trans (Multiset.le_add_left _ _)
  have hfds : (s.cpus c).vm.fds ≠ 0 → ((s.cpus c).vm.fds, 1) ∈ X := fun hne =>
    Multiset.mem_of_le hu.own (Multiset.mem_add.mpr (Or.inl (mem_blockAt hne)))
  have hch : (s.cpus c).vm.channels ≠ 0 → ((s.cpus c).vm.channels, 1) ∈ X := fun hne =>
    Multiset.mem_of_le hu.own (Multiset.mem_add.mpr (Or.inr (mem_blockAt hne)))
  refine ⟨h.ledger, h.pool_le, ⟨hu.cpuPages, fun sec hsec hpos => ?_⟩,
    fun hne => Multiset.mem_of_le hX (hfds hne), hu.offsets, fun hne => ?_⟩
  · obtain ⟨hal, hend⟩ := hu.placed sec hsec hpos
    have hpaddr : sec.paddr % 4096 = 0 ∧ sec.paddr + sec.size ≤ 2 ^ 33 := by
      by_cases h0 : sec.paddr = 0
      · rw [h0]
        omega
      have hmem : (sec.paddr, pages sec.size size4KB) ∈ X + S :=
        Multiset.mem_of_le (hu.held sec hsec) (mem_blockAt h0)
      have haddr : (sec.paddr, pages sec.size size4KB) ∈
          pageBlocks (s.tables V) + (s.own V + (s.channelBlocks + X)) + (s.shared V + S) := by
        rcases Multiset.mem_add.mp hmem with hm | hm
        · exact Multiset.mem_add.mpr (Or.inl (Multiset.mem_of_le hX hm))
        · exact Multiset.mem_add.mpr (Or.inr (Multiset.mem_add.mpr (Or.inr hm)))
      obtain ⟨-, -, hal', hend'⟩ := h.addr haddr
      have hspec := pages_spec sec.size (show 0 < 4096 by norm_num)
      rw [show size4KB = 4096 from rfl] at hend'
      exact ⟨hal', by omega⟩
    exact ⟨hal, hpaddr.1, hend, by omega, by omega⟩
  · obtain ⟨-, -, hal, hend⟩ := h.addr_extra (hch hne)
    exact ⟨hal, by omega⟩

/-- `ept_pmap` for a VM that is being built. -/
theorem Account.pmap (h : Account pool V maps X S s) (hc : c ∉ V) (hu : Unmapped X S c s)
    (hE : ∀ s, s.allocFailed = true → E (.panic (.map .allocFailed)) s)
    (hbad : s.Unaligned c → ∀ q s', E (mapStop q) s') :
    wp (eptPmap c) (fun _ s' => ∃ r e,
      Account pool V maps (pageBlocks ((s'.cpus c).vm.tables s'.words) + X) S s' ∧
      (s'.cpus c).vm.Mapped s'.words
        ⟨s.eptRegions c (guestList s'.words r), guestList s'.words r⟩ ∧
      Frame (s.own V + (s.channelBlocks + X))
        (s.updateVm c fun vm => { vm with pageTables := r, ept := e }) s' ∧
      s'.allocFailed = s.allocFailed) E s := by
  refine (eptPmap_spec (hu.ready h) reaches_nested hE hbad).mono ?_ fun _ _ he => he
  rintro - s' ⟨-, r, e, hbuilt⟩
  have hold := hbuilt.holds
  have hplain : s.own V + (s.channelBlocks + X) ≤
      pageBlocks (s.tables V) + (s.own V + (s.channelBlocks + X)) := Multiset.le_add_left _ _
  have hframe : Frame (s.own V + (s.channelBlocks + X))
      (s.updateVm c fun vm => { vm with pageTables := r, ept := e }) s' :=
    ⟨hold.control, fun t k ht => hold.words t k (Multiset.mem_of_le hplain ht),
      fun t k ht => hold.fdTable t k (Multiset.mem_of_le hplain ht), hold.layout,
      fun hf => hold.noFail.trans hf⟩
  have hother : ∀ d ∈ V, s'.cpus d = s.cpus d := fun d hd => by
    have hne : d ≠ c := fun heq => hc (heq ▸ hd)
    rw [hframe.cpus]
    exact Function.update_of_ne hne _ _
  have hrec : (s'.cpus c).vm = { (s.cpus c).vm with pageTables := r, ept := e } := by
    rw [hframe.cpus, updateVm_cpus]
  refine ⟨r, e, h.change (fun d hd => by rw [hother d hd]) (fun t ht => ?_)
    (fun hf => hold.noFail.trans hf) hold.layout.firstFree ?_, ?_, hframe, hold.noFail⟩
  · exact hold.words t 1 (Multiset.mem_add.mpr (Or.inl (mem_pageBlocks.mpr ⟨ht, rfl⟩)))
  · have hblocks : s'.channelBlocks = s.channelBlocks := hframe.channelBlocks
    rw [hblocks, hrec, VmProc.tables]
    convert hold.ledger using 1
    abel
  · rw [hrec]
    refine ⟨hbuilt.guest, rfl, hbuilt.tree, hbuilt.realizes, fun hn => ?_, hu.placed⟩
    have hscreen : NullTables .ept size4KB [.map screenRegion] := NullTables.of_append hn
    exact absurd (hscreen 0xB8000 (by norm_num)) (by decide)

/-- The sections of a VM are among what it holds. -/
theorem VmProc.block_le {v : VmProc} {sec : VmSection} (h : sec ∈ v.sections) :
    sec.block ≤ v.own + v.shared := by
  have heq : v.own + v.shared = (v.sections.map VmSection.block).sum + v.ownPages := by
    simp only [VmProc.own, VmProc.ownSections, VmProc.shared, VmProc.sections, List.map_cons,
      List.map_nil, List.sum_cons, List.sum_nil]
    abel
  rw [heq]
  exact (List.single_le_sum (fun _ _ => Multiset.zero_le _) _
    (List.mem_map_of_mem h)).trans (Multiset.le_add_right _ _)

/-- The view of the VM `c` whose tables `ept_pmap` has built: with the guest page tables `ts`, and
with the pages `ps` for its descriptors and its channels. -/
def PmState.viewOf (s : PmState) (c : ℕ) (ts ps : List ℕ) : View :=
  ⟨[screenRegion, deviceRegion] ++ vmRegions (s.infoAddr c) (s.cpus c) (s.cpus c).vm.access ts ++
    ps.map (fun p => identityRegion p (eptRead ||| eptWrite)) ++ [windowRegion], ts⟩

/-- The view depends on the pages of the CPU and on the sections. -/
theorem viewOf_congr (hpages : (s'.cpus c).ownPages (s'.infoAddr c) = (s.cpus c).ownPages
    (s.infoAddr c)) (hsec : (s'.cpus c).vm.sections = (s.cpus c).vm.sections) (ts ps : List ℕ) :
    s'.viewOf c ts ps = s.viewOf c ts ps := by
  have haccess : (s'.cpus c).vm.access = (s.cpus c).vm.access := by
    simp only [VmProc.sections, List.cons.injEq, and_true] at hsec
    obtain ⟨hcode, hdata, hrodata, hbss, hstack⟩ := hsec
    unfold VmProc.access
    rw [hcode, hdata, hrodata, hbss, hstack]
  unfold PmState.viewOf vmRegions recordRegions
  rw [hpages, haccess]

/-- What the extra pages depend on. -/
theorem extraPages_congr {v v' : VmProc} (hfds : v'.fds = v.fds) (hch : v'.channels = v.channels)
    (htable : v.fds ≠ 0 → s'.fdTable v.fds = s.fdTable v.fds) :
    s'.extraPages v' = s.extraPages v := by
  unfold PmState.extraPages PmState.fdPages
  rw [hfds, hch]
  split
  · rfl
  · rename_i hne
    rw [htable hne]

/-- `ept_pmap` completes a VM. -/
theorem Account.build (h : Account pool V maps ((s.cpus c).vm.own + X) ((s.cpus c).vm.shared + S) s)
    (hc : c ∉ V) (hpages : ∀ p ∈ (s.cpus c).ownPages (s.infoAddr c), IsPage (2 ^ 32) p.1)
    (hplaced : ∀ sec ∈ (s.cpus c).vm.sections, sec.Placed)
    (hoff : (s.cpus c).vm.fds ≠ 0 →
      ∀ i < maxFd, (s.fdTable (s.cpus c).vm.fds i).offset + 4096 ≤ 2 ^ 32)
    (hbacked : s.allocFailed = false → (s.cpus c).vm.Backed)
    (hE : ∀ s, s.allocFailed = true → E (.panic (.map .allocFailed)) s)
    (hbad : s.Unaligned c → ∀ q s', E (mapStop q) s') :
    wp (eptPmap c) (fun _ s' => ∃ r e,
      Account pool (insert c V)
        (Function.update maps c (s.viewOf c (guestList s'.words r) (s.extraPages (s.cpus c).vm)))
        X S s' ∧
      Frame (s.own V + (s.channelBlocks + ((s.cpus c).vm.own + X)))
        (s.updateVm c fun vm => { vm with pageTables := r, ept := e }) s' ∧
      s'.allocFailed = s.allocFailed) E s := by
  have hu : Unmapped ((s.cpus c).vm.own + X) ((s.cpus c).vm.shared + S) c s := by
    refine ⟨hpages, hplaced, fun sec hsec => ?_, ?_, hoff⟩
    · refine (VmProc.block_le hsec).trans ?_
      exact add_le_add (Multiset.le_add_right _ _) (Multiset.le_add_right _ _)
    · exact (Multiset.le_add_left _ _).trans (Multiset.le_add_right _ _)
  refine (h.pmap hc hu hE hbad).mono ?_ fun _ _ he => he
  rintro - s' ⟨r, e, h', hmapped, hframe, hfail⟩
  have hrec : (s'.cpus c).vm = { (s.cpus c).vm with pageTables := r, ept := e } := by
    rw [hframe.cpus, updateVm_cpus]
  refine ⟨r, e, ?_, hframe, hfail⟩
  refine Account.put (c := c) ?_ hc ?_ ?_
  · rw [hrec] at h' ⊢
    refine h'.congr_maps fun d hd => Function.update_of_ne (fun heq => hc ?_) _ _
    exact heq ▸ hd
  · rw [Function.update_self]
    exact hmapped
  · intro hok
    rw [hrec]
    exact hbacked (hfail.symm.trans hok)

end Account

end Savannah
