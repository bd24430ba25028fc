import Savannah.Pm.Fork

/-!
# Exit

`local_exit` releases the sections and the tables of a VM, closes the channels of its descriptors,
and releases the page of its descriptors or of its channels.  `load_elf` releases the sections and
the tables of the old program in the same way (`releaseVm`).

The books that were kept for the VMs of `V` are kept for the others afterwards
(`localExit_books`).  This needs that a driver has no open channels when it exits: its array is gone
then, and nothing tells later which channels were its own.
-/

namespace Savannah

open Foundation PmState MemoryState

/-! ### The memory of a VM -/

/-- Releasing the memory that a record lists. -/
def releaseVm (v : VmProc) : Pm Unit := do
  freeOld v.code.paddr
  freeOld v.data.paddr
  freeOld v.rodata.paddr
  freeOld v.bss.paddr
  freeOld v.stack.paddr
  freePageTables v.pageTables
  freePageTables v.ept

section Release

variable {pool c : ℕ} {V : Finset ℕ} {maps : ℕ → View} {X S : Multiset (ℕ × ℕ)}
  {s s' t : PmState} {v : VmProc} {x : View} {E : PmStop → PmState → Prop}

theorem exitFree_eq (c : ℕ) : exitFree c = (do releaseVm ((← get).cpus c).vm) := rfl

theorem OnlyMemory.words (h : OnlyMemory s s') : s'.words = s.words := by
  obtain ⟨m, rfl, -⟩ := h
  rfl

/-- The tables of a VM. -/
theorem Account.freeTrees (h : Account pool V maps (pageBlocks (v.tables s.words) + X) S s)
    (hv : v.Mapped s.words x) :
    wp (do freePageTables v.pageTables; freePageTables v.ept)
      (fun _ s' => Account pool V maps X S s' ∧ OnlyMemory s s') E s := by
  have hne : ∀ a ∈ v.tables s.words, a ≠ 0 := fun a ha =>
    (h.addr_extra (Multiset.mem_add.mpr (Or.inl (mem_pageBlocks.mpr ⟨ha, rfl⟩)))).2.1
  have hguest := hv.guest.releaseList_eq fun a ha => hne a (Multiset.mem_add.mpr (Or.inr ha))
  have hept := hv.releaseEpt fun a ha => hne a (Multiset.mem_add.mpr (Or.inl ha))
  rw [VmProc.tables, pageBlocks_add, add_comm (pageBlocks _) (pageBlocks _), add_assoc] at h
  refine (h.freeTables hguest).bind ?_
  rintro - s₁ ⟨h₁, m₁⟩
  rw [← m₁.words] at h₁ hept
  refine (h₁.freeTables hept).mono ?_ fun _ _ he => he
  rintro - s₂ ⟨h₂, m₂⟩
  exact ⟨h₂, m₁.trans m₂⟩

/-- The sections and the tables of a VM. -/
theorem Account.releaseVm
    (h : Account pool V maps (pageBlocks (v.tables s.words) + (v.ownSections + X)) (v.shared + S) s)
    (hv : v.Mapped s.words x) :
    wp (releaseVm v) (fun _ s' => Account pool V maps X S s' ∧ OnlyMemory s s') E s := by
  unfold Savannah.releaseVm
  rw [VmProc.shared, add_assoc] at h
  refine h.freeShared.bind ?_
  rintro - s₁ ⟨h₁, m₁⟩
  rw [VmProc.ownSections, show pageBlocks (v.tables s.words) +
    (v.data.block + v.bss.block + v.stack.block + X) = v.data.block +
      (v.bss.block + (v.stack.block + (pageBlocks (v.tables s.words) + X))) by abel] at h₁
  refine h₁.free.bind ?_
  rintro - s₂ ⟨h₂, m₂⟩
  refine h₂.freeShared.bind ?_
  rintro - s₃ ⟨h₃, m₃⟩
  refine h₃.free.bind ?_
  rintro - s₄ ⟨h₄, m₄⟩
  refine h₄.free.bind ?_
  rintro - s₅ ⟨h₅, m₅⟩
  have m := m₁.trans (m₂.trans (m₃.trans (m₄.trans m₅)))
  rw [← m.words] at h₅ hv
  refine (h₅.freeTrees hv).mono ?_ fun _ _ he => he
  rintro - s₆ ⟨h₆, m₆⟩
  exact ⟨h₆, m.trans m₆⟩

end Release

/-! ### The descriptors -/

/-- The channels of the entries `l` of a table. -/
def closedChannels (f : ℕ → FileDescriptor) (l : List ℕ) : List ℕ :=
  (charFds f l).map fun i => (f i).offset

/-- An array that contains a channel of the table is not full: with a second free entry the loop of
`remove_channel_list` assigns entries with an index below `B` only. -/
def CloseRoom (B : ℕ) (s : PmState) (a : ℕ) : Prop :=
  ∀ d, a ∈ s.channelsOf d → (s.channelsOf d).length + 2 ≤ B

/-- The channels of the character devices among the descriptors `f` are open, and different. -/
structure FdsOpen (s : PmState) (f : ℕ → FileDescriptor) : Prop where
  nodup : (closedChannels f (List.range maxFd)).Nodup
  opened : ∀ a ∈ closedChannels f (List.range maxFd), a ∈ s.openChannels.map OpenChannel.addr

/-- The channels of the entries `l` of the table `f` were closed. -/
structure FdsClosed (B : ℕ) (f : ℕ → FileDescriptor) (l : List ℕ) (Y : Multiset (ℕ × ℕ))
    (s s' : PmState) : Prop where
  step : ChannelStep B Y s s'
  opened : s'.openChannels = s.openChannels.filter fun o => o.addr ∉ closedChannels f l
  nodup : (closedChannels f l).Nodup
  subset : ∀ a ∈ closedChannels f l, a ∈ s.openChannels.map OpenChannel.addr

section Fds

variable {pool c B dst : ℕ} {V : Finset ℕ} {maps : ℕ → View} {X S Y : Multiset (ℕ × ℕ)}
  {s s' t : PmState} {f : ℕ → FileDescriptor} {l : List ℕ} {P : Prop}

/-- The channels of two parts. -/
theorem closedChannels_append (f : ℕ → FileDescriptor) (l l' : List ℕ) :
    closedChannels f (l ++ l') = closedChannels f l ++ closedChannels f l' := by
  unfold closedChannels
  rw [charFds_append, List.map_append]

/-- Closing channels leaves a part of each list. -/
theorem FdsClosed.channelsOf (h : FdsClosed B f l Y s s') (d : ℕ) :
    (s'.channelsOf d).Sublist (s.channelsOf d) := by
  unfold PmState.channelsOf
  rw [h.opened, List.filter_comm]
  exact List.filter_sublist.map _

theorem FdsClosed.refl (B : ℕ) (f : ℕ → FileDescriptor) (Y : Multiset (ℕ × ℕ)) (s : PmState) :
    FdsClosed B f [] Y s s := by
  refine ⟨.refl _ _ _, ?_, List.nodup_nil, fun a ha => absurd ha List.not_mem_nil⟩
  exact (List.filter_eq_self.mpr fun o _ => decide_eq_true List.not_mem_nil).symm

/-- A file is passed over. -/
theorem FdsClosed.skip (h : FdsClosed B f l Y s s') {i : ℕ} (hi : (f i).type ≠ typeChar) :
    FdsClosed B f (l ++ [i]) Y s s' := by
  have heq : closedChannels f (l ++ [i]) = closedChannels f l := by
    rw [closedChannels_append]
    simp [closedChannels, charFds, hi]
  exact ⟨h.step, by rw [heq]; exact h.opened, by rw [heq]; exact h.nodup,
    by rw [heq]; exact h.subset⟩

/-- One more channel. -/
theorem FdsClosed.close (h : FdsClosed B f l Y s s') {i : ℕ} (hi : (f i).type = typeChar)
    (hstep : ChannelStep B Y s' t)
    (hopen : t.openChannels = s'.openChannels.filter fun o => o.addr ≠ (f i).offset)
    (hmem : (f i).offset ∈ s'.openChannels.map OpenChannel.addr) :
    FdsClosed B f (l ++ [i]) Y s t := by
  have hlast : closedChannels f (l ++ [i]) = closedChannels f l ++ [(f i).offset] := by
    rw [closedChannels_append]
    simp [closedChannels, charFds, hi]
  obtain ⟨o, ho, haddr⟩ := List.mem_map.mp hmem
  rw [h.opened] at ho
  obtain ⟨ho, hnot⟩ := List.mem_filter.mp ho
  rw [haddr] at hnot
  refine ⟨h.step.trans hstep, ?_, ?_, fun a ha => ?_⟩
  · rw [hopen, h.opened, List.filter_filter, hlast]
    refine List.filter_congr fun o _ => ?_
    simp only [List.mem_append, List.mem_singleton, not_or, Bool.decide_and, Bool.and_comm]
  · rw [hlast]
    exact List.Nodup.append h.nodup (List.nodup_singleton _)
      (List.disjoint_singleton.mpr (of_decide_eq_true hnot))
  · rw [hlast] at ha
    rcases List.mem_append.mp ha with ha | ha
    · exact h.subset a ha
    · rw [List.mem_singleton.mp ha, ← haddr]
      exact List.mem_map_of_mem ho

theorem Books.post (h : Books pool V maps X S s) (m : Post) : Books pool V maps X S (s.post m) :=
  h.update (fun _ _ => rfl) (fun _ => rfl) rfl rfl rfl rfl

/-- The arrays belong to CPUs that the loop of `remove_channel_list` looks at. -/
structure Drivers (s : PmState) : Prop where
  ncpus_le : s.ncpus ≤ maxCpus
  found : ∀ d, (s.cpus d).vm.channels ≠ 0 → d < s.ncpus

/-- The drivers stay. -/
theorem ChannelStep.drivers (h : ChannelStep B Y s s') (hd : Drivers s) : Drivers s' := by
  have hcpus := h.cpus
  have hncpus : s'.ncpus = s.ncpus := congrArg (fun r => r.2.1) h.roster
  refine ⟨by rw [hncpus]; exact hd.ncpus_le, fun d hne => ?_⟩
  rw [hcpus] at hne
  rw [hncpus]
  exact hd.found d hne

/-- A channel has a page. -/
theorem Account.channel_ne {a : ℕ} (h : Account pool V maps X S s)
    (ha : a ∈ s.openChannels.map OpenChannel.addr) : a ≠ 0 := by
  refine (h.addr (n := 1) ?_).2.1
  have hblock : (a, 1) ∈ s.channelBlocks := mem_pageBlocks.mpr ⟨Multiset.mem_coe.mpr ha, rfl⟩
  simp only [Multiset.mem_add]
  exact Or.inl (Or.inr (Or.inr (Or.inl hblock)))

/-- A channel of the table that has not been closed yet is open. -/
theorem FdsClosed.mem_open {i : ℕ} {is : List ℕ} (h : FdsClosed B f l Y s s') (ho : FdsOpen s f)
    (hl : List.range maxFd = l ++ i :: is) (hi : (f i).type = typeChar) :
    (f i).offset ∈ s'.openChannels.map OpenChannel.addr := by
  have hrest : (f i).offset ∈ closedChannels f (i :: is) :=
    List.mem_map_of_mem (mem_charFds.mpr ⟨List.mem_cons_self, hi⟩)
  have hnodup := ho.nodup
  rw [hl, closedChannels_append] at hnodup
  have hopened := ho.opened (f i).offset
  rw [hl, closedChannels_append] at hopened
  obtain ⟨o, hmem, haddr⟩ := List.mem_map.mp (hopened (List.mem_append_right _ hrest))
  refine List.mem_map.mpr ⟨o, ?_, haddr⟩
  rw [h.opened]
  refine List.mem_filter.mpr ⟨hmem, decide_eq_true fun hbefore => ?_⟩
  rw [haddr] at hbefore
  exact (List.nodup_append.mp hnodup).2.2 _ hbefore _ hrest rfl

/-- `close_channel`; PM answers for FS. -/
theorem closeChannel_spec {i : ℕ} (h : Books pool V maps X S s) (hd : Drivers s)
    (hP : P → (s.fdTable (s.cpus c).vm.fds i).offset ∈ s.openChannels.map OpenChannel.addr)
    (hB : CloseRoom B s (s.fdTable (s.cpus c).vm.fds i).offset) (hB' : B ≤ maxChannels + 1)
    (hY : ∀ n, ((s.cpus c).vm.fds, n) ∉ Y) :
    wp (closeChannel c i) (fun _ s' => Books pool V maps X S s' ∧ ChannelStep B Y s s' ∧
      s'.openChannels = s.openChannels.filter
        (fun o => o.addr ≠ (s.fdTable (s.cpus c).vm.fds i).offset) ∧
      (s.fdTable (s.cpus c).vm.fds i).offset ∈ s.openChannels.map OpenChannel.addr ∧
      ∀ j, j ≠ i → s'.fdTable (s.cpus c).vm.fds j = s.fdTable (s.cpus c).vm.fds j) (Halts P) s := by
  unfold closeChannel
  rw [wp_bind, wp_get, wp_bind, wp_get]
  dsimp only
  generalize (s.cpus c).vm.fds = fds at hP hB hY ⊢
  refine wp_ite.mpr ⟨fun h0 => ⟨nofun, Or.inr fun hp => h.account.channel_ne (hP hp) h0⟩,
    fun _ => ?_⟩
  refine ((h.close (Y := (fds, 1) ::ₘ Y) hd.ncpus_le hd.found hB hB').mono (fun _ _ h => h)
    fun _ _ he => he.mono hP).bind ?_
  rintro - s₁ ⟨h₁, hstep, hopen, hmem, -⟩
  rw [wp_bind, wp_modify, wp_modify]
  have hfds := hstep.fdTable fds 1 (Multiset.mem_cons_self _ _)
  have hset : ChannelStep B Y s (s₁.setFd fds i { s₁.fdTable fds i with offset := 0 }) :=
    (hstep.of_subset fun x hx => Multiset.mem_cons_of_mem hx).setFd hY _ _
  refine ⟨(h₁.setFd fds i _).post _,
    ⟨hset.roster, hset.fdTable, hset.writes, hset.layout, hset.failed⟩, hopen, hmem, fun j hj => ?_⟩
  rw [← hfds]
  exact if_neg fun hand => hj hand.2

/-- The loop over the descriptors. -/
theorem closeFds_spec (h : Books pool V maps X S s) (hd : Drivers s) (hB' : B ≤ maxChannels + 1)
    (hB : ∀ a ∈ closedChannels (s.fdTable (s.cpus c).vm.fds) (List.range maxFd), CloseRoom B s a)
    (hP : P → FdsOpen s (s.fdTable (s.cpus c).vm.fds))
    (hY : ∀ n, ((s.cpus c).vm.fds, n) ∉ Y) :
    wp ((List.range maxFd).forM fun i => do
        if ((← get).fdTable (s.cpus c).vm.fds i).type = typeChar then
          closeChannel c i) (fun _ s' => Books pool V maps X S s' ∧
      FdsClosed B (s.fdTable (s.cpus c).vm.fds) (List.range maxFd) Y s s') (Halts P) s := by
  set fds := (s.cpus c).vm.fds with hfds
  set f := s.fdTable fds with hf
  -- the entries from the current one on are as before
  let I (is : List ℕ) (t : PmState) : Prop := ∃ pre, List.range maxFd = pre ++ is ∧
    Books pool V maps X S t ∧ FdsClosed B f pre Y s t ∧ ∀ i ∈ is, t.fdTable fds i = f i
  refine (wp_forM (I := I) ?_ ⟨[], rfl, h, .refl _ _ _ _, fun _ _ => rfl⟩).mono ?_ fun _ _ he => he
  · rintro i is t - ⟨pre, hl, hb, hclosed, hrest⟩
    have hl' : List.range maxFd = pre ++ [i] ++ is := by rw [hl, List.append_assoc]; rfl
    have hentry := hrest i List.mem_cons_self
    rw [wp_bind, wp_get, hentry]
    refine wp_ite.mpr ⟨fun hchar => ?_, fun hchar =>
      ⟨_, hl', hb, hclosed.skip hchar, fun j hj => hrest j (List.mem_cons_of_mem _ hj)⟩⟩
    have hmem : i ∈ charFds f (List.range maxFd) := by
      refine mem_charFds.mpr ⟨?_, hchar⟩
      rw [hl]
      exact List.mem_append_right _ List.mem_cons_self
    have hfds' : (t.cpus c).vm.fds = fds := by rw [hclosed.step.cpus]
    have hroom : CloseRoom B t (t.fdTable (t.cpus c).vm.fds i).offset := by
      intro d hd
      rw [hfds', hentry] at hd
      have hsub := hclosed.channelsOf d
      have hle := hB _ (List.mem_map_of_mem hmem) d (hsub.subset hd)
      have := hsub.length_le
      omega
    have hopen : P → (t.fdTable (t.cpus c).vm.fds i).offset ∈ t.openChannels.map
        OpenChannel.addr := by
      rw [hfds', hentry]
      exact fun hp => hclosed.mem_open (hP hp) hl hchar
    refine (closeChannel_spec hb (hclosed.step.drivers hd) hopen hroom hB'
      (by rw [hfds']; exact hY)).mono ?_ fun _ _ he => he
    rintro - t' ⟨hb', hstep, hrest', hin, hkeep⟩
    rw [hfds', hentry] at hrest' hin
    rw [hfds'] at hkeep
    refine ⟨_, hl', hb', hclosed.close hchar hstep hrest' hin, fun j hj => ?_⟩
    have hnodup := List.nodup_range (n := maxFd)
    rw [hl] at hnodup
    have hne : j ≠ i := by
      rintro rfl
      exact (List.nodup_cons.mp (List.nodup_append.mp hnodup).2.1).1 hj
    rw [hkeep j hne]
    exact hrest j (List.mem_cons_of_mem _ hj)
  · rintro - t ⟨pre, hl, hb, hclosed, -⟩
    rw [List.append_nil] at hl
    rw [hl]
    exact ⟨hb, hclosed⟩

end Fds

/-! ### `local_exit` -/

/-- What an exit of the VM `c` of `V` does; the entries of arrays that it assigns have an index
below `B`. -/
structure Exited (pool : ℕ) (V : Finset ℕ) (maps : ℕ → View) (B c : ℕ) (s s' : PmState) : Prop where
  books : Books pool (V.erase c) maps 0 0 s'
  other : ∀ d, d ≠ c → s'.cpus d = s.cpus d
  self : (s'.cpus c).vm.fds = 0 ∧ (s'.cpus c).vm.channels = 0
  fdTable : ∀ t n, (t, n) ∈ s.own (V.erase c) → s'.fdTable t = s.fdTable t
  opened : s'.openChannels =
    s.openChannels.filter fun o => o.addr ∉ closedChannels (s.descriptors c) (List.range maxFd)
  closed : (closedChannels (s.descriptors c) (List.range maxFd)).Nodup ∧
    ∀ a ∈ closedChannels (s.descriptors c) (List.range maxFd),
      a ∈ s.openChannels.map OpenChannel.addr
  writes : ∃ l, s'.arrayWrites = s.arrayWrites ++ l ∧ ∀ x ∈ l, x.2 < B
  live : s'.live = s.live
  layout : SameLayout s.memory s'.memory
  failed : s.allocFailed = true → s'.allocFailed = true

section Exit

variable {pool c B a : ℕ} {V : Finset ℕ} {maps : ℕ → View} {X X' S S' Y : Multiset (ℕ × ℕ)}
  {s s' t : PmState} {P : Prop} {E : PmStop → PmState → Prop}

/-- Releasing pages leaves the arrays alone. -/
theorem Books.of_memory (h : Books pool V maps X S s) {V' : Finset ℕ}
    (h' : Account pool V' maps X' S' s') (hm : OnlyMemory s s')
    (hheld : ∀ d, (s.cpus d).vm.channels ≠ 0 → ((s.cpus d).vm.channels, 1) ∈ s.own V' + X') :
    Books pool V' maps X' S' s' := by
  obtain ⟨m, rfl, -⟩ := hm
  exact ⟨h', ⟨h.arrays.array, h.arrays.apart⟩, hheld, h.listed⟩

theorem mem_own_of_channels (hc : c ∈ V) (hne : (s.cpus c).vm.channels ≠ 0) :
    ((s.cpus c).vm.channels, 1) ∈ s.own V := by
  rw [own_eq hc]
  exact Multiset.mem_add.mpr (Or.inl (Multiset.mem_add.mpr (Or.inr (Multiset.mem_add.mpr
    (Or.inr (mem_blockAt hne))))))

/-- The memory of `c` is released; its pages for descriptors and channels are not. -/
theorem exitFree_spec (h : Books pool V maps 0 0 s) (hc : c ∈ V)
    (hidle : ∀ d, (s.cpus d).vm.channels ≠ 0 → d ∈ V) :
    wp (exitFree c) (fun _ s' => Books pool (V.erase c) maps (s.cpus c).vm.ownPages 0 s' ∧
      OnlyMemory s s') E s := by
  rw [exitFree_eq, wp_bind, wp_get]
  have htake := h.account.take hc
  rw [add_zero, VmProc.own] at htake
  refine (htake.releaseVm (h.account.mapped c hc)).mono ?_ fun _ _ he => he
  rintro - s' ⟨h', hm⟩
  refine ⟨h.of_memory h' hm fun d hne => ?_, hm⟩
  by_cases hd : d = c
  · subst hd
    exact Multiset.mem_add.mpr (Or.inr (Multiset.mem_add.mpr (Or.inr (mem_blockAt hne))))
  · exact Multiset.mem_add.mpr (Or.inl
      (mem_own_of_channels (Finset.mem_erase.mpr ⟨hd, hidle d hne⟩) hne))

theorem updateVm_of_eq {f : VmProc → VmProc} (h : f (s.cpus c).vm = (s.cpus c).vm) :
    s.updateVm c f = s := by
  unfold PmState.updateVm updateCpu
  dsimp only
  rw [h, Function.update_eq_self]

theorem FdsClosed.none {f : ℕ → FileDescriptor} {l : List ℕ} (hl : charFds f l = [])
    (Y : Multiset (ℕ × ℕ)) (s : PmState) : FdsClosed B f l Y s s := by
  have hnil : closedChannels f l = [] := by rw [closedChannels, hl]; rfl
  refine ⟨.refl _ _ _, ?_, by rw [hnil]; exact List.nodup_nil, fun a ha => ?_⟩
  · rw [hnil]
    exact (List.filter_eq_self.mpr fun o _ => decide_eq_true List.not_mem_nil).symm
  · rw [hnil] at ha
    exact absurd ha List.not_mem_nil

/-- A page of a VM is given back: it is released, and its address is forgotten. -/
theorem Books.giveBack {f : VmProc → VmProc} (h : Books pool V maps (blockAt a 1 + X) S s)
    (hc : c ∉ V) (hne : a ≠ 0)
    (hheld : ∀ d, ((s.updateVm c f).cpus d).vm.channels ≠ 0 →
      (((s.updateVm c f).cpus d).vm.channels, 1) ∈ s.own V + X ∧
        ((s.updateVm c f).cpus d).vm.channels = (s.cpus d).vm.channels)
    (hlisted : ∀ d, ((s.updateVm c f).cpus d).vm.channels = 0 → s.channelsOf d = []) :
    wp (do freePages a; modify (PmState.updateVm c f)) (fun _ s' => Books pool V maps X S s' ∧
      ∃ m, s' = { s.updateVm c f with memory := m } ∧ SameLayout s.memory m) E s := by
  have haccount := h.account
  rw [blockAt_of_ne hne, Multiset.singleton_add] at haccount
  refine haccount.freePage.bind ?_
  rintro - s₁ ⟨h₁, m, rfl, hlay⟩
  rw [wp_modify]
  have hown : (PmState.updateVm c f { s with memory := m }).own V = s.own V := by
    refine Finset.sum_congr rfl fun d hd => ?_
    have hdc : d ≠ c := fun heq => hc (heq ▸ hd)
    change ((Function.update s.cpus c _) d).vm.own = _
    rw [Function.update_of_ne hdc]
  refine ⟨⟨h₁.updateVm hc f, ⟨fun d hd => ?_, fun d e hd heq => ?_⟩, fun d hd => ?_, hlisted⟩,
    m, rfl, hlay⟩
  · have heq : ((PmState.updateVm c f { s with memory := m }).cpus d).vm.channels =
        (s.cpus d).vm.channels := (hheld d hd).2
    rw [heq] at hd ⊢
    exact h.arrays.array d hd
  · have hd' := (hheld d hd).2
    have he' := (hheld e (heq ▸ hd)).2
    refine h.arrays.apart d e ?_ ?_
    · rw [← hd']
      exact hd
    · rw [← hd', ← he']
      exact heq
  · rw [hown]
    exact (hheld d hd).1

/-- The page of descriptors of `c` is no page of another VM. -/
theorem Account.page_ne {n : ℕ} (h : Account pool V maps X S s) (hc : c ∈ V)
    (ha : (a, n) ∈ s.own (V.erase c)) : a ≠ (s.cpus c).vm.fds := by
  rw [← Finset.insert_erase hc] at h
  by_cases h0 : (s.cpus c).vm.fds = 0
  · rw [h0]
    refine (h.addr (n := n) ?_).2.1
    rw [own_insert (Finset.notMem_erase c V)]
    simp only [Multiset.mem_add]
    exact Or.inl (Or.inr (Or.inl (Or.inr ha)))
  · refine h.own_ne (n := n) (Finset.notMem_erase c V) ?_ (Multiset.mem_add.mpr (Or.inl ha))
    exact Multiset.mem_add.mpr (Or.inr (Multiset.mem_add.mpr (Or.inl (mem_blockAt h0))))

/-- Closing the channels of a VM and releasing the page of its descriptors. -/
theorem exitFds_spec (h : Books pool V maps (s.cpus c).vm.ownPages 0 s) (hc : c ∉ V)
    (hidle : ∀ d, d ≠ c → (s.cpus d).vm.channels ≠ 0 → d ∈ V) (hd : Drivers s)
    (hB' : B ≤ maxChannels + 1)
    (hB : ∀ a ∈ closedChannels (s.descriptors c) (List.range maxFd), CloseRoom B s a)
    (hP : P → FdsOpen s (s.descriptors c)) :
    wp (exitFds c) (fun _ s' => Books pool V maps (blockAt (s.cpus c).vm.channels 1) 0 s' ∧
      ∃ t m, FdsClosed B (s.descriptors c) (List.range maxFd) (s.heldBut V (s.cpus c).vm.fds) s t ∧
        s' = { t.updateVm c (fun v => { v with fds := 0 }) with memory := m } ∧
        SameLayout t.memory m) (Halts P) s := by
  unfold exitFds
  rw [wp_bind, wp_get]
  dsimp only
  refine wp_ite.mpr ⟨fun hne => ?_, fun h0 => ?_⟩
  · have hdesc : s.descriptors c = s.fdTable (s.cpus c).vm.fds := if_neg hne
    rw [hdesc] at hB hP ⊢
    refine (closeFds_spec (Y := s.heldBut V (s.cpus c).vm.fds) h hd hB' hB hP
      notMem_heldBut).bind ?_
    rintro - t ⟨hb, hclosed⟩
    have hcpus := hclosed.step.cpus
    have hown : t.own V = s.own V := by
      unfold PmState.own
      rw [hcpus]
    refine (Books.giveBack (f := fun v => { v with fds := 0 }) hb hc hne (fun d hd => ?_)
      fun d hd => ?_).mono ?_ fun _ _ he => he
    · have heq := updateVm_vm (g := fun v => { v with fds := 0 }) c d t VmProc.channels fun _ => rfl
      rw [heq] at hd ⊢
      refine ⟨?_, rfl⟩
      rw [hown]
      rw [hcpus] at hd ⊢
      by_cases hdc : d = c
      · subst hdc
        exact Multiset.mem_add.mpr (Or.inr (mem_blockAt hd))
      · exact Multiset.mem_add.mpr (Or.inl (mem_own_of_channels (hidle d hdc hd) hd))
    · rw [updateVm_vm (g := fun v => { v with fds := 0 }) c d t VmProc.channels fun _ => rfl] at hd
      exact hb.listed d hd
    · rintro - s' ⟨hb', m, hs', hlay⟩
      exact ⟨hb', t, m, hclosed, hs', hlay⟩
  · have h0 : (s.cpus c).vm.fds = 0 := not_not.mp h0
    have hdesc : s.descriptors c = fun _ => ⟨0, 0, 0, 0⟩ := if_pos h0
    rw [VmProc.ownPages, h0, blockAt_zero, zero_add] at h
    rw [hdesc]
    refine ⟨h, s, s.memory, FdsClosed.none (List.filter_eq_nil_iff.mpr fun i _ => by simp) _ _, ?_,
      .refl _⟩
    rw [updateVm_of_eq]
    rw [← h0]

/-- Releasing the array of a driver that has no open channels. -/
theorem exitChannels_spec (h : Books pool V maps (blockAt (s.cpus c).vm.channels 1) 0 s)
    (hc : c ∉ V)
    (hidle : ∀ d, d ≠ c → (s.cpus d).vm.channels ≠ 0 → d ∈ V) (hempty : s.channelsOf c = []) :
    wp (exitChannels c) (fun _ s' => Books pool V maps 0 0 s' ∧
      ∃ m, s' = { s.updateVm c (fun v => { v with channels := 0 }) with memory := m } ∧
        SameLayout s.memory m) E s := by
  unfold exitChannels
  rw [wp_bind, wp_get]
  dsimp only
  refine wp_ite.mpr ⟨fun hne => ?_, fun h0 => ?_⟩
  · rw [← add_zero (blockAt _ _)] at h
    have hself : ((s.updateVm c fun v => { v with channels := 0 }).cpus c).vm.channels = 0 := by
      rw [updateVm_cpus]
    have hother : ∀ d, d ≠ c → (s.updateVm c fun v => { v with channels := 0 }).cpus d = s.cpus d :=
      fun d hd => Function.update_of_ne hd _ _
    refine Books.giveBack h hc hne (fun d hd => ?_) fun d hd => ?_
    · have hdc : d ≠ c := by
        rintro rfl
        exact hd hself
      rw [hother d hdc] at hd ⊢
      exact ⟨Multiset.mem_add.mpr (Or.inl (mem_own_of_channels (hidle d hdc hd) hd)), rfl⟩
    · by_cases hdc : d = c
      · rw [hdc]
        exact hempty
      · rw [hother d hdc] at hd
        exact h.listed d hd
  · have h0 : (s.cpus c).vm.channels = 0 := not_not.mp h0
    rw [h0, blockAt_zero] at h
    refine ⟨h, s.memory, ?_, .refl _⟩
    rw [updateVm_of_eq]
    rw [← h0]

/-- The record of the VM is not looked at any more. -/
theorem Exited.updateCpu (h : Exited pool V maps B c s s') {f : CpuInfo → CpuInfo}
    (hf : ∀ i, (f i).vm.holdings = i.vm.holdings) :
    Exited pool V maps B c s (s'.updateCpu c f) := by
  have hhold : ∀ d, ((s'.updateCpu c f).cpus d).vm.holdings = (s'.cpus d).vm.holdings := by
    intro d
    by_cases hd : d = c
    · subst hd
      exact (congrArg (fun i : CpuInfo => i.vm.holdings) (Function.update_self _ _ _)).trans (hf _)
    · exact congrArg (fun i : CpuInfo => i.vm.holdings) (Function.update_of_ne hd _ _)
  have hpages : ∀ d, ((s'.updateCpu c f).cpus d).vm.fds = (s'.cpus d).vm.fds ∧
      ((s'.updateCpu c f).cpus d).vm.channels = (s'.cpus d).vm.channels := by
    intro d
    have hd := hhold d
    simp only [VmProc.holdings, Prod.mk.injEq] at hd
    exact hd.2.2.2
  refine ⟨h.books.update (fun d _ => hhold d) (fun d => (hpages d).2) rfl rfl rfl rfl,
    fun d hd => ?_, ?_, h.fdTable, h.opened, h.closed, h.writes, h.live, h.layout, h.failed⟩
  · rw [← h.other d hd]
    exact Function.update_of_ne hd _ _
  · rw [(hpages c).1, (hpages c).2]
    exact h.self

/-- Messages do not matter. -/
theorem Exited.post (h : Exited pool V maps B c s s') (m : Post) :
    Exited pool V maps B c s (s'.post m) :=
  ⟨h.books.post m, h.other, h.self, h.fdTable, h.opened, h.closed, h.writes, h.live,
    h.layout, h.failed⟩

/-- `local_exit` -/
theorem localExit_books (status : ℤ) (h : Books pool V maps 0 0 s) (hc : c ∈ V)
    (hidle : ∀ d ∉ V, (s.cpus d).vm.fds = 0 ∧ (s.cpus d).vm.channels = 0)
    (hV : ∀ d ∈ V, d < s.ncpus) (hncpus : s.ncpus ≤ maxCpus) (hB' : B ≤ maxChannels + 1)
    (hB : ∀ a ∈ closedChannels (s.descriptors c) (List.range maxFd), CloseRoom B s a)
    (hempty : s.channelsOf c = [])
    (hP : P → FdsOpen s (s.descriptors c) ∧ (s.cpus c).vm.parent ≤ maxCpus) :
    wp (localExit c status) (fun _ s' => Exited pool V maps B c s s') (Halts P) s := by
  have hmem : ∀ d, (s.cpus d).vm.channels ≠ 0 → d ∈ V := by
    intro d hne
    by_contra hnot
    exact hne (hidle d hnot).2
  have hlt := hV c hc
  unfold localExit
  rw [show getCpuInfo c = some c from if_neg (by omega)]
  dsimp only
  refine (exitFree_spec h hc hmem).bind ?_
  rintro - s₁ ⟨h₁, m₁, rfl, hlay₁⟩
  rw [wp_bind, wp_get]
  dsimp only
  unfold getCpuInfo
  by_cases hpar : (s.cpus c).vm.parent > maxCpus
  · rw [if_pos hpar]
    exact ⟨nofun, Or.inr fun hp => absurd (hP hp).2 (by omega)⟩
  rw [if_neg hpar]
  dsimp only
  have hc' : c ∉ V.erase c := Finset.notMem_erase c V
  have hidle' : ∀ d, d ≠ c → (s.cpus d).vm.channels ≠ 0 → d ∈ V.erase c := fun d hd hne =>
    Finset.mem_erase.mpr ⟨hd, hmem d hne⟩
  refine (exitFds_spec (P := P) (B := B) (s := { s with memory := m₁ }) h₁ hc' hidle'
    ⟨hncpus, fun d hne => hV d (hmem d hne)⟩ hB' hB
    fun hp => ⟨(hP hp).1.nodup, (hP hp).1.opened⟩).bind ?_
  rintro - s₂ ⟨h₂, t, m₂, hclosed, rfl, hlay₂⟩
  have hcpus : t.cpus = s.cpus := hclosed.step.cpus
  set s₂ : PmState := { t.updateVm c (fun v => { v with fds := 0 }) with memory := m₂ } with hs₂
  have hch : ∀ d, (s₂.cpus d).vm.channels = (s.cpus d).vm.channels := by
    intro d
    rw [← hcpus]
    exact updateVm_vm (g := fun v => { v with fds := 0 }) c d t VmProc.channels fun _ => rfl
  have hempty₂ : s₂.channelsOf c = [] :=
    List.sublist_nil.mp (hempty ▸ hclosed.channelsOf c)
  refine (exitChannels_spec (s := s₂) (by rw [hch]; exact h₂) hc'
    (fun d hd hne => hidle' d hd (by rwa [hch] at hne)) hempty₂).bind ?_
  rintro - s₃ ⟨h₃, m₃, rfl, hlay₃⟩
  set s₃ : PmState :=
    { s₂.updateVm c (fun v => { v with channels := 0 }) with memory := m₃ } with hs₃
  have hexit : Exited pool V maps B c s s₃ := by
    refine ⟨h₃, fun d hd => ?_, ?_, fun a n ha => ?_, hclosed.opened,
      ⟨hclosed.nodup, hclosed.subset⟩, hclosed.step.writes, ?_,
      hlay₁.trans (hclosed.step.layout.trans (hlay₂.trans hlay₃)), hclosed.step.failed⟩
    · rw [← hcpus]
      exact (Function.update_of_ne hd _ _).trans (Function.update_of_ne hd _ _)
    · have h₂ : (s₂.cpus c).vm.fds = 0 :=
        congrArg (fun i => i.vm.fds) (updateVm_cpus t c fun v => { v with fds := 0 })
      have h₃ : (s₃.cpus c).vm = { (s₂.cpus c).vm with channels := 0 } :=
        congrArg CpuInfo.vm (updateVm_cpus s₂ c fun v => { v with channels := 0 })
      rw [h₃]
      exact ⟨h₂, rfl⟩
    · refine hclosed.step.fdTable a n (Multiset.mem_filter.mpr
        ⟨Multiset.mem_add.mpr (Or.inl ha), ?_⟩)
      exact h.account.page_ne hc ha
    · exact hclosed.step.live
  rw [wp_bind, wp_get]
  refine wp_ite.mpr ⟨fun _ => ?_, fun _ => ?_⟩
  · rw [wp_bind, wp_modify, wp_modify]
    exact (hexit.updateCpu (f := fun i => { i with hasVm := false }) fun _ => rfl).post _
  · rw [wp_modify]
    exact hexit.updateCpu (f := fun i => { i with vm := { i.vm with exitStatus := status } })
      fun _ => rfl

end Exit

end Savannah
