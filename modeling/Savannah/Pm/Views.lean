import Savannah.Pm.Conservation
import Savannah.Pm.Regions

/-!
# What a VM sees

The nested tables of a VM are built once, when the VM is forked or loads a program, and after that
`local_channel` only adds pages to them.  So in every run of PM and FS in order a VM sees devices,
the pages of its CPU, its sections, its guest page tables, and besides these only pages that PM has
given to it since it was forked (`confined_of_run`).  A channel is seen by the VM that has opened it
(`channels_mapped_of_run`).
-/

namespace Savannah

open Foundation PmState MemoryState

/-! ### The pages given to a VM -/

/-- What the nested tables of the VM `c` say of an address. -/
def PmState.nested (s : PmState) (c v : ℕ) : Option Translation :=
  walk .ept s.words (s.cpus c).vm.ept v

/-- The pages that PM gives to the VM `c` for its devices: the page of descriptors or channels, what
the descriptors refer to, and the channels that `c` is an end of. -/
def PmState.grants (s : PmState) (c : ℕ) : Set ℕ :=
  {p | (p ≠ 0 ∧ (p = (s.cpus c).vm.fds ∨ p = (s.cpus c).vm.channels ∨
      ∃ i < maxFd, (s.descriptors c i).offset = p)) ∨
    ∃ o ∈ s.openChannels, (o.end1 = c ∨ o.end2 = c) ∧ o.addr = p}

/-- The pages of the channels `os` that `c` is an end of. -/
def channelAddrs (os : List OpenChannel) (c : ℕ) : List ℕ :=
  os.flatMap fun o => (if o.end1 = c then [o.addr] else []) ++ if o.end2 = c then [o.addr] else []

theorem channelRegions_eq (os : List OpenChannel) (c : ℕ) :
    channelRegions os c = (channelAddrs os c).map channelRegion := by
  unfold channelRegions channelAddrs
  rw [List.map_flatMap]
  congr 1
  funext o
  rw [List.map_append]
  split <;> split <;> rfl

theorem mem_channelAddrs {os : List OpenChannel} {c p : ℕ} : p ∈ channelAddrs os c ↔
    ∃ o ∈ os, (o.end1 = c ∨ o.end2 = c) ∧ o.addr = p := by
  unfold channelAddrs
  simp only [List.mem_flatMap, List.mem_append, List.mem_ite_nil_right, List.mem_singleton]
  constructor
  · rintro ⟨o, ho, ⟨hend, rfl⟩ | ⟨hend, rfl⟩⟩
    · exact ⟨o, ho, Or.inl hend, rfl⟩
    · exact ⟨o, ho, Or.inr hend, rfl⟩
  · rintro ⟨o, ho, hend | hend, rfl⟩
    · exact ⟨o, ho, Or.inl ⟨hend, rfl⟩⟩
    · exact ⟨o, ho, Or.inr ⟨hend, rfl⟩⟩

/-- The view of `c` is the one that `ept_pmap` builds, followed by channels; the pages in it have
the property `P`. -/
def View.Shows (x : View) (s : PmState) (c : ℕ) (P : ℕ → Prop) : Prop :=
  ∃ ps qs, x.regions = (s.viewOf c x.guest ps).regions ++ qs.map channelRegion ∧
    ∀ p ∈ ps ++ qs, P p

section Shows

variable {pool B c v : ℕ} {maps : ℕ → View} {s t : PmState} {x y : View} {L : Set ℕ}
  {P Q : ℕ → Prop}

/-- A VM sees its regions. -/
theorem PmState.Accounted.nested_eq (h : s.Accounted pool B maps) (hc : c ∈ s.live)
    (hv : v < 2 ^ 48) : s.nested c v = nestedMap (maps c).regions v := by
  have hmapped := h.books.account.mapped c hc
  have htree : IsTree (TableKind.tableFlags .ept) nestedShape s.words size4KB (s.cpus c).vm.ept :=
    hmapped.tree
  refine hmapped.realizes.walk (Or.inl rfl) htree (fun a ha => ?_) hv
  have hmem : (a, 1) ∈ pageBlocks (s.tables s.live) :=
    mem_pageBlocks.mpr ⟨mem_tables hc (Multiset.mem_add.mpr (Or.inl ha)), rfl⟩
  obtain ⟨-, hne, -, hend⟩ := h.books.account.addr
    (Multiset.mem_add.mpr (Or.inl (Multiset.mem_add.mpr (Or.inl hmem))))
  exact ⟨hne, by omega⟩

theorem pageList_grants {p : ℕ} (hp : p ∈ (s.cpus c).vm.pageList) : p ∈ s.grants c := by
  unfold VmProc.pageList channelPages at hp
  simp only [List.mem_append, List.mem_ite_nil_left, List.mem_singleton] at hp
  rcases hp with ⟨hne, rfl⟩ | ⟨hne, rfl⟩
  · exact Or.inl ⟨hne, Or.inl rfl⟩
  · exact Or.inl ⟨hne, Or.inr (Or.inl rfl)⟩

theorem extraPages_grants {p : ℕ} (hp : p ∈ s.extraPages (s.cpus c).vm) : p ∈ s.grants c := by
  unfold PmState.extraPages PmState.fdPages channelPages at hp
  simp only [List.mem_append, List.mem_ite_nil_left, List.mem_cons, List.not_mem_nil, or_false,
    List.mem_filter, List.mem_map, List.mem_range, decide_eq_true_eq] at hp
  rcases hp with ⟨hne, rfl | ⟨⟨i, hi, rfl⟩, h0⟩⟩ | ⟨hne, rfl⟩
  · exact Or.inl ⟨hne, Or.inl rfl⟩
  · refine Or.inl ⟨h0, Or.inr (Or.inr ⟨i, hi, ?_⟩)⟩
    rw [PmState.descriptors, if_neg hne]
  · exact Or.inl ⟨hne, Or.inr (Or.inl rfl)⟩

/-- A page in a table of descriptors, as `ept_pmap` finds it. -/
theorem mem_extraPages {i : ℕ} (hi : i < maxFd) (hne : (s.descriptors c i).offset ≠ 0) :
    (s.descriptors c i).offset ∈ s.extraPages (s.cpus c).vm := by
  have hfds : (s.cpus c).vm.fds ≠ 0 := by
    intro h0
    rw [PmState.descriptors, if_pos h0] at hne
    exact hne rfl
  rw [PmState.descriptors, if_neg hfds] at hne ⊢
  refine List.mem_append_left _ ?_
  rw [PmState.fdPages, if_neg hfds]
  refine List.mem_cons_of_mem _ (List.mem_filter.mpr ⟨?_, decide_eq_true hne⟩)
  exact List.mem_map.mpr ⟨i, List.mem_range.mpr hi, rfl⟩

/-- The pages of a CPU belong to the machine. -/
theorem ownPages_of_machine (h : t.machine = s.machine) (c : ℕ) :
    (t.cpus c).ownPages (t.infoAddr c) = (s.cpus c).ownPages (s.infoAddr c) := by
  have hbase : t.cpuinfoBase = s.cpuinfoBase := congrArg Machine.cpuinfoBase h
  have hcpu : (t.cpus c).bare = (s.cpus c).bare := congrFun (congrArg Machine.cpus h) c
  have hbare : ∀ i : CpuInfo, i.bare.ownPages = i.ownPages := fun _ => rfl
  unfold PmState.infoAddr
  rw [← hbare, ← hbare (s.cpus c), hcpu, hbase]

/-- A step adds to a view only pages that are given to the VM. -/
theorem ViewStep.shows (h : ViewStep L s t c x y) (hmach : t.machine = s.machine)
    (hx : c ∈ s.live → x.Shows s c P) (hPQ : c ∈ s.live → ∀ p, P p → Q p)
    (hgrants : ∀ p ∈ t.grants c, Q p) : y.Shows t c Q := by
  have hopen : ∀ {os : List OpenChannel}, (∀ o ∈ os, o ∈ t.openChannels) →
      ∀ p ∈ channelAddrs os c, Q p := by
    intro os hos p hp
    obtain ⟨o, ho, hend, rfl⟩ := mem_channelAddrs.mp hp
    exact hgrants _ (Or.inr ⟨o, hos o ho, hend, rfl⟩)
  cases h with
  | kept os hc hhold hos hold heq =>
    obtain ⟨ps, qs, hregions, hall⟩ := hx hc
    have hsec : (t.cpus c).vm.sections = (s.cpus c).vm.sections := congrArg Prod.fst hhold
    refine ⟨ps, qs ++ channelAddrs os c, ?_, fun p hp => ?_⟩
    · rw [heq]
      dsimp only
      rw [hregions, viewOf_congr (ownPages_of_machine hmach c) hsec, channelRegions_eq,
        List.map_append, List.append_assoc]
    · rw [← List.append_assoc, List.mem_append] at hp
      rcases hp with hp | hp
      · exact hPQ hc p (hall p hp)
      · exact hopen hos p hp
  | forked ts os hos hold hc heq =>
    refine ⟨(t.cpus c).vm.pageList, channelAddrs os c, ?_, fun p hp => ?_⟩
    · rw [heq]
      dsimp only
      rw [channelRegions_eq]
    · rcases List.mem_append.mp hp with hp | hp
      · exact hgrants p (pageList_grants hp)
      · exact hopen hos p hp
  | loaded ts heq hc hold hL =>
    refine ⟨t.extraPages (t.cpus c).vm, [], ?_, fun p hp => ?_⟩
    · rw [heq, List.map_nil, List.append_nil]
      rfl
    · rw [List.append_nil] at hp
      exact hgrants p (extraPages_grants hp)

end Shows

/-! ### What a view shows -/

/-- The screen and the windows to devices. -/
def InDevice (v : ℕ) : Prop :=
  (0xB8000 ≤ v ∧ v < 0xB9000) ∨ InWindow v ∨ (0xFEC00000 ≤ v ∧ v < 0x100000000)

/-- The VM `c` has the address `v` for a reason: devices, the pages of its CPU, one of its sections,
its guest page tables, or a page with the property `P`. -/
inductive Sees (s : PmState) (c : ℕ) (P : ℕ → Prop) (v : ℕ) (y : Translation) : Prop
  | device (hv : InDevice v) (hy : y = ⟨v, eptRead ||| eptWrite, mtypeUc⟩)
  | cpu (p : ℕ × ℕ) (hp : p ∈ (s.cpus c).ownPages (s.infoAddr c)) (hv : InPage p.1 v)
      (hy : y = ⟨v, p.2, mtypeWb⟩)
  | segment (a : VmSection × ℕ) (ha : a ∈ (s.cpus c).vm.access) (hpos : 0 < a.1.size)
      (hv : a.1.HasPage v) (hy : y = ⟨a.1.paddr + (v - a.1.vaddr), a.2, mtypeWb⟩)
  | table (p : ℕ) (hp : p ∈ guestList s.words (s.cpus c).vm.pageTables) (hv : InPage p v)
      (hy : y = ⟨v, eptRead ||| eptWrite, mtypeWb⟩)
  | page (p : ℕ) (hp : P p) (hv : InPage p v) (haddr : y.addr = v)
      (hprot : y.prot = eptRead ||| eptWrite)

section Sees

variable {pool c v : ℕ} {maps : ℕ → View} {gs : List Region} {s : PmState} {x : View}
  {y : Translation} {P : ℕ → Prop}

/-- Some region decides about an address that is mapped. -/
theorem nestedMap_some (h : nestedMap gs v = some y) :
    ∃ g ∈ gs, g.Covers size4KB v ∧ y = ⟨g.paddr + (v - g.start), g.prot, g.mtype⟩ := by
  unfold nestedMap translationOf at h
  obtain ⟨op, hfind, hop⟩ := Option.bind_eq_some_iff.mp h
  obtain ⟨g, hg, rfl⟩ := List.mem_map.mp (List.mem_reverse.mp (List.mem_of_find?_eq_some hfind))
  have hcov := List.find?_some hfind
  exact ⟨g, hg, of_decide_eq_true hcov, (Option.some.inj hop).symm⟩

/-- A channel is a page. -/
theorem channelRegion_covers {p : ℕ} (hp : p + 4096 ≤ 2 ^ 48) :
    (channelRegion p).Covers size4KB v ↔ InPage p v :=
  show (identityRegion p 0).Covers size4KB v ↔ _ from identityRegion_covers hp

/-- The record of a live VM can be mapped. -/
theorem DeviceInv.mappable (h : DeviceInv pool maps s) (hc : c ∈ s.live) :
    (s.cpus c).Mappable (2 ^ 48) (s.infoAddr c) := by
  refine ⟨fun p hp => ?_, fun sec hsec hpos => ?_⟩
  · obtain ⟨hal, hend⟩ := h.machine.isPage (h.accounted.live c hc).2.1 p hp
    exact ⟨hal, by omega⟩
  · obtain ⟨hal, hend⟩ := (h.accounted.books.account.mapped c hc).placed sec hsec hpos
    have hpaddr : sec.paddr % 4096 = 0 ∧ sec.paddr + sec.size ≤ 2 ^ 33 := by
      by_cases h0 : sec.paddr = 0
      · rw [h0]
        omega
      obtain ⟨-, -, -, hal', hend', -⟩ := h.accounted.ledger.addr (section_recorded hc hsec h0)
      have hpool := h.accounted.books.account.pool_le
      have hspec := pages_spec sec.size (show 0 < 4096 by norm_num)
      rw [show size4KB = 4096 from rfl] at hend'
      exact ⟨hal', by omega⟩
    exact ⟨hal, hpaddr.1, by omega, by omega, by omega⟩

/-- Pages that are given to a VM lie below 4GB. -/
theorem DeviceInv.grants_le {p : ℕ} (h : DeviceInv pool maps s) (hc : c ∈ s.live)
    (hp : p ∈ s.grants c) : p + 4096 ≤ 2 ^ 32 := by
  have haccount := h.accounted.books.account
  have hblock : ∀ q, (q, 1) ∈ s.own s.live + s.channelBlocks → q + 4096 ≤ 2 ^ 32 := by
    intro q hq
    obtain ⟨-, -, -, hend⟩ := haccount.addr (a := q) (n := 1) (by
      simp only [Multiset.mem_add, add_zero] at hq ⊢
      exact Or.inl (Or.inr hq))
    omega
  have hown : ∀ q, (q, 1) ∈ (s.cpus c).vm.ownPages → (q, 1) ∈ s.own s.live + s.channelBlocks := by
    intro q hq
    rw [own_eq hc]
    exact Multiset.mem_add.mpr (Or.inl (Multiset.mem_add.mpr (Or.inl (Multiset.mem_add.mpr
      (Or.inr hq)))))
  rcases hp with ⟨hne, rfl | rfl | ⟨i, hi, rfl⟩⟩ | ⟨o, ho, -, rfl⟩
  · exact hblock _ (hown _ (Multiset.mem_add.mpr (Or.inl (mem_blockAt hne))))
  · exact hblock _ (hown _ (Multiset.mem_add.mpr (Or.inr (mem_blockAt hne))))
  · exact h.accounted.offsets c hc i hi
  · refine hblock _ (Multiset.mem_add.mpr (Or.inr (mem_pageBlocks.mpr ⟨?_, rfl⟩)))
    exact Multiset.mem_coe.mpr (List.mem_map_of_mem ho)

/-- Every address that a view shows has a reason. -/
theorem View.Shows.sees (hx : x.Shows s c P) (hinfo : (s.cpus c).Mappable (2 ^ 48) (s.infoAddr c))
    (hguest : guestList s.words (s.cpus c).vm.pageTables = x.guest)
    (hts : ∀ p ∈ x.guest, p + 4096 ≤ 2 ^ 48) (hps : ∀ p, P p → p + 4096 ≤ 2 ^ 48)
    (hy : nestedMap x.regions v = some y) : Sees s c P v y := by
  obtain ⟨ps, qs, hregions, hall⟩ := hx
  rw [hregions] at hy
  obtain ⟨g, hg, hcov, rfl⟩ := nestedMap_some hy
  have hself : ∀ {p : ℕ}, InPage p v → p + (v - p) = v := fun hv => Nat.add_sub_cancel' hv.1
  rcases List.mem_append.mp hg with hg | hg
  swap
  · obtain ⟨p, hp, rfl⟩ := List.mem_map.mp hg
    have hP := hall p (List.mem_append_right _ hp)
    have hv := (channelRegion_covers (hps p hP)).mp hcov
    exact .page p hP hv (hself hv) rfl
  unfold PmState.viewOf vmRegions at hg
  simp only [List.mem_append, List.mem_map, List.mem_cons, List.not_mem_nil, or_false] at hg
  rcases hg with ((((rfl | rfl) | ⟨p, hp, rfl⟩ | hg) | ⟨p, hp, rfl⟩) | rfl)
  · have hv : 0xB8000 ≤ v ∧ v < 0xB9000 := hcov
    refine .device (Or.inl hv) ?_
    rw [show screenRegion.paddr + (v - screenRegion.start) = v from Nat.add_sub_cancel' hv.1]
    rfl
  · have hv : 0xFEC00000 ≤ v ∧ v < 0x100000000 := hcov
    refine .device (Or.inr (Or.inr hv)) ?_
    rw [show deviceRegion.paddr + (v - deviceRegion.start) = v from Nat.add_sub_cancel' hv.1]
    rfl
  · have hv := (identityRegion_covers (hts p hp)).mp hcov
    refine .table p (by rw [hguest]; exact hp) hv ?_
    rw [show (identityRegion p (eptRead ||| eptWrite)).paddr +
      (v - (identityRegion p (eptRead ||| eptWrite)).start) = v from hself hv]
    rfl
  · unfold recordRegions at hg
    rcases List.mem_append.mp hg with hg | hg
    · obtain ⟨p, hp, rfl⟩ := List.mem_map.mp hg
      have hv := (identityRegion_covers (hinfo.pages p hp).2).mp hcov
      refine .cpu p hp hv ?_
      rw [show (identityRegion p.1 p.2).paddr + (v - (identityRegion p.1 p.2).start) =
        v from hself hv]
      rfl
    · obtain ⟨a, ha, rfl⟩ := List.mem_map.mp hg
      obtain ⟨ha, hpos⟩ := List.mem_filter.mp ha
      have hpos' : 0 < a.1.size := of_decide_eq_true hpos
      have hmap := hinfo.sections a.1 (access_prot a ha).1 hpos'
      exact .segment a ha hpos' ((sectionRegion_covers hmap).mp hcov) rfl
  · have hP := hall p (List.mem_append_left _ hp)
    have hv := (identityRegion_covers (hps p hP)).mp hcov
    exact .page p hP hv (hself hv) rfl
  · have hv := windowRegion_covers.mp ⟨_, List.mem_singleton_self _, hcov⟩
    refine .device (Or.inr (Or.inl hv)) ?_
    rw [show windowRegion.paddr + (v - windowRegion.start) = v from Nat.add_sub_cancel' hv.1]
    rfl

/-- The tables of a live VM are pages. -/
theorem DeviceInv.table_addr (h : DeviceInv pool maps s) (hc : c ∈ s.live) {p : ℕ}
    (hp : p ∈ (s.cpus c).vm.tables s.words) : p ≠ 0 ∧ p + 4096 ≤ 2 ^ 32 := by
  obtain ⟨-, hne, -, hend⟩ := h.accounted.books.account.addr (a := p) (n := 1)
    (Multiset.mem_add.mpr (Or.inl (Multiset.mem_add.mpr (Or.inl
      (mem_pageBlocks.mpr ⟨mem_tables hc hp, rfl⟩)))))
  exact ⟨hne, by omega⟩

/-- So are the guest page tables in its view. -/
theorem DeviceInv.guest_addr (h : DeviceInv pool maps s) (hc : c ∈ s.live) {p : ℕ}
    (hp : p ∈ (maps c).guest) : p + 4096 ≤ 2 ^ 32 := by
  have hmapped := h.accounted.books.account.mapped c hc
  refine (h.table_addr hc (Multiset.mem_add.mpr (Or.inr ?_))).2
  rw [hmapped.guest.tables_eq, hmapped.list]
  exact Multiset.mem_coe.mpr hp

/-- Every address that a live VM sees has a reason. -/
theorem DeviceInv.sees (h : DeviceInv pool maps s) (hc : c ∈ s.live) (hx : (maps c).Shows s c P)
    (hps : ∀ p, P p → p + 4096 ≤ 2 ^ 32) (hy : nestedMap (maps c).regions v = some y) :
    Sees s c P v y := by
  have hmapped := h.accounted.books.account.mapped c hc
  refine hx.sees (h.mappable hc) hmapped.list (fun p hp => ?_) (fun p hp => ?_) hy
  · have := h.guest_addr hc hp
    omega
  · have := hps p hp
    omega

end Sees

/-! ### The pages of channels -/

/-- The view shows the page at its own address, for reading and writing. -/
def View.Has (x : View) (p : ℕ) : Prop :=
  ∀ v, InPage p v → ∃ k, nestedMap x.regions v = some ⟨v, eptRead ||| eptWrite, k⟩

section Channels

variable {pool c p v : ℕ} {maps maps' : ℕ → View} {files : List Fs.FileHeader}
  {evs evs' : List DeviceEvent} {s₀ s t : PmState} {e : DeviceEvent} {x y : View} {L : Set ℕ}
  {os : List OpenChannel}

theorem nestedMap_channels {qs : List ℕ} (hqs : ∀ q ∈ qs, q + 4096 ≤ 2 ^ 48)
    (h : ∃ q ∈ qs, InPage q v) :
    nestedMap (qs.map channelRegion) v = some ⟨v, eptRead ||| eptWrite, mtypeWt⟩ := by
  obtain ⟨q, hq, hqv⟩ := h
  refine nestedMap_eq ⟨_, List.mem_map_of_mem hq, (channelRegion_covers (hqs q hq)).mpr hqv⟩ ?_
  intro g hg hcov
  obtain ⟨q', hq', rfl⟩ := List.mem_map.mp hg
  have hlo := ((channelRegion_covers (hqs q' hq')).mp hcov).1
  rw [show (channelRegion q').paddr + (v - (channelRegion q').start) =
    v from Nat.add_sub_cancel' hlo]
  rfl

/-- Adding channels hides no page; the pages of the channels are shown. -/
theorem View.has_append (hos : ∀ o ∈ os, o.addr + 4096 ≤ 2 ^ 48) (ts : List ℕ)
    (h : x.Has p ∨ ∃ o ∈ os, (o.end1 = c ∨ o.end2 = c) ∧ o.addr = p) :
    View.Has ⟨x.regions ++ channelRegions os c, ts⟩ p := by
  have hqs : ∀ q ∈ channelAddrs os c, q + 4096 ≤ 2 ^ 48 := by
    intro q hq
    obtain ⟨o, ho, -, rfl⟩ := mem_channelAddrs.mp hq
    exact hos o ho
  intro v hv
  dsimp only
  rw [channelRegions_eq]
  by_cases hcov : ∃ q ∈ channelAddrs os c, InPage q v
  · have hregion : Covered ((channelAddrs os c).map channelRegion) v := by
      obtain ⟨q, hq, hqv⟩ := hcov
      exact ⟨_, List.mem_map_of_mem hq, (channelRegion_covers (hqs q hq)).mpr hqv⟩
    rw [nestedMap_append_of_covered hregion]
    exact ⟨_, nestedMap_channels hqs hcov⟩
  · rw [nestedMap_append_of_not]
    · rcases h with h | hmem
      · exact h v hv
      · exact absurd ⟨p, mem_channelAddrs.mpr hmem, hv⟩ hcov
    · rintro ⟨g, hg, hgv⟩
      obtain ⟨q, hq, rfl⟩ := List.mem_map.mp hg
      exact hcov ⟨q, hq, (channelRegion_covers (hqs q hq)).mp hgv⟩

/-- The pages of descriptors and channels that `ept_pmap` maps are shown. -/
theorem viewOf_has {ps : List ℕ} (hps : ∀ q ∈ ps, q + 4096 ≤ 2 ^ 48) (hp : p ∈ ps) (ts : List ℕ) :
    (s.viewOf c ts ps).Has p := by
  intro v hv
  by_cases hw : InWindow v
  · exact ⟨_, nestedMap_window hw⟩
  · change ∃ k, nestedMap ([screenRegion, deviceRegion] ++ vmRegions (s.infoAddr c) (s.cpus c)
      (s.cpus c).vm.access ts ++ pageRegions ps ++ [windowRegion]) v = _
    rw [nestedMap_append_of_not fun hc => hw (windowRegion_covers.mp hc),
      nestedMap_append_of_covered ((covered_pages hps).mpr ⟨p, hp, hv⟩)]
    exact ⟨_, nestedMap_pages hps ⟨p, hp, hv⟩⟩

theorem DeviceInv.channel_le (h : DeviceInv pool maps s) {o : OpenChannel}
    (ho : o ∈ s.openChannels) : o.addr + 4096 ≤ 2 ^ 48 := by
  have hle := h.grants_le (h.entries.owner o ho).1 (Or.inr ⟨o, ho, Or.inl rfl, rfl⟩)
  omega

/-- A channel stays in view from one state to the next, and a new one comes into view. -/
theorem ViewStep.has_channel {o : OpenChannel} (h : ViewStep L s t o.end1 x y)
    (hs : DeviceInv pool maps s) (ht : DeviceInv pool maps' t)
    (hx : o ∈ s.openChannels → x.Has o.addr) (ho : o ∈ t.openChannels) : y.Has o.addr := by
  have hall : ∀ {os : List OpenChannel}, (∀ o ∈ os, o ∈ t.openChannels) →
      ∀ o ∈ os, o.addr + 4096 ≤ 2 ^ 48 := fun hos o ho => ht.channel_le (hos o ho)
  cases h with
  | kept os hc hhold hos hold heq =>
    rw [heq]
    refine View.has_append (hall hos) _ ((hold o ho).imp hx fun hmem => ?_)
    exact ⟨o, hmem, Or.inl rfl, rfl⟩
  | forked ts os hos hold hc heq =>
    rw [heq]
    refine View.has_append (hall hos) _ (Or.inr ⟨o, ?_, Or.inl rfl, rfl⟩)
    -- a VM that does not live has no channel
    exact (hold o ho).resolve_left fun hmem => hc (hs.entries.owner o hmem).1
  | loaded ts heq hc hold hL =>
    rw [heq]
    obtain ⟨hlive, i, hi, -, hoff⟩ := ht.entries.owner o ho
    have hne := ht.accounted.books.account.channel_ne (List.mem_map_of_mem ho)
    rw [← hoff] at hne ⊢
    refine viewOf_has (fun q hq => ?_) (mem_extraPages hi hne) ts
    have := ht.grants_le hlive (extraPages_grants hq)
    omega

/-- The invariant, with the channels in view. -/
theorem PmState.Fresh.channels (hfresh : s₀.Fresh pool) (hfiles : RegularFiles files)
    (hrun : Run (orderedStep files) s₀ evs s) : ∃ maps, DeviceInv pool maps s ∧
      ∀ o ∈ s.openChannels, (maps o.end1).Has o.addr := by
  refine hrun.invariant (I := fun s => ∃ maps, DeviceInv pool maps s ∧
    ∀ o ∈ s.openChannels, (maps o.end1).Has o.addr) ?_ ?_
  · rintro s e t hstep ⟨maps, hinv, hhas⟩
    obtain ⟨maps', hinv', hviews, -⟩ := hinv.step hfiles hstep.1 hstep.2
    exact ⟨maps', hinv', fun o ho => (hviews.views _ (hinv'.entries.owner o ho).1).has_channel
      hinv hinv' (hhas o) ho⟩
  · refine ⟨_, hfresh.deviceInv fun _ => ⟨[], []⟩, fun o ho => ?_⟩
    rw [hfresh.opened] at ho
    exact absurd ho List.not_mem_nil

/-- A page of the view is seen. -/
theorem DeviceInv.nested_has (h : DeviceInv pool maps s) (hc : c ∈ s.live) (hx : (maps c).Has p)
    (hp : p + 4096 ≤ 2 ^ 48) (hv : InPage p v) :
    ∃ k, s.nested c v = some ⟨v, eptRead ||| eptWrite, k⟩ := by
  rw [h.accounted.nested_eq hc (hv.2.trans_le hp)]
  exact hx v hv

/-- In every run the VM that has opened a channel sees its page, at its own address, for reading and
writing: also after it has loaded a program, and for channels that it has got by a fork. -/
theorem channels_mapped_of_run (hfresh : s₀.Fresh pool) (hfiles : RegularFiles files)
    (hrun : Run (orderedStep files) s₀ evs s) {o : OpenChannel} (ho : o ∈ s.openChannels)
    (hv : InPage o.addr v) : ∃ k, s.nested o.end1 v = some ⟨v, eptRead ||| eptWrite, k⟩ := by
  obtain ⟨maps, hinv, hhas⟩ := hfresh.channels hfiles hrun
  exact hinv.nested_has (hinv.entries.owner o ho).1 (hhas o ho) (hinv.channel_le ho) hv

theorem channels_mapped_of_run_stdin : ∃ (m : MemoryState) (s : PmState),
    Run (orderedStep []) (bootPm m) stdinEvents s ∧
    ∃ k, s.nested 6 (s.descriptors 6 0).offset =
      some ⟨(s.descriptors 6 0).offset, eptRead ||| eptWrite, k⟩ := by
  obtain ⟨m, s, hfresh, hrun, h6, htype, -⟩ := bootPm_stdin
  obtain ⟨maps, hinv⟩ := hfresh.run regularFiles_nil hrun
  have hopen := (hinv.entries.opened 6 h6 0 (by decide) htype).1
  exact ⟨m, s, hrun, channels_mapped_of_run hfresh regularFiles_nil hrun hopen
    ⟨le_rfl, Nat.lt_add_of_pos_right (by norm_num)⟩⟩

end Channels

/-! ### What no run changes -/

/-- A descriptor of a file refers to the file, and a free one to nothing. -/
def FileEntries (files : List Fs.FileHeader) (s : PmState) : Prop :=
  ∀ c ∈ s.live, ∀ i < maxFd, (s.descriptors c i).type ≠ typeChar →
    (s.descriptors c i).offset = 0 ∨ ∃ h ∈ files, (s.descriptors c i).offset = h.offset

section Settled

variable {pool c : ℕ} {files : List Fs.FileHeader} {evs : List DeviceEvent} {s₀ s t : PmState}
  {e : DeviceEvent}

/-- Every step keeps the descriptors of files. -/
theorem FileEntries.effect (h : FileEntries files s)
    (hidle : ∀ d ∉ s.live, (s.cpus d).vm.fds = 0) (heff : DeviceEffect files s t e) :
    FileEntries files t := by
  have hstored : ∀ {d fd : ℕ} {f : FileDescriptor}, Stored d fd f s t →
      (f.type ≠ typeChar → f.offset = 0 ∨ ∃ h ∈ files, f.offset = h.offset) →
      FileEntries files t := by
    intro d fd f hst hf c hc i hi
    rw [hst.live] at hc
    by_cases hcd : c = d
    · subst hcd
      rw [hst.self i hi]
      split
      · exact hf
      · exact h c hc i hi
    · rw [hst.other c hc hcd]
      exact h c hc i hi
  cases heff with
  | quiet hq =>
    intro c hc
    rw [hq.live] at hc
    rw [hq.descriptors c hc]
    exact h c hc
  | @spawned parent args child hsp =>
    obtain ⟨addr, -, -, htable⟩ := hsp.copied
    intro c hc i hi
    rw [hsp.live, Finset.mem_insert] at hc
    rcases hc with rfl | hc
    · rw [htable i hi]
      split
      · exact fun _ => Or.inl rfl
      · split
        · rename_i hchar
          exact fun hnot => absurd hchar hnot
        · by_cases hparent : parent ∈ s.live
          · exact h parent hparent i hi
          · rw [PmState.descriptors, if_pos (hidle parent hparent)]
            exact fun _ => Or.inl rfl
    · rw [hsp.descriptors c hc]
      exact h c hc i hi
  | departed hd hdep =>
    intro c hc
    rw [hdep.live] at hc
    rw [hdep.descriptors c hc]
    exact h c (Finset.mem_of_mem_erase hc)
  | entered fd a hfree hopened hst => exact hstored hst fun hnot => absurd rfl hnot
  | filed fd header hmem hname hfree hopened hst =>
    exact hstored hst fun _ => Or.inr ⟨header, hmem, rfl⟩
  | cleared fd hopened hunused hst => exact hstored hst fun _ => Or.inl rfl

/-- In a run the machine and the pool stay where they are, and descriptors refer to files. -/
theorem PmState.Fresh.settled (hfresh : s₀.Fresh pool) (hfiles : RegularFiles files)
    (hrun : Run (orderedStep files) s₀ evs s) :
    s.machine = s₀.machine ∧ SameLayout s₀.memory s.memory ∧ FileEntries files s := by
  have hinv : ∃ maps, DeviceInv pool maps s ∧ s.machine = s₀.machine ∧
      SameLayout s₀.memory s.memory ∧ FileEntries files s := by
    refine hrun.invariant (I := fun s => ∃ maps, DeviceInv pool maps s ∧ s.machine = s₀.machine ∧
      SameLayout s₀.memory s.memory ∧ FileEntries files s) ?_ ?_
    · rintro s e t hstep ⟨maps, hinv, hmach, hlay, hfile⟩
      obtain ⟨maps', hinv', hviews, heff⟩ := hinv.step hfiles hstep.1 hstep.2
      exact ⟨maps', hinv', (deviceStep_sound hinv.procs hstep.2).1.trans hmach,
        hlay.trans hviews.layout, hfile.effect (fun d hd => (hinv.accounted.idle d hd).1) heff⟩
    · refine ⟨_, hfresh.deviceInv fun _ => ⟨[], []⟩, rfl, .refl _, fun c hc => ?_⟩
      rw [hfresh.live] at hc
      exact absurd hc (Finset.notMem_empty c)
  exact hinv.choose_spec.2

end Settled

/-! ### Confinement -/

/-- In a state of the run the page `p` was given to the VM `c`, which has lived since. -/
def GivenSince (files : List Fs.FileHeader) (s₀ : PmState) (evs : List DeviceEvent) (s : PmState)
    (c p : ℕ) : Prop :=
  ∃ evs₁ evs₂ s₁, evs = evs₁ ++ evs₂ ∧ Run (orderedStep files) s₀ evs₁ s₁ ∧
    Run (fun s e t => orderedStep files s e t ∧ c ∈ t.live) s₁ evs₂ s ∧ c ∈ s₁.live ∧
    p ∈ s₁.grants c

section Confined

variable {pool c v : ℕ} {maps : ℕ → View} {files : List Fs.FileHeader} {evs : List DeviceEvent}
  {s₀ s t : PmState} {e : DeviceEvent}

/-- What was given to a VM is given to it as long as it lives. -/
theorem GivenSince.snoc {p : ℕ} (h : GivenSince files s₀ evs s c p)
    (hstep : orderedStep files s e t)
    (hc : c ∈ t.live) : GivenSince files s₀ (evs ++ [e]) t c p := by
  obtain ⟨evs₁, evs₂, s₁, rfl, hfirst, hlast, hlive, hp⟩ := h
  exact ⟨evs₁, evs₂ ++ [e], s₁, List.append_assoc _ _ _, hfirst, hlast.snoc ⟨hstep, hc⟩, hlive, hp⟩

/-- The invariant, with the views of all VMs. -/
theorem PmState.Fresh.views (hfresh : s₀.Fresh pool) (hfiles : RegularFiles files)
    (hrun : Run (orderedStep files) s₀ evs s) : ∃ maps, DeviceInv pool maps s ∧
      ∀ c ∈ s.live, (maps c).Shows s c (GivenSince files s₀ evs s c) := by
  refine hrun.history (I := fun evs s => ∃ maps, DeviceInv pool maps s ∧
    ∀ c ∈ s.live, (maps c).Shows s c (GivenSince files s₀ evs s c)) ?_ ?_
  · refine ⟨_, hfresh.deviceInv fun _ => ⟨[], []⟩, fun c hc => ?_⟩
    rw [hfresh.live] at hc
    exact absurd hc (Finset.notMem_empty c)
  · rintro ds u e w hdone hstep ⟨maps, hinv, hshows⟩
    obtain ⟨maps', hinv', hviews, -⟩ := hinv.step hfiles hstep.1 hstep.2
    refine ⟨maps', hinv', fun c hc => ?_⟩
    refine (hviews.views c hc).shows (deviceStep_sound hinv.procs hstep.2).1 (hshows c)
      (fun _ p hp => hp.snoc hstep hc) fun p hp => ?_
    exact ⟨ds ++ [e], [], w, (List.append_nil _).symm, hdone.snoc hstep, .nil w, hc, hp⟩

/-- In every run a VM sees devices, the pages of its CPU, its sections with their access, its guest
page tables, and pages that were given to it since it was forked; it sees nothing else. -/
theorem confined_of_run (hfresh : s₀.Fresh pool) (hfiles : RegularFiles files)
    (hrun : Run (orderedStep files) s₀ evs s) (hc : c ∈ s.live) (hv : v < 2 ^ 48) {y : Translation}
    (hy : s.nested c v = some y) : Sees s c (GivenSince files s₀ evs s c) v y := by
  obtain ⟨maps, hinv, hshows⟩ := hfresh.views hfiles hrun
  rw [hinv.accounted.nested_eq hc hv] at hy
  refine hinv.sees hc (hshows c hc) (fun p hp => ?_) hy
  obtain ⟨evs₁, evs₂, s₁, -, hfirst, -, hlive, hgrant⟩ := hp
  obtain ⟨maps₁, hinv₁⟩ := hfresh.run hfiles hfirst
  exact hinv₁.grants_le hlive hgrant

/-- A page of the keyboard's channel, seen by the VM that has opened it. -/
theorem confined_of_run_stdin : ∃ (m : MemoryState) (s : PmState) (y : Translation),
    s.nested 6 (s.descriptors 6 0).offset = some y ∧
    Sees s 6 (GivenSince [] (bootPm m) stdinEvents s 6) (s.descriptors 6 0).offset y := by
  obtain ⟨m, s, hfresh, hrun, h6, htype, -⟩ := bootPm_stdin
  obtain ⟨maps, hinv, hhas⟩ := hfresh.channels regularFiles_nil hrun
  have hopen := (hinv.entries.opened 6 h6 0 (by decide) htype).1
  have hle := hinv.channel_le hopen
  have hself : InPage (s.descriptors 6 0).offset (s.descriptors 6 0).offset :=
    ⟨le_rfl, Nat.lt_add_of_pos_right (by norm_num)⟩
  obtain ⟨k, hy⟩ := hinv.nested_has h6 (hhas _ hopen) hle hself
  exact ⟨m, s, _, hy, confined_of_run hfresh regularFiles_nil hrun h6 (hself.2.trans_le hle) hy⟩

end Confined

/-! ### What stays in view -/

section Stale

variable {pool c p v : ℕ} {maps : ℕ → View} {files : List Fs.FileHeader}
  {evs evs' : List DeviceEvent} {s₀ s t : PmState} {e : DeviceEvent}

end Stale

end Savannah
