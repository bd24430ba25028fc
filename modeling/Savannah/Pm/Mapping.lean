import Savannah.Pm.Tables
import Savannah.Pm.Record

/-!
# The tables that `ept_pmap` builds

`ept_pmap` makes new guest page tables and new nested tables for a VM.  The nested tables realize a
list of regions (`eptRegions`): the guest page tables, the pages of the CPU and of its messages, the
sections, the pages of descriptors and channels, and windows to devices.
-/

namespace Savannah

open Foundation PmState

/-! ### The regions -/

/-- The page of descriptors and the pages that the descriptors refer to. -/
def PmState.fdPages (s : PmState) (fds : ℕ) : List ℕ :=
  if fds = 0 then [] else
    fds :: ((List.range maxFd).map fun i => (s.fdTable fds i).offset).filter (· ≠ 0)

/-- The page of channels. -/
def channelPages (channels : ℕ) : List ℕ := if channels = 0 then [] else [channels]

/-- The pages of a VM for its descriptors and its channels. -/
def PmState.extraPages (s : PmState) (vm : VmProc) : List ℕ :=
  s.fdPages vm.fds ++ channelPages vm.channels

/-- The address of the record of a CPU. -/
def PmState.infoAddr (s : PmState) (c : ℕ) : ℕ := s.cpuinfoBase + c * size4KB

/-- The regions of the nested tables of the CPU `c`, with the guest page tables `ts`. -/
def PmState.eptRegions (s : PmState) (c : ℕ) (ts : List ℕ) : List Region :=
  [screenRegion, deviceRegion] ++ vmRegions (s.infoAddr c) (s.cpus c) (s.cpus c).vm.access ts ++
    (s.extraPages (s.cpus c).vm).map (fun p => identityRegion p (eptRead ||| eptWrite)) ++
    [windowRegion]

/-! ### The calls -/

section Spec

variable {s s₀ : PmState} {pool limit c : ℕ} {X S : Multiset (ℕ × ℕ)} {N : Multiset ℕ} {C : Shape}
  {E : PmStop → PmState → Prop}

theorem holdsTables_refl (h : Ledger s.memory pool X S) : HoldsTables pool X S s s 0 :=
  ⟨by rwa [pageBlocks_zero, Multiset.zero_add], .refl _, rfl, fun _ _ _ => rfl,
    fun _ _ _ => rfl, rfl⟩

/-- Building tables does not change the records. -/
theorem HoldsTables.cpus (h : HoldsTables pool X S s₀ s N) : s.cpus = s₀.cpus :=
  congrArg Control.cpus h.control

/-- Assigning fields of a VM record does not touch the tables. -/
theorem HoldsTables.updateVm (h : HoldsTables pool X S s₀ s N) (c : ℕ) (f : VmProc → VmProc) :
    HoldsTables pool X S (s₀.updateVm c f) (s.updateVm c f) N := by
  refine ⟨h.ledger, h.layout, ?_, h.words, h.fdTable, h.noFail⟩
  have hc := h.control
  have hcpus := h.cpus
  simp only [PmState.control, PmState.updateVm, updateCpu, Control.mk.injEq] at hc ⊢
  rw [hcpus]
  exact ⟨rfl, hc.2⟩

/-- The tables of PM are pages of its pool. -/
theorem HoldsTables.isPage (h : HoldsTables pool X S s₀ s N)
    (hlim : s.memory.firstFreeAddr + pool * 4096 ≤ limit) {t : ℕ} (ht : t ∈ N) :
    t ≠ 0 ∧ IsPage limit t := by
  have hmem : (t, 1) ∈ pageBlocks N + X + S :=
    Multiset.mem_add.mpr (Or.inl (Multiset.mem_add.mpr (Or.inl (mem_pageBlocks.mpr ⟨ht, rfl⟩))))
  obtain ⟨-, -, hpos, hal, hend, hlt⟩ := h.ledger.addr hmem
  exact ⟨by omega, hal, by omega⟩

/-- The guest page tables.  On a machine with 1GB pages the second region is not aligned, and PM
panics. -/
theorem mapGuest_spec (hled : Ledger s.memory pool X S)
    (hE : ∀ s, s.allocFailed = true → E (.panic (.map .allocFailed)) s)
    (hgb : s.has1GB = true → ∀ q s', E (mapStop q) s') :
    wp mapGuest (fun r s' => GuestTree s'.words r ∧
      HoldsTables pool X S s s' (treeTables s'.words size2MB r) ∧
      treeTables s'.words size2MB r = ↑(nextPages 6 s.memory) ∧ s.has1GB = false) E s := by
  have hlaw : pmTables.Lawful (fun t N => HoldsTables pool X S s t N ∧ TakesNext s.memory t N) E :=
    pmTables_takesNext s.memory hE
  have hown : HoldsTables pool X S s s 0 ∧ TakesNext s.memory s 0 :=
    ⟨holdsTables_refl hled, 0, rfl, rfl, rfl⟩
  change wp (get >>= fun s => guestTables pmTables mapStop (if s.has1GB then size1GB else size2MB))
    _ E s
  rw [wp_bind, wp_get]
  by_cases h1 : s.has1GB = true
  · rw [if_pos h1]
    exact guestTables_1GB hlaw hown fun s' => hgb h1 _ s'
  · rw [if_neg h1]
    refine (guestTables_spec hlaw hown).mono ?_ fun _ _ h => h
    rintro r s' ⟨hguest, hown', -, -⟩
    rw [add_zero] at hown'
    obtain ⟨hold, n, hN, hlen, -⟩ := hown'
    -- there are six of them
    have hsix : n = 6 := by
      rw [← hlen, ← Multiset.coe_card, ← hN, hguest.tables_eq]
      rfl
    exact ⟨hguest, hold, hN.trans (by rw [hsix]), Bool.eq_false_iff.mpr h1⟩

/-- A page that is not aligned is not mapped. -/
theorem eptIdentity_unaligned {ept page mtype prot : ℕ} (hal : page % 4096 ≠ 0)
    (hlt : page + 4096 < 2 ^ 64) :
    eptIdentity ept page mtype prot = throw (mapStop (.panic .notAligned)) := by
  have hstop : (page + size4KB) % 2 ^ 64 = page + 4096 := Nat.mod_eq_of_lt hlt
  unfold eptIdentity eptUpdate eptMapMemory mapRegion
  rw [hstop, if_neg (by omega), if_neg (by omega), if_neg (by simp), if_pos hal]
  rfl

/-- A machine state and a record for which `ept_pmap` can be called: the record can be mapped below
`limit`, where the pages of the allocator are as well; a page of descriptors is held by `X`. -/
structure PmState.Ready (s : PmState) (pool limit : ℕ) (X S : Multiset (ℕ × ℕ)) (c : ℕ) :
    Prop where
  ledger : Ledger s.memory pool X S
  pool_le : s.memory.firstFreeAddr + pool * 4096 ≤ limit
  record : (s.cpus c).Mappable limit (s.infoAddr c)
  fds : (s.cpus c).vm.fds ≠ 0 → ((s.cpus c).vm.fds, 1) ∈ X
  offsets : (s.cpus c).vm.fds ≠ 0 →
    ∀ i < maxFd, (s.fdTable (s.cpus c).vm.fds i).offset + 4096 ≤ limit
  channels : (s.cpus c).vm.channels ≠ 0 → IsPage limit (s.cpus c).vm.channels

/-- `ept_pmap` panics because of an alignment: of the second guest region on a machine with 1GB
pages, or of the offset in a descriptor. -/
def PmState.Unaligned (s : PmState) (c : ℕ) : Prop :=
  s.has1GB = true ∨ ∃ p ∈ s.fdPages (s.cpus c).vm.fds, p % 4096 ≠ 0

section Fds

variable {ept fds : ℕ} {R : Multiset ℕ} {ops : List PmapOp} {m₀ : Tables}

/-- The loop over the descriptors.  The offsets are looked up in the state, which keeps the page. -/
theorem eptMapFds_loop (hlaw : pmTables.Lawful (HoldsTables pool X S s₀) E)
    (hC : Reaches C limit) (hX : (fds, 1) ∈ X) (l : List ℕ)
    (hoff : ∀ i ∈ l, (s₀.fdTable fds i).offset + 4096 ≤ limit)
    (hbad : ∀ i ∈ l, (s₀.fdTable fds i).offset % 4096 ≠ 0 → ∀ q s', E (mapStop q) s')
    (hnull : ¬ NullTables .ept size4KB ops)
    (h : Nested pmTables (HoldsTables pool X S s₀) .ept C size4KB ept R ops m₀ s) :
    wp (l.forM fun i => do
        let offset := ((← get).fdTable fds i).offset
        if offset ≠ 0 then
          eptIdentity ept offset mtypeWb (eptRead ||| eptWrite))
      (fun _ s' => Nested pmTables (HoldsTables pool X S s₀) .ept C size4KB ept R
        (ops ++ (((l.map fun i => (s₀.fdTable fds i).offset).filter (· ≠ 0)).map
          fun p => identityRegion p (eptRead ||| eptWrite)).map .map) m₀ s' ∧
        ∀ i ∈ l, (s₀.fdTable fds i).offset % 4096 = 0) E s := by
  induction l generalizing ops s with
  | nil => simpa using h
  | cons i l ih =>
    obtain ⟨hoffi, hoff⟩ := List.forall_mem_cons.mp hoff
    obtain ⟨hbadi, hbad⟩ := List.forall_mem_cons.mp hbad
    change wp ((get >>= fun st : PmState => if (st.fdTable fds i).offset ≠ 0 then _ else _) >>=
      fun _ => l.forM _) _ E s
    rw [wp_bind, wp_bind, wp_get, congrFun (h.owned.fdTable fds 1 hX) i, List.map_cons]
    simp only [List.forall_mem_cons]
    generalize hp : (s₀.fdTable fds i).offset = p at hoffi hbadi ⊢
    by_cases h0 : p = 0
    · rw [if_neg (not_not.mpr h0), List.filter_cons_of_neg (by simpa using h0), wp_pure]
      exact (ih hoff hbad hnull h).mono (fun _ _ h => ⟨h.1, by rw [h0], h.2⟩) fun _ _ h => h
    rw [if_pos h0, List.filter_cons_of_pos (by simpa using h0)]
    by_cases hal : p % 4096 = 0
    · obtain ⟨hv, hc, hw⟩ := (show IsPage limit p from ⟨hal, hoffi⟩).region hC
        (eptRead ||| eptWrite) (by decide) (by decide)
      refine (h.map hlaw (Or.inl rfl) hv hc hw hnull).mono (fun _ s₁ h₁ => ?_) fun _ _ h => h
      have hnull₁ : ¬ NullTables .ept size4KB
          (ops ++ [identityRegion p (eptRead ||| eptWrite)].map .map) :=
          fun hn => hnull hn.of_append
      refine (ih hoff hbad hnull₁ h₁).mono (fun _ s₂ h₂ => ⟨?_, hal, h₂.2⟩) fun _ _ h => h
      have hrest := h₂.1
      rwa [List.append_assoc, ← List.map_append] at hrest
    · have hle := hC.le
      rw [eptIdentity_unaligned hal (by omega), wp_throw]
      exact hbadi hal _ _

/-- The pages of the descriptors. -/
theorem eptMapFds_spec (hlaw : pmTables.Lawful (HoldsTables pool X S s₀) E)
    (hC : Reaches C limit)
    (hfds : fds ≠ 0 → (fds, 1) ∈ X ∧ IsPage limit fds)
    (hoff : fds ≠ 0 → ∀ i < maxFd, (s₀.fdTable fds i).offset + 4096 ≤ limit)
    (hbad : (∃ p ∈ s₀.fdPages fds, p % 4096 ≠ 0) → ∀ q s', E (mapStop q) s')
    (hnull : ¬ NullTables .ept size4KB ops)
    (h : Nested pmTables (HoldsTables pool X S s₀) .ept C size4KB ept R ops m₀ s) :
    wp (eptMapFds ept fds) (fun _ s' =>
      Nested pmTables (HoldsTables pool X S s₀) .ept C size4KB ept R
        (ops ++ ((s₀.fdPages fds).map fun p => identityRegion p (eptRead ||| eptWrite)).map .map)
        m₀ s' ∧ ∀ p ∈ s₀.fdPages fds, p % 4096 = 0) E s := by
  unfold eptMapFds PmState.fdPages at *
  by_cases h0 : fds = 0
  · rw [if_neg (by omega), if_pos h0]
    simpa using h
  obtain ⟨hX, hpage⟩ := hfds h0
  rw [if_pos (Nat.pos_of_ne_zero h0), if_neg h0] at *
  obtain ⟨hv, hc, hw⟩ := hpage.region hC (eptRead ||| eptWrite) (by decide) (by decide)
  refine (h.map hlaw (Or.inl rfl) hv hc hw hnull).bind fun _ s₁ h₁ => ?_
  have hnull₁ : ¬ NullTables .ept size4KB
      (ops ++ [identityRegion fds (eptRead ||| eptWrite)].map .map) := fun hn => hnull hn.of_append
  have hloop := eptMapFds_loop hlaw hC hX (List.range maxFd)
    (fun i hi => hoff h0 i (List.mem_range.mp hi)) (fun i hi hal => ?_) hnull₁ h₁
  · refine hloop.mono (fun _ s' ⟨h', hal⟩ => ⟨?_, ?_⟩) fun _ _ h => h
    · rwa [List.append_assoc, ← List.map_append] at h'
    · refine List.forall_mem_cons.mpr ⟨hpage.1, fun p hp => ?_⟩
      obtain ⟨i, hi, rfl⟩ := List.mem_map.mp (List.mem_filter.mp hp).1
      exact hal i hi
  · refine hbad
      ⟨_, List.mem_cons_of_mem _ (List.mem_filter.mpr ⟨List.mem_map.mpr ⟨i, hi, rfl⟩, ?_⟩), hal⟩
    simp only [ne_eq, decide_not, Bool.not_eq_eq_eq_not, Bool.not_true, decide_eq_false_iff_not]
    intro h0
    exact hal (by rw [h0])

end Fds

/-- What `ept_pmap` builds for the CPU `c`: guest page tables at `r` and nested tables at `e`, on
top of the blocks held before. -/
structure Built (pool : ℕ) (X S : Multiset (ℕ × ℕ)) (C : Shape) (c : ℕ) (s : PmState) (r e : ℕ)
    (s' : PmState) : Prop where
  guest : GuestTree s'.words r
  tree : IsTree 7 C s'.words size4KB e
  realizes : Realizes .ept s'.words size4KB e ((s.eptRegions c (guestList s'.words r)).map .map)
  holds : HoldsTables pool X S (s.updateVm c fun vm => { vm with pageTables := r, ept := e }) s'
    (treeTables s'.words size4KB e + treeTables s'.words size2MB r)
  next : treeTables s'.words size2MB r = ↑(nextPages 6 s.memory)

/-- The record of the CPU while its tables are built. -/
theorem updateVm_cpus (s : PmState) (c : ℕ) (f : VmProc → VmProc) :
    (s.updateVm c f).cpus c = { s.cpus c with vm := f (s.cpus c).vm } := Function.update_self _ _ _

theorem updateVm_updateVm (s : PmState) (c : ℕ) (f g : VmProc → VmProc) :
    (s.updateVm c f).updateVm c g = s.updateVm c (g ∘ f) := by
  simp only [PmState.updateVm, updateCpu, Function.update_self, Function.update_idem]
  rfl

/-- The access to a section is never empty. -/
theorem access_prot {vm : VmProc} : ∀ a ∈ vm.access, a.1 ∈ vm.sections ∧ 0 < a.2 ∧ a.2 < 8 := by
  intro a ha
  simp only [VmProc.access, List.mem_cons, List.not_mem_nil, or_false] at ha
  rcases ha with rfl | rfl | rfl | rfl | rfl <;> dsimp only <;>
    exact ⟨by simp [VmProc.sections], by decide, by decide⟩

section Rest

variable {ept : ℕ} {R : Multiset ℕ} {ops : List PmapOp} {m₀ : Tables}

/-- The calls after those for the record: descriptors, channels, and the window to the devices. -/
theorem eptRest_spec (vm : VmProc) (hlaw : pmTables.Lawful (HoldsTables pool X S s₀) E)
    (hC : Reaches C limit)
    (hfds : vm.fds ≠ 0 → (vm.fds, 1) ∈ X ∧ IsPage limit vm.fds)
    (hoff : vm.fds ≠ 0 → ∀ i < maxFd, (s₀.fdTable vm.fds i).offset + 4096 ≤ limit)
    (hbad : (∃ p ∈ s₀.fdPages vm.fds, p % 4096 ≠ 0) → ∀ q s', E (mapStop q) s')
    (hchannels : vm.channels ≠ 0 → IsPage limit vm.channels)
    (hnull : ¬ NullTables .ept size4KB ops)
    (h : Nested pmTables (HoldsTables pool X S s₀) .ept C size4KB ept R ops m₀ s) :
    wp (do
        eptMapFds ept vm.fds
        if vm.channels > 0 then
          eptIdentity ept vm.channels mtypeWb (eptRead ||| eptWrite)
        eptUpdate ept 0xC0000000 0xC6000000 0xC0000000 mtypeUc (eptRead ||| eptWrite))
      (fun _ s' => Nested pmTables (HoldsTables pool X S s₀) .ept C size4KB ept R
        (ops ++ ((s₀.extraPages vm).map (fun p => identityRegion p (eptRead ||| eptWrite)) ++
          [windowRegion]).map .map) m₀ s' ∧ ∀ p ∈ s₀.fdPages vm.fds, p % 4096 = 0) E s := by
  have hsize : IsPageSize size4KB := Or.inl rfl
  have hwindow := fixedRegion_fits hC windowRegion (by simp)
  refine (eptMapFds_spec hlaw hC hfds hoff hbad hnull h).bind fun _ s₁ ⟨n₁, hal⟩ => ?_
  by_cases h0 : vm.channels = 0
  · simp only [if_neg (show ¬ vm.channels > 0 by omega)]
    refine (n₁.map_snoc hlaw hsize hwindow hnull).mono (fun _ s₂ n₂ => ⟨?_, hal⟩) fun _ _ h => h
    simpa [PmState.extraPages, channelPages, h0] using n₂
  · simp only [if_pos (show vm.channels > 0 by omega)]
    have hpage := (hchannels h0).region hC (eptRead ||| eptWrite) (by decide) (by decide)
    refine (n₁.map_snoc hlaw hsize hpage hnull).bind fun _ s₂ n₂ => ?_
    refine (n₂.map_snoc hlaw hsize hwindow hnull).mono (fun _ s₃ n₃ => ⟨?_, hal⟩) fun _ _ h => h
    simpa [PmState.extraPages, channelPages, h0] using n₃

end Rest

/-- What `ept_pmap` does from a state for which it can be called; it does not return where something
is not aligned. -/
theorem eptPmap_spec (h : s.Ready pool limit X S c) (hC : Reaches C limit)
    (hE : ∀ s, s.allocFailed = true → E (.panic (.map .allocFailed)) s)
    (hbad : s.Unaligned c → ∀ q s', E (mapStop q) s') :
    wp (eptPmap c) (fun _ s' => ¬ s.Unaligned c ∧ ∃ r e, Built pool X S C c s r e s') E s := by
  have hsize : IsPageSize size4KB := Or.inl rfl
  have hscreen := fixedRegion_fits hC screenRegion (by simp)
  have hdevice := fixedRegion_fits hC deviceRegion (by simp)
  unfold eptPmap
  refine (mapGuest_spec h.ledger hE fun hgb => hbad (Or.inl hgb)).bind ?_
  rintro r s₁ ⟨hguest, hold₁, hnext, hgb⟩
  rw [wp_bind, wp_modify]
  have hold₂ := hold₁.updateVm c fun vm => { vm with pageTables := r }
  have hm₁ : (s₁.updateVm c fun vm => { vm with pageTables := r }).words = s₁.words := rfl
  generalize s₁.updateVm c (fun vm => { vm with pageTables := r }) = s₂ at hold₂ hm₁ ⊢
  refine (nested_new (pmTables_lawful hE) hsize hscreen.1 hscreen.2.1 hscreen.2.2 hold₂).bind
    fun e s₃ n₃ => ?_
  rw [wp_bind, wp_modify]
  have hold₃ := n₃.owned.updateVm c fun vm => { vm with ept := e }
  rw [updateVm_updateVm] at hold₃
  have hread : pmTables.read (s₃.updateVm c fun vm => { vm with ept := e }) = pmTables.read s₃ :=
    rfl
  have n₄ := n₃.transfer hread hold₃
  generalize s₃.updateVm c (fun vm => { vm with ept := e }) = s₄ at n₄ ⊢
  clear hold₃ n₃
  -- from here on the record does not change
  set f : VmProc → VmProc := (fun vm => { vm with ept := e }) ∘
    fun vm => { vm with pageTables := r } with hf
  have hlaw : pmTables.Lawful (HoldsTables pool X S (s.updateVm c f)) E := pmTables_lawful hE
  have hnull : ¬ NullTables .ept size4KB [.map screenRegion] := fun hn =>
    absurd (hn 0xB8000 (by norm_num)) (by decide)
  refine (n₄.map hlaw hsize hdevice.1 hdevice.2.1 hdevice.2.2 hnull).bind fun _ s₅ n₅ => ?_
  rw [wp_bind, wp_get]
  have hinfo : s₅.cpus c = { s.cpus c with vm := f (s.cpus c).vm } := by
    rw [n₅.owned.cpus]
    exact updateVm_cpus s c f
  have hbase : s₅.cpuinfoBase = s.cpuinfoBase := congrArg Control.cpuinfoBase n₅.owned.control
  rw [hinfo, hbase]
  have hR : ∀ t ∈ guestList (pmTables.read s₂) r, t ∈ treeTables s₁.words size2MB r ∧ t ≠ 0 ∧
      IsPage limit t := fun t ht => by
    have hmem : t ∈ treeTables s₁.words size2MB r := by
      rw [hguest.tables_eq]
      exact Multiset.mem_coe.mpr (hm₁ ▸ ht)
    exact ⟨hmem, hold₁.isPage (by rw [hold₁.layout.firstFree]; exact h.pool_le) hmem⟩
  have hnull₅ : ¬ NullTables .ept size4KB ([.map screenRegion] ++ [deviceRegion].map .map) :=
    fun hn => hnull hn.of_append
  have hfds : (s.cpus c).vm.fds ≠ 0 → ((s.cpus c).vm.fds, 1) ∈ X ∧ IsPage limit (s.cpus c).vm.fds :=
    fun h0 => by
      have haddr := h.ledger.addr (Multiset.mem_add.mpr (Or.inl (h.fds h0)))
      have hpool := h.pool_le
      exact ⟨h.fds h0, haddr.2.2.2.1, by omega⟩
  refine record_spec mapStop (s.infoAddr c) { s.cpus c with vm := f (s.cpus c).vm }
    (f (s.cpus c).vm).access hlaw hC
    (show GuestTree s₂.words r by rwa [hm₁]) hR ⟨h.record.pages, h.record.sections⟩ access_prot
    hnull₅ n₅ fun s₆ n₆ => ?_
  refine (eptRest_spec (f (s.cpus c).vm) hlaw hC hfds h.offsets (fun hp => hbad (Or.inr hp))
    h.channels (fun hn => hnull₅ hn.of_append) n₆).mono ?_ fun _ _ h => h
  rintro - s' ⟨n, hal⟩
  have hread : ∀ t ∈ treeTables s₁.words size2MB r, s'.words t = s₁.words t := fun t ht => by
    rw [← hm₁]
    exact n.keeps t ht
  obtain ⟨hguest', hlist⟩ := hguest.congr hread
  refine ⟨?_, r, e, hguest', n.tree, ?_, ?_, by rw [treeTables_congr hread, hnext]⟩
  · rintro (h1 | ⟨p, hp, hne⟩)
    · rw [hgb] at h1
      cases h1
    · exact hne (hal p hp)
  · refine (congrArg (Realizes .ept s'.words size4KB e) ?_).mpr n.realizes
    rw [hlist, ← hm₁]
    simp only [PmState.eptRegions, List.map_append, List.append_assoc]
    rfl
  · rw [treeTables_congr hread]
    exact n.owned

end Spec

end Savannah
