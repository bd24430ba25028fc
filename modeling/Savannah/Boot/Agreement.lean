import Savannah.Boot.Builder
import Savannah.Pm.Regions
import Savannah.Pm.Supply

/-!
# The two builders of nested tables

`ept_map_memory_other` of the boot loader and `ept_pmap` of PM each build the tables of a VM from
its record.  They are meant to agree on what the record asks for: on the sections, on the `struct
cpu_info` page and the pages of messages, and each on its own guest page tables.

They do not.  The boot loader lets a VM read and execute its data section where PM lets it read and
write it.  The other differences are in the regions that follow those of the record: the boot loader
ends with the window to the interrupt controllers, PM with the pages of descriptors and channels and
with another window.  The comparison (`agree_iff`) is about lists of regions, of which the last one
that covers an address decides.
-/

namespace Savannah

open Foundation

/-! ### The regions of the boot loader -/

/-- The window to the interrupt controllers that the boot loader maps last. -/
def InApic (v : ℕ) : Prop := 0xFEE00000 ≤ v ∧ v < 0x100000000

section Boot

variable {info : CpuInfo} {addr v : ℕ} {ts : List ℕ} {gs : List Region}

theorem apicRegion_covers : Covered [apicRegion] v ↔ InApic v := by
  simp only [Covered, List.mem_singleton, exists_eq_left]
  rfl

/-- The APIC is mapped last, uncached. -/
theorem nestedMap_apic (h : InApic v) :
    nestedMap (gs ++ [apicRegion]) v = some ⟨v, eptRead ||| eptWrite, mtypeUc⟩ := by
  rw [nestedMap_append_of_covered (apicRegion_covers.mpr h)]
  refine nestedMap_eq (apicRegion_covers.mpr h) fun g hg _ => ?_
  obtain rfl := List.mem_singleton.mp hg
  have := h.1
  simp only [apicRegion, Translation.mk.injEq, and_true]
  omega

variable (info addr) in
/-- Below the last window the boot loader maps the record, and the guest page tables elsewhere. -/
theorem boot_cases (hts : ∀ t ∈ ts, t + 4096 ≤ 2 ^ 48) (hv : ¬ InApic v) :
    (Covered (recordRegions addr info (Stage2.bootAccess info.vm)) v →
      nestedMap (Stage2.bootRegions addr info ts) v =
        nestedMap (recordRegions addr info (Stage2.bootAccess info.vm)) v) ∧
    (¬ Covered (recordRegions addr info (Stage2.bootAccess info.vm)) v → (∃ t ∈ ts, InPage t v) →
      nestedMap (Stage2.bootRegions addr info ts) v = some ⟨v, eptRead ||| eptWrite, mtypeWb⟩) := by
  have hlast : nestedMap (Stage2.bootRegions addr info ts) v = nestedMap (([screenRegion] ++
      pageRegions ts) ++ recordRegions addr info (Stage2.bootAccess info.vm)) v := by
    rw [List.append_assoc]
    exact nestedMap_append_of_not fun hc => hv (apicRegion_covers.mp hc)
  rw [hlast]
  refine ⟨fun hcov => nestedMap_append_of_covered hcov, fun hcov ht => ?_⟩
  rw [nestedMap_append_of_not hcov, nestedMap_append_of_covered ((covered_pages hts).mpr ht),
    nestedMap_pages hts ht]

end Boot

/-! ### When they agree -/

/-- Two nested maps agree on the addresses of a record, and each maps its guest page tables at their
own addresses, writable and write back. -/
structure Agree (info : CpuInfo) (addr : ℕ) (boot pm : ℕ → Option Translation) (tb tp : List ℕ) :
    Prop where
  record : ∀ v, info.HasAddr addr v → boot v = pm v
  bootTables : ∀ v, (∃ t ∈ tb, InPage t v) → boot v = some ⟨v, eptRead ||| eptWrite, mtypeWb⟩
  pmTables : ∀ v, (∃ t ∈ tp, InPage t v) → pm v = some ⟨v, eptRead ||| eptWrite, mtypeWb⟩

/-- The condition for that: there is no data section, the record stays clear of the windows, and the
pages that either builder maps besides fall on nothing of the record that they would change. -/
structure AgreeWhen (info : CpuInfo) (addr : ℕ) (extra tb tp : List ℕ) : Prop where
  data : info.vm.data.size = 0
  record : ∀ v, info.HasAddr addr v → ¬ InApic v ∧ ¬ InWindow v
  extraPages : ∀ v, info.HasAddr addr v → (∃ p ∈ extra, InPage p v) → info.Keeps addr v
  bootTables : ∀ v, (∃ t ∈ tb, InPage t v) → ¬ InApic v ∧ info.Keeps addr v
  pmTables : ∀ v, (∃ t ∈ tp, InPage t v) →
    ¬ InWindow v ∧ ((∃ p ∈ extra, InPage p v) ∨ info.Keeps addr v)

section Agreement

variable {info : CpuInfo} {addr : ℕ} {extra tb tp : List ℕ} {gs : List Region}

/-- Without a data section the two builders map the sections alike. -/
theorem sectionRegions_congr (h : info.vm.data.size = 0) :
    sectionRegions (Stage2.bootAccess info.vm) = sectionRegions info.vm.access := by
  unfold sectionRegions Stage2.bootAccess VmProc.access
  simp only [List.filter_cons, h, lt_self_iff_false, decide_false]
  rfl

variable (gs) in
/-- The builders disagree on a data section: where the boot loader makes it executable PM does not,
and where the last window of the boot loader covers it the memory type differs. -/
theorem not_agree_of_data (hinfo : info.Mappable (2 ^ 48) addr) (hapart : info.vm.Apart)
    (htb : ∀ t ∈ tb, t + 4096 ≤ 2 ^ 48) (htp : ∀ t ∈ tp, t + 4096 ≤ 2 ^ 48)
    (hextra : ∀ p ∈ extra, p + 4096 ≤ 2 ^ 48) (hdata : 0 < info.vm.data.size) :
    nestedMap (Stage2.bootRegions addr info tb) info.vm.data.vaddr ≠
      nestedMap (gs ++ vmRegions addr info info.vm.access tp ++ pageRegions extra ++ [windowRegion])
        info.vm.data.vaddr := by
  set v := info.vm.data.vaddr with hvdef
  have hdatav : info.vm.data.HasPage v := ⟨v, ⟨le_rfl, by omega⟩, rfl⟩
  obtain ⟨hcovb, hsecb⟩ := nestedMap_record_section (Stage2.bootAccess info.vm)
    (a := (info.vm.data, eptRead ||| eptExec)) rfl hinfo hapart (by simp [Stage2.bootAccess]) hdatav
  obtain ⟨hcovp, hsecp⟩ := nestedMap_record_section info.vm.access
    (a := (info.vm.data, eptRead ||| eptWrite)) rfl hinfo hapart (by simp [VmProc.access]) hdatav
  -- what PM makes of the address is writable, and write back outside its window
  have hpm : ∃ y, nestedMap (gs ++ vmRegions addr info info.vm.access tp ++ pageRegions extra ++
      [windowRegion]) v = some y ∧ y.prot = eptRead ||| eptWrite ∧
      (¬ InWindow v → y.mtype = mtypeWb) := by
    by_cases hw : InWindow v
    · exact ⟨_, nestedMap_window hw, rfl, fun h => absurd hw h⟩
    · obtain ⟨h₁, h₂, -⟩ := pm_cases info addr gs info.vm.access htp hextra hw
      by_cases he : ∃ p ∈ extra, InPage p v
      · exact ⟨_, h₁ he, rfl, fun _ => rfl⟩
      · exact ⟨_, (h₂ he hcovp).trans hsecp, rfl, fun _ => rfl⟩
  obtain ⟨y, hy, hprot, hmtype⟩ := hpm
  rw [hy]
  intro heq
  by_cases ha : InApic v
  · have hw : ¬ InWindow v := fun hw => by
      have h₁ := ha.1
      have h₂ := hw.2
      omega
    unfold Stage2.bootRegions at heq
    rw [nestedMap_apic ha] at heq
    obtain rfl := Option.some.inj heq
    exact absurd (hmtype hw) (by simp)
  · rw [(boot_cases info addr htb ha).1 hcovb, hsecb] at heq
    obtain rfl := Option.some.inj heq
    exact absurd hprot (by simp [eptRead, eptExec, eptWrite])

variable (gs) in
/-- The two builders agree exactly under the condition. -/
theorem agree_iff (hinfo : info.Mappable (2 ^ 48) addr) (hapart : info.vm.Apart)
    (htb : ∀ t ∈ tb, t + 4096 ≤ 2 ^ 48) (htp : ∀ t ∈ tp, t + 4096 ≤ 2 ^ 48)
    (hextra : ∀ p ∈ extra, p + 4096 ≤ 2 ^ 48) :
    Agree info addr (nestedMap (Stage2.bootRegions addr info tb)) (nestedMap
      (gs ++ vmRegions addr info info.vm.access tp ++ pageRegions extra ++ [windowRegion])) tb tp ↔
      AgreeWhen info addr extra tb tp := by
  rcases Nat.eq_zero_or_pos info.vm.data.size with hdata | hdata
  swap
  · refine iff_of_false (fun h => ?_) fun h => absurd h.data hdata.ne'
    refine not_agree_of_data gs hinfo hapart htb htp hextra hdata (h.record _ ?_)
    exact Or.inl ⟨_, by simp [VmProc.sections], le_rfl, by omega⟩
  have hrec : recordRegions addr info (Stage2.bootAccess info.vm) =
      recordRegions addr info info.vm.access := by
    rw [recordRegions_eq, recordRegions_eq, sectionRegions_congr hdata]
  have hboot : ∀ v, ¬ InApic v → _ := fun v hv => boot_cases info addr htb hv
  rw [hrec] at hboot
  have hpm : ∀ v, ¬ InWindow v → _ := fun v hv =>
    pm_cases info addr gs info.vm.access htp hextra hv
  have hkeeps : ∀ v, Covered (recordRegions addr info info.vm.access) v → _ := fun v hcov =>
    keeps_iff hinfo hapart hcov
  have hclear : ∀ v, ¬ Covered (recordRegions addr info info.vm.access) v → info.Keeps addr v :=
    fun v hcov => keeps_of_not_covered hinfo hcov
  have huc : ∀ {v x}, (some ⟨v, eptRead ||| eptWrite, mtypeUc⟩ : Option Translation) = some x →
      x.mtype ≠ mtypeWb := fun h => by
    obtain rfl := Option.some.inj h
    simp
  constructor
  · intro h
    -- a window makes the memory of the one builder uncached and leaves that of the other cached
    have hwindows : ∀ v, info.HasAddr addr v → ¬ InApic v ∧ ¬ InWindow v := by
      intro v hv
      have hcov := hv.covered hinfo (map_fst_access info.vm)
      obtain ⟨y, hy, hwb⟩ := nestedMap_record_mtype hcov
      have heq := h.record v hv
      constructor
      · intro ha
        have hw : ¬ InWindow v := fun hw => by
          have h₁ := ha.1
          have h₂ := hw.2
          omega
        unfold Stage2.bootRegions at heq
        rw [nestedMap_apic ha] at heq
        by_cases he : ∃ p ∈ extra, InPage p v
        · rw [(hpm v hw).1 he] at heq
          exact huc heq rfl
        · rw [(hpm v hw).2.1 he hcov, hy] at heq
          exact huc heq hwb
      · intro hw
        have ha : ¬ InApic v := fun ha => by
          have h₁ := ha.1
          have h₂ := hw.2
          omega
        rw [(hboot v ha).1 hcov, nestedMap_window hw, hy] at heq
        exact huc heq.symm hwb
    refine ⟨hdata, hwindows, fun v hv he => ?_, fun v ht => ?_, fun v ht => ?_⟩
    · have hcov := hv.covered hinfo (map_fst_access info.vm)
      obtain ⟨ha, hw⟩ := hwindows v hv
      rw [← hkeeps v hcov, ← (hboot v ha).1 hcov, h.record v hv]
      exact (hpm v hw).1 he
    · have ha : ¬ InApic v := fun ha => by
        have heq := h.bootTables v ht
        unfold Stage2.bootRegions at heq
        rw [nestedMap_apic ha] at heq
        exact huc heq rfl
      refine ⟨ha, ?_⟩
      by_cases hcov : Covered (recordRegions addr info info.vm.access) v
      · rw [← hkeeps v hcov, ← (hboot v ha).1 hcov]
        exact h.bootTables v ht
      · exact hclear v hcov
    · have hw : ¬ InWindow v := fun hw => by
        have heq := h.pmTables v ht
        rw [nestedMap_window hw] at heq
        exact huc heq rfl
      refine ⟨hw, ?_⟩
      by_cases he : ∃ p ∈ extra, InPage p v
      · exact Or.inl he
      · refine Or.inr ?_
        by_cases hcov : Covered (recordRegions addr info info.vm.access) v
        · rw [← hkeeps v hcov, ← (hpm v hw).2.1 he hcov]
          exact h.pmTables v ht
        · exact hclear v hcov
  · intro h
    refine ⟨fun v hv => ?_, fun v ht => ?_, fun v ht => ?_⟩
    · have hcov := hv.covered hinfo (map_fst_access info.vm)
      obtain ⟨ha, hw⟩ := h.record v hv
      rw [(hboot v ha).1 hcov]
      by_cases he : ∃ p ∈ extra, InPage p v
      · rw [(hpm v hw).1 he, hkeeps v hcov]
        exact h.extraPages v hv he
      · rw [(hpm v hw).2.1 he hcov]
    · obtain ⟨ha, hk⟩ := h.bootTables v ht
      by_cases hcov : Covered (recordRegions addr info info.vm.access) v
      · rw [(hboot v ha).1 hcov, hkeeps v hcov]
        exact hk
      · exact (hboot v ha).2 hcov ht
    · obtain ⟨hw, hk⟩ := h.pmTables v ht
      by_cases he : ∃ p ∈ extra, InPage p v
      · exact (hpm v hw).1 he
      · by_cases hcov : Covered (recordRegions addr info info.vm.access) v
        · rw [(hpm v hw).2.1 he hcov, hkeeps v hcov]
          exact hk.resolve_left he
        · exact (hpm v hw).2.2 he hcov ht

/-- Only addresses below 2^48 matter. -/
theorem Agree.congr {boot boot' pm pm' : ℕ → Option Translation}
    (hinfo : info.Mappable (2 ^ 48) addr) (htb : ∀ t ∈ tb, t + 4096 ≤ 2 ^ 48)
    (htp : ∀ t ∈ tp, t + 4096 ≤ 2 ^ 48) (hboot : ∀ v < 2 ^ 48, boot v = boot' v)
    (hpm : ∀ v < 2 ^ 48, pm v = pm' v) (h : Agree info addr boot pm tb tp) :
    Agree info addr boot' pm' tb tp := by
  have hlt : ∀ {v}, info.HasAddr addr v → v < 2 ^ 48 := by
    rintro v (⟨sec, hsec, hv⟩ | hv)
    · have := (hinfo.sections sec hsec hv.hasPage.size_pos).below
      exact hv.2.trans_le this
    · have hown := (nestedMap_own (v := v) hinfo).1.mpr hv
      obtain ⟨g, hg, hcov⟩ := hown
      obtain ⟨p, hp, rfl⟩ := List.mem_map.mp hg
      have hpage := (hinfo.pages p hp).2
      exact ((identityRegion_covers hpage).mp hcov).2.trans_le hpage
  have hpage : ∀ {ts : List ℕ} {v}, (∀ t ∈ ts, t + 4096 ≤ 2 ^ 48) → (∃ t ∈ ts, InPage t v) →
      v < 2 ^ 48 := by
    rintro ts v hts ⟨t, ht, hv⟩
    exact hv.2.trans_le (hts t ht)
  refine ⟨fun v hv => ?_, fun v hv => ?_, fun v hv => ?_⟩
  · rw [← hboot v (hlt hv), ← hpm v (hlt hv)]
    exact h.record v hv
  · rw [← hboot v (hpage htb hv)]
    exact h.bootTables v hv
  · rw [← hpm v (hpage htp hv)]
    exact h.pmTables v hv

/-- The condition depends only on which pages are in the lists. -/
theorem AgreeWhen.congr {tb' tp' : List ℕ} (hb : ∀ t, t ∈ tb ↔ t ∈ tb')
    (hp : ∀ t, t ∈ tp ↔ t ∈ tp') :
    AgreeWhen info addr extra tb tp ↔ AgreeWhen info addr extra tb' tp' := by
  constructor
  · intro h
    refine ⟨h.data, h.record, h.extraPages, ?_, ?_⟩
    · rintro v ⟨t, ht, hv⟩
      exact h.bootTables v ⟨t, (hb t).mpr ht, hv⟩
    · rintro v ⟨t, ht, hv⟩
      exact h.pmTables v ⟨t, (hp t).mpr ht, hv⟩
  · intro h
    refine ⟨h.data, h.record, h.extraPages, ?_, ?_⟩
    · rintro v ⟨t, ht, hv⟩
      exact h.bootTables v ⟨t, (hb t).mp ht, hv⟩
    · rintro v ⟨t, ht, hv⟩
      exact h.pmTables v ⟨t, (hp t).mp ht, hv⟩

end Agreement

/-! ### The main result -/

section Result

variable {b : Stage2.State} {s : PmState} {pool c : ℕ} {X S : Multiset (ℕ × ℕ)} {has1GB : Bool}

/-- The boot loader and PM, given the same record of a VM, build tables that agree exactly when the
record meets the condition `AgreeWhen` with the pages of descriptors and channels and with the pages
that the two allocators hand out next.  Either builder may stop instead for lack of memory, and both
on a machine with 1GB pages; PM also stops at the offset of a descriptor that is not aligned. -/
theorem builders_agree_iff (hb : b.Physical) (hsize : b.memorySize ≤ 2 ^ 48)
    (hs : s.Ready pool (2 ^ 48) X S c) (hapart : (s.cpus c).vm.Apart) :
    wp (Stage2.eptMapMemoryOther has1GB (s.infoAddr c) (s.cpus c)) (fun roots b' =>
        wp (eptPmap c) (fun _ s' =>
            Agree (s.cpus c) (s.infoAddr c) (walk .ept b'.words roots.2)
              (walk .ept s'.words (s'.cpus c).vm.ept) (guestList b'.words roots.1)
              (guestList s'.words (s'.cpus c).vm.pageTables) ↔
            AgreeWhen (s.cpus c) (s.infoAddr c) (s.extraPages (s.cpus c).vm) (b.nextPages 6)
              (nextPages 6 s.memory))
          (fun _ s' => s'.allocFailed = true ∨ s.Unaligned c) s)
      (fun stop _ => stop = .panic .notInitialized ∨ stop = .panic (.map .allocFailed) ∨
        has1GB = true) b := by
  refine (Stage2.eptMapMemoryOther_spec hb hsize hs.record (fun _ => Or.inl rfl)
    (fun _ => Or.inr (Or.inl rfl)) fun hgb _ => Or.inr (Or.inr hgb)).mono ?_ fun _ _ h => h
  rintro ⟨rb, eb⟩ b' hboot
  refine (eptPmap_spec hs reaches_all (fun _ h => Or.inl h) fun h _ _ => Or.inr h).mono ?_
    fun _ _ h => h
  rintro - s' ⟨-, rp, ep, hpm⟩
  rw [hpm.roots.1, hpm.roots.2]
  dsimp only at hboot ⊢
  have htb : ∀ t ∈ guestList b'.words rb, t + 4096 ≤ 2 ^ 48 := fun t ht => (hboot.inside t ht).2
  have hmemp : ∀ t, t ∈ guestList s'.words rp ↔ t ∈ nextPages 6 s.memory := fun t => by
    rw [← Multiset.mem_coe, ← hpm.guest.tables_eq, hpm.next, Multiset.mem_coe]
  have hmemb : ∀ t, t ∈ guestList b'.words rb ↔ t ∈ b.nextPages 6 := fun t => by
    rw [← Multiset.mem_coe, ← hboot.guest.tables_eq, hboot.next, Multiset.mem_coe]
  have htp : ∀ t ∈ guestList s'.words rp, t + 4096 ≤ 2 ^ 48 := fun t ht =>
    (hpm.guest_isPage hs.pool_le t ht).2
  have hiff := agree_iff [screenRegion, deviceRegion] hs.record hapart htb htp hs.extraPages
  rw [← AgreeWhen.congr hmemb hmemp, ← hiff]
  have hwb : ∀ v < 2 ^ 48, walk .ept b'.words eb v = _ := hboot.walk
  have hwp : ∀ v < 2 ^ 48, walk .ept s'.words ep v = _ := fun v hv => hpm.walk hs.pool_le le_rfl hv
  exact ⟨fun h => h.congr hs.record htb htp hwb hwp,
    fun h => h.congr hs.record htb htp (fun v hv => (hwb v hv).symm) fun v hv => (hwp v hv).symm⟩

end Result

/-! ### An example -/

section Example

/-- A VM with one page of code and the given data section. -/
def exampleInfo (data : VmSection) : CpuInfo where
  cpuid := 3
  hasVm := true
  vm := { (default : VmProc) with code := ⟨0x500000, 0x40000000, 4096⟩, data := data }
  msgInput := 0x200000
  msgOutput := 0x201000
  msgReady := 0x202000
  msgReadyBitmap := 0x203000

/-- A boot loader with 1GB of memory. -/
def exampleBoot : Stage2.State := ⟨⟨2 ^ 30, 0x1000000⟩, fun _ _ => 0⟩

theorem exampleInfo_mappable {data : VmSection} (hdata : 0 < data.size → data.Mappable (2 ^ 48)) :
    (exampleInfo data).Mappable (2 ^ 48) 0x103000 := by
  constructor
  · simp only [exampleInfo, CpuInfo.ownPages, List.forall_mem_cons, List.not_mem_nil, false_imp_iff,
      implies_true, and_true, IsPage]
    norm_num
  · simp only [exampleInfo, VmProc.sections, List.forall_mem_cons, List.not_mem_nil, false_imp_iff,
      implies_true, and_true]
    refine ⟨fun _ => ⟨by norm_num, by norm_num, by norm_num, by norm_num, by norm_num⟩,
      hdata, ?_, ?_, ?_⟩
    all_goals exact fun h => absurd h (lt_irrefl 0)

theorem exampleInfo_sections (data : VmSection) : (exampleInfo data).vm.sections =
    [⟨0x500000, 0x40000000, 4096⟩, data, ⟨0, 0, 0⟩, ⟨0, 0, 0⟩, ⟨0, 0, 0⟩] := rfl

theorem not_has_empty (v : ℕ) : ¬ (⟨0, 0, 0⟩ : VmSection).Has v := fun hv => by
  simp [VmSection.Has] at hv

/-- The addresses of the sections of the example. -/
theorem exampleInfo_has {data sec : VmSection} {v : ℕ} (h : sec ∈ (exampleInfo data).vm.sections)
    (hv : sec.Has v) : (0x40000000 ≤ v ∧ v < 0x40001000) ∨ data.Has v := by
  simp only [exampleInfo_sections, List.mem_cons, List.not_mem_nil, or_false] at h
  rcases h with rfl | rfl | rfl | rfl | rfl
  · exact Or.inl hv
  · exact Or.inr hv
  all_goals exact absurd hv (not_has_empty v)

/-- Its sections lie apart. -/
theorem exampleInfo_apart (data : VmSection) (h : data.size = 0 ∨ 0x40001000 ≤ data.vaddr) :
    (exampleInfo data).vm.Apart := by
  have hcode : ∀ v, (⟨0x500000, 0x40000000, 4096⟩ : VmSection).Has v → ¬ data.Has v := by
    rintro v ⟨h₁, h₂⟩ ⟨h₃, h₄⟩
    dsimp only at h₁ h₂
    omega
  rw [VmProc.Apart, exampleInfo_sections]
  simpa [not_has_empty] using hcode

/-- PM with the record of the example. -/
def examplePm (m : MemoryState) (data : VmSection) : PmState :=
  .initial m (fun _ => exampleInfo data) 4 0x100000

theorem examplePm_infoAddr (m : MemoryState) (data : VmSection) :
    (examplePm m data).infoAddr 3 = 0x103000 := by
  norm_num [examplePm, PmState.initial, PmState.infoAddr]

theorem exampleBoot_physical : exampleBoot.Physical :=
  ⟨by norm_num [exampleBoot], by norm_num [exampleBoot]⟩

/-- PM is ready for the example. -/
theorem examplePm_ready {m : MemoryState} {data : VmSection}
    (hdata : 0 < data.size → data.Mappable (2 ^ 48)) (hff : m.firstFreeAddr = 0x801000)
    (hled : Ledger m 260095 0 0) : (examplePm m data).Ready 260095 (2 ^ 48) 0 0 3 := by
  have hrecord : ((examplePm m data).cpus 3).Mappable (2 ^ 48) ((examplePm m data).infoAddr 3) := by
    rw [examplePm_infoAddr]
    exact exampleInfo_mappable hdata
  refine ⟨hled, ?_, hrecord, fun h => absurd rfl h, fun h => absurd rfl h, fun h => absurd rfl h⟩
  rw [show (examplePm m data).memory.firstFreeAddr = 0x801000 from hff]
  norm_num

theorem exampleInfo_cost {data : VmSection} (hsmall : data.size ≤ 4096) :
    ((exampleInfo data).vm.sections.map fun sec => 3 * pages sec.size size4KB).sum ≤ 6 := by
  have hpages := pages_spec data.size (show 0 < 4096 by norm_num)
  have h₀ : pages 0 size4KB = 0 := by decide
  have h₁ : pages 4096 size4KB = 1 := by decide
  simp only [exampleInfo, VmProc.sections, List.map_cons, List.map_nil, List.sum_cons, List.sum_nil,
    h₁]
  rw [show (default : VmProc).rodata.size = 0 from rfl,
    show (default : VmProc).bss.size = 0 from rfl,
    show (default : VmProc).stack.size = 0 from rfl, h₀, show size4KB = 4096 from rfl]
  omega

/-- The boot loader returns for the example. -/
theorem example_boot {data : VmSection} (hdata : 0 < data.size → data.Mappable (2 ^ 48))
    (hsmall : data.size ≤ 4096) : ∃ roots b',
      Stage2.eptMapMemoryOther false 0x103000 (exampleInfo data) exampleBoot = .ok roots b' ∧
        Stage2.Built 0x103000 (exampleInfo data) exampleBoot roots.1 roots.2 b' := by
  have hcost := exampleInfo_cost hsmall
  have hroom : exampleBoot.Room (0 + (19976 + recordCost (exampleInfo data).vm)) := by
    have hal : Stage2.align exampleBoot.firstFreeAddr 4096 = 0x1000000 := by decide
    refine ⟨exampleBoot_physical, by norm_num [exampleBoot], by norm_num [exampleBoot], ?_⟩
    rw [hal, recordCost]
    simp only [exampleBoot]
    omega
  obtain ⟨roots, b', hb', hboot, -⟩ := ((Stage2.eptMapMemoryOther_spec
      (E := fun e _ => e = .panic .notInitialized ∨ e = .panic (.map .allocFailed))
      exampleBoot_physical (by norm_num [exampleBoot]) (exampleInfo_mappable hdata)
      (fun _ => Or.inl rfl) (fun _ => Or.inr rfl) (fun h => absurd h (by decide))).and
      (Stage2.eptMapMemoryOther_funded hroom)).exists_ok
    (fun e s' h => by
      rcases h.1 with h' | h'
      · exact h.2.1 h'
      · exact h.2.2 h')
  exact ⟨roots, b', hb', hboot⟩

/-- PM returns for the example. -/
theorem example_pm {m : MemoryState} {data : VmSection}
    (hdata : 0 < data.size → data.Mappable (2 ^ 48)) (hsmall : data.size ≤ 4096)
    (hff : m.firstFreeAddr = 0x801000) (hopen : OpenEnd m 260095 0) (hled : Ledger m 260095 0 0) :
    ∃ s' r e, eptPmap 3 (examplePm m data) = .ok () s' ∧
      Built 260095 0 0 .all 3 (examplePm m data) r e s' := by
  have hcost := exampleInfo_cost hsmall
  have hunaligned : ¬ (examplePm m data).Unaligned 3 := by
    rintro (h | ⟨p, hp, -⟩)
    · cases h
    · cases hp
  have hreserve : (examplePm m data).Reserve 260095
      (0 + eptCost ((examplePm m data).cpus 3).vm) := by
    refine ⟨.of_openEnd hopen ?_, rfl⟩
    rw [show ((examplePm m data).cpus 3).vm = (exampleInfo data).vm from rfl, eptCost]
    omega
  obtain ⟨⟨⟩, s', hs', ⟨-, r, e, hbuilt⟩, -⟩ := ((eptPmap_spec
      (E := fun e _ => e = .panic (.map .allocFailed)) (examplePm_ready hdata hff hled) reaches_all
      (fun _ _ => rfl) (fun h => absurd h hunaligned)).and (eptPmap_reserve rfl hreserve)).exists_ok
    (fun e s' h => h.2.1 h.1)
  exact ⟨s', r, e, hs', hbuilt⟩

/-- Without a data section the two builders agree on the example. -/
theorem builders_agree_iff_code : ∃ m roots b' s',
    Stage2.eptMapMemoryOther false 0x103000 (exampleInfo ⟨0, 0, 0⟩) exampleBoot = .ok roots b' ∧
      eptPmap 3 (examplePm m ⟨0, 0, 0⟩) = .ok () s' ∧
      Agree (exampleInfo ⟨0, 0, 0⟩) 0x103000 (walk .ept b'.words roots.2)
        (walk .ept s'.words (s'.cpus 3).vm.ept) (guestList b'.words roots.1)
        (guestList s'.words (s'.cpus 3).vm.pageTables) := by
  obtain ⟨m, -, hff, hopen, hled⟩ := memoryInit_1GB
  have hdata : 0 < (⟨0, 0, 0⟩ : VmSection).size → (⟨0, 0, 0⟩ : VmSection).Mappable (2 ^ 48) :=
    fun h => absurd h (lt_irrefl 0)
  obtain ⟨roots, b', hb', -⟩ := example_boot hdata (Nat.zero_le _)
  obtain ⟨s', r, e, hs', -⟩ := example_pm hdata (Nat.zero_le _) hff hopen hled
  have hagree := @builders_agree_iff exampleBoot (examplePm m ⟨0, 0, 0⟩) 260095 3 0 0 false
    exampleBoot_physical (by norm_num [exampleBoot]) (examplePm_ready hdata hff hled)
    (exampleInfo_apart _ (Or.inl rfl))
  rw [examplePm_infoAddr] at hagree
  refine ⟨m, roots, b', s', hb', hs', ((hagree.ok hb').ok hs').mpr ?_⟩
  have hextra : (examplePm m ⟨0, 0, 0⟩).extraPages ((examplePm m ⟨0, 0, 0⟩).cpus 3).vm = [] := rfl
  have hpm : ∀ t ∈ nextPages 6 (examplePm m ⟨0, 0, 0⟩).memory, ∃ i < 6,
      t = 0x801000 + i * 4096 := by
    intro t ht
    rw [show (examplePm m ⟨0, 0, 0⟩).memory = m from rfl, hopen.nextPages_eq (by norm_num)] at ht
    obtain ⟨i, hi, rfl⟩ := List.mem_map.mp ht
    exact ⟨i, List.mem_range.mp hi, by rw [MemoryState.pageAddr, hff, Nat.zero_add]⟩
  have hboot : ∀ t ∈ exampleBoot.nextPages 6, ∃ i < 6, t = 0x1000000 + i * 4096 := by
    intro t ht
    obtain ⟨i, hi, rfl⟩ := List.mem_map.mp ht
    have hal : Stage2.align exampleBoot.firstFreeAddr 4096 = 0x1000000 := by decide
    exact ⟨i, List.mem_range.mp hi, congrArg (· + i * 4096) hal⟩
  -- nothing of the record lies where the tables are
  have hkeeps : ∀ v, 0x204000 ≤ v → v < 0x40000000 → (exampleInfo ⟨0, 0, 0⟩).Keeps 0x103000 v := by
    intro v hlo hhi
    refine ⟨fun a ha hav => ?_, fun hv => ?_⟩
    · have hsec : a.1 ∈ (exampleInfo ⟨0, 0, 0⟩).vm.sections :=
        List.mem_map_of_mem (f := Prod.fst) ha
      obtain ⟨u, hu, hpage⟩ := hav
      rcases exampleInfo_has hsec hu with hcode | hnone
      · omega
      · exact absurd hnone (not_has_empty u)
    · have := hv.2
      omega
  rw [hextra]
  refine ⟨rfl, fun v hv => ?_, fun v _ hv => ?_, fun v hv => ?_, fun v hv => ?_⟩
  · have hlt : v < 0x40001000 := by
      rcases hv with ⟨sec, hsec, hv⟩ | hv | ⟨p, hp, hv⟩
      · rcases exampleInfo_has hsec hv with hcode | hnone
        · exact hcode.2
        · exact absurd hnone (not_has_empty v)
      · have := hv.2
        omega
      · simp only [examplePm, PmState.initial, exampleInfo, CpuInfo.messagePages, List.mem_cons,
          List.not_mem_nil, or_false] at hp
        have := hv.2
        omega
    exact ⟨fun h => by have := h.1; omega, fun h => by have := h.1; omega⟩
  · obtain ⟨p, hp, -⟩ := hv
    cases hp
  · obtain ⟨t, ht, hv⟩ := hv
    obtain ⟨i, hi, rfl⟩ := hboot t ht
    obtain ⟨h₁, h₂⟩ := hv
    exact ⟨fun h => by have := h.1; omega, hkeeps v (by omega) (by omega)⟩
  · obtain ⟨t, ht, hv⟩ := hv
    obtain ⟨i, hi, rfl⟩ := hpm t ht
    obtain ⟨h₁, h₂⟩ := hv
    exact ⟨fun h => by have := h.1; omega, Or.inr (hkeeps v (by omega) (by omega))⟩

/-- With a data section the boot loader lets the VM execute it, PM lets it write it. -/
theorem builders_disagree_data : ∃ m roots b' s',
    (exampleInfo ⟨0x501000, 0x40001000, 4096⟩).vm.Apart ∧
    (exampleInfo ⟨0x501000, 0x40001000, 4096⟩).HasAddr 0x103000 0x40001000 ∧
    Stage2.eptMapMemoryOther false 0x103000 (exampleInfo ⟨0x501000, 0x40001000, 4096⟩) exampleBoot =
      .ok roots b' ∧
    eptPmap 3 (examplePm m ⟨0x501000, 0x40001000, 4096⟩) = .ok () s' ∧
    walk .ept b'.words roots.2 0x40001000 = some ⟨0x501000, eptRead ||| eptExec, mtypeWb⟩ ∧
    walk .ept s'.words (s'.cpus 3).vm.ept 0x40001000 =
      some ⟨0x501000, eptRead ||| eptWrite, mtypeWb⟩ := by
  obtain ⟨m, -, hff, hopen, hled⟩ := memoryInit_1GB
  set data : VmSection := ⟨0x501000, 0x40001000, 4096⟩ with hd
  have hdata : 0 < data.size → data.Mappable (2 ^ 48) := fun _ =>
    ⟨by norm_num [hd], by norm_num [hd], by norm_num [hd], by norm_num [hd], by norm_num [hd]⟩
  have hapart := exampleInfo_apart data (Or.inr (by norm_num [hd]))
  have hinfo := exampleInfo_mappable hdata
  obtain ⟨roots, b', hb', hboot⟩ := example_boot hdata (by norm_num [hd])
  obtain ⟨s', r, e, hs', hpm⟩ := example_pm hdata (by norm_num [hd]) hff hopen hled
  have hv : data.HasPage 0x40001000 := ⟨0x40001000, ⟨le_rfl, by norm_num [hd]⟩, rfl⟩
  have hmem : data ∈ (exampleInfo data).vm.sections := by simp [exampleInfo, VmProc.sections]
  obtain ⟨hcovb, hsecb⟩ := nestedMap_record_section (Stage2.bootAccess (exampleInfo data).vm)
    (a := (data, eptRead ||| eptExec)) rfl hinfo hapart
    (by simp [Stage2.bootAccess, exampleInfo]) hv
  obtain ⟨hcovp, hsecp⟩ := nestedMap_record_section (exampleInfo data).vm.access
    (a := (data, eptRead ||| eptWrite)) rfl hinfo hapart (by simp [VmProc.access, exampleInfo]) hv
  refine ⟨m, roots, b', s', hapart, Or.inl ⟨data, hmem, le_rfl, by norm_num [hd]⟩, hb', hs', ?_, ?_⟩
  · refine (hboot.walk _ (by norm_num)).trans (((boot_cases _ _ (fun t ht => (hboot.inside t ht).2)
      ?_).1 hcovb).trans hsecb)
    exact fun h => absurd h.1 (by norm_num)
  · have hlim : (examplePm m data).memory.firstFreeAddr + 260095 * 4096 ≤ 2 ^ 48 := by
      rw [show (examplePm m data).memory = m from rfl, hff]
      norm_num
    rw [hpm.roots.1, hpm.walk hlim le_rfl (by norm_num)]
    have hno : ∀ p ∈ ([] : List ℕ), p + 4096 ≤ 2 ^ 48 := fun p hp => by cases hp
    have hcases := pm_cases (v := 0x40001000) (exampleInfo data) 0x103000
      [screenRegion, deviceRegion]
      (exampleInfo data).vm.access (fun t ht => (hpm.guest_isPage hlim t ht).2) hno
      (fun h => absurd h.1 (by norm_num))
    have hnone : ¬ ∃ p ∈ ([] : List ℕ), InPage p 0x40001000 := by rintro ⟨p, hp, -⟩; cases hp
    refine Eq.trans ?_ ((hcases.2.1 hnone hcovp).trans hsecp)
    rw [PmState.eptRegions, examplePm_infoAddr]
    rfl

end Example

end Savannah
