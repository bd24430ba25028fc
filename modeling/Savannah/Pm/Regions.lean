import Savannah.Pm.Mapping

/-!
# The nested map of a VM

The nested tables of a VM realize a list of regions, of which the last one that covers an address
decides.  This module computes what the list that `ept_pmap` maps says of an address: the window to
devices comes first, then the pages of descriptors and channels, then the record of the CPU, then
the guest page tables.
-/

namespace Savannah

open Foundation

/-! ### What a list of regions maps -/

/-- The nested map of a list of regions. -/
def nestedMap (gs : List Region) (v : ℕ) : Option Translation :=
  translationOf .ept size4KB (gs.map .map) v

/-- Some region of the list covers `v`. -/
def Covered (gs : List Region) (v : ℕ) : Prop := ∃ g ∈ gs, g.Covers size4KB v

section NestedMap

variable {gs gs' : List Region} {v : ℕ} {x : Translation}

/-- The last region counts. -/
theorem nestedMap_append_of_covered (h : Covered gs' v) :
    nestedMap (gs ++ gs') v = nestedMap gs' v := by
  obtain ⟨g, hg, hcov⟩ := h
  unfold nestedMap
  rw [List.map_append]
  exact translationOf_append_of_covers (List.mem_map_of_mem hg) hcov

/-- Regions elsewhere do not matter. -/
theorem nestedMap_append_of_not (h : ¬ Covered gs' v) :
    nestedMap (gs ++ gs') v = nestedMap gs v := by
  unfold nestedMap
  rw [List.map_append]
  refine translationOf_append_of_not_covers fun op hop hcov => h ?_
  obtain ⟨g, hg, rfl⟩ := List.mem_map.mp hop
  exact ⟨g, hg, hcov⟩

theorem nestedMap_eq (h : Covered gs v) (hall : ∀ g ∈ gs, g.Covers size4KB v →
    (⟨g.paddr + (v - g.start), g.prot, g.mtype⟩ : Translation) = x) : nestedMap gs v = some x := by
  obtain ⟨g, hg, hcov⟩ := h
  refine translationOf_eq_of_agree ⟨.map g, List.mem_map_of_mem hg, hcov⟩ fun op hop hcov' => ?_
  obtain ⟨g', hg', rfl⟩ := List.mem_map.mp hop
  exact congrArg some (hall g' hg' hcov')

/-- Where all regions are write back, so is the map. -/
theorem nestedMap_mtype {k : ℕ} (h : Covered gs v) (hall : ∀ g ∈ gs, g.mtype = k) :
    ∃ y, nestedMap gs v = some y ∧ y.mtype = k := by
  obtain ⟨g, hg, hcov⟩ := h
  obtain ⟨op, hop, -, hfind⟩ := exists_decides (List.mem_map_of_mem (f := PmapOp.map) hg) hcov
  obtain ⟨g', hg', rfl⟩ := List.mem_map.mp hop
  refine ⟨⟨g'.paddr + (v - g'.start), g'.prot, g'.mtype⟩, ?_, hall g' hg'⟩
  unfold nestedMap translationOf
  rw [hfind]
  rfl

end NestedMap

/-! ### The parts of a record -/

/-- `v` lies in the page. -/
def InPage (page v : ℕ) : Prop := page ≤ v ∧ v < page + 4096

instance (page v : ℕ) : Decidable (InPage page v) := inferInstanceAs (Decidable (_ ∧ _))

/-- `v` is an address of the section. -/
def VmSection.Has (sec : VmSection) (v : ℕ) : Prop := sec.vaddr ≤ v ∧ v < sec.vaddr + sec.size

/-- The page of `v` has an address of the section. -/
def VmSection.HasPage (sec : VmSection) (v : ℕ) : Prop := ∃ u, sec.Has u ∧ u / 4096 = v / 4096

/-- The pages of messages. -/
def CpuInfo.messagePages (info : CpuInfo) : List ℕ :=
  [info.msgInput, info.msgOutput, info.msgReady, info.msgReadyBitmap]

/-- The addresses that the record of a CPU, at `addr`, speaks of. -/
def CpuInfo.HasAddr (info : CpuInfo) (addr v : ℕ) : Prop :=
  (∃ sec ∈ info.vm.sections, sec.Has v) ∨ InPage addr v ∨ ∃ p ∈ info.messagePages, InPage p v

/-- No address is in two sections. -/
def VmProc.Apart (vm : VmProc) : Prop :=
  vm.sections.Pairwise fun a b => ∀ v, ¬ (a.Has v ∧ b.Has v)

/-- The record does not ask for anything else at `v` than a writable page at its own address: a
section there lies at its own address and is writable, and the read-only `struct cpu_info` page is
not there, unless a section or a page of messages replaces it. -/
def CpuInfo.Keeps (info : CpuInfo) (addr v : ℕ) : Prop :=
  (∀ a ∈ info.vm.access, a.1.HasPage v → a.1.paddr = a.1.vaddr ∧ a.2 = eptRead ||| eptWrite) ∧
    (InPage addr v → (∃ sec ∈ info.vm.sections, sec.HasPage v) ∨
    ∃ p ∈ info.messagePages, InPage p v)

section Record

variable {info : CpuInfo} {addr v p prot : ℕ} {sec : VmSection} {a b : VmSection × ℕ}

/-- An identity region is a page. -/
theorem identityRegion_covers (hp : p + 4096 ≤ 2 ^ 48) :
    (identityRegion p prot).Covers size4KB v ↔ InPage p v := by
  have hstop : (p + size4KB) % 2 ^ 64 = p + size4KB :=
    Nat.mod_eq_of_lt (by rw [show size4KB = 4096 from rfl]; omega)
  have hpages : pages (p + size4KB - p) size4KB = 1 := by
    rw [Nat.add_sub_cancel_left]
    rfl
  unfold Region.Covers identityRegion InPage
  dsimp only
  rw [hstop, hpages, Nat.one_mul]

/-- A section covers its pages. -/
theorem sectionRegion_covers (h : sec.Mappable (2 ^ 48)) :
    (sectionRegion (sec, prot)).Covers size4KB v ↔ sec.HasPage v := by
  have hal := h.vaddr
  have hbelow := h.below
  have hstop : (sec.vaddr + sec.size) % 2 ^ 64 = sec.vaddr + sec.size :=
    Nat.mod_eq_of_lt (by omega)
  have hspec := pages_spec sec.size (show 0 < 4096 by norm_num)
  unfold Region.Covers sectionRegion VmSection.HasPage VmSection.Has
  dsimp only
  rw [hstop, Nat.add_sub_cancel_left, show size4KB = 4096 from rfl]
  generalize pages sec.size 4096 = n at hspec
  constructor
  · rintro ⟨hlo, hhi⟩
    exact ⟨v / 4096 * 4096, ⟨by omega, by omega⟩, by omega⟩
  · rintro ⟨u, ⟨hlo, hhi⟩, hpage⟩
    constructor <;> omega

/-- An address of a section at the start of a page comes with the start of its page. -/
theorem VmSection.HasPage.start (h : sec.HasPage v) (hal : sec.vaddr % 4096 = 0) :
    sec.Has (v / 4096 * 4096) := by
  obtain ⟨u, ⟨hlo, hhi⟩, hpage⟩ := h
  constructor <;> omega

theorem VmSection.Has.hasPage (h : sec.Has v) : sec.HasPage v := ⟨v, h, rfl⟩

theorem VmSection.HasPage.size_pos (h : sec.HasPage v) : 0 < sec.size := by
  obtain ⟨u, ⟨hlo, hhi⟩, -⟩ := h
  omega

/-- Two sections never share a page. -/
theorem VmProc.Apart.eq {vm : VmProc} {access : List (VmSection × ℕ)} (h : vm.Apart)
    (haccess : access.map Prod.fst = vm.sections)
    (hal : ∀ sec ∈ vm.sections, 0 < sec.size → sec.vaddr % 4096 = 0) (ha : a ∈ access)
    (hb : b ∈ access) (hav : a.1.HasPage v) (hbv : b.1.HasPage v) : a = b := by
  unfold VmProc.Apart at h
  rw [← haccess, List.pairwise_map] at h
  rw [← haccess] at hal
  by_contra hne
  have hsymm : Std.Symm fun a b : VmSection × ℕ => ∀ v, ¬ (a.1.Has v ∧ b.1.Has v) :=
    ⟨fun a b hab v hv => hab v hv.symm⟩
  refine h.forall ha hb hne (v / 4096 * 4096) ⟨hav.start ?_, hbv.start ?_⟩
  · exact hal a.1 (List.mem_map_of_mem ha) hav.size_pos
  · exact hal b.1 (List.mem_map_of_mem hb) hbv.size_pos

theorem map_fst_access (vm : VmProc) : vm.access.map Prod.fst = vm.sections := rfl

/-- The regions of the sections cover the pages of the sections. -/
theorem covered_sections {access : List (VmSection × ℕ)}
    (haccess : access.map Prod.fst = info.vm.sections)
    (hinfo : info.Mappable (2 ^ 48) addr) :
    Covered (sectionRegions access) v ↔ ∃ a ∈ access, a.1.HasPage v := by
  have hmap : ∀ a ∈ access, 0 < a.1.size → a.1.Mappable (2 ^ 48) := fun a ha =>
    hinfo.sections a.1 (haccess ▸ List.mem_map_of_mem ha)
  constructor
  · rintro ⟨g, hg, hcov⟩
    obtain ⟨a, ha, rfl⟩ := List.mem_map.mp hg
    obtain ⟨ha, hsize⟩ := List.mem_filter.mp ha
    exact ⟨a, ha, (sectionRegion_covers (hmap a ha (of_decide_eq_true hsize))).mp hcov⟩
  · rintro ⟨a, ha, hav⟩
    refine ⟨sectionRegion a, List.mem_map_of_mem (List.mem_filter.mpr ⟨ha, ?_⟩), ?_⟩
    · exact decide_eq_true hav.size_pos
    · exact (sectionRegion_covers (hmap a ha hav.size_pos)).mpr hav

/-- Where a section is, its region decides. -/
theorem nestedMap_sections {access : List (VmSection × ℕ)}
    (haccess : access.map Prod.fst = info.vm.sections) (hinfo : info.Mappable (2 ^ 48) addr)
    (hapart : info.vm.Apart) (ha : a ∈ access) (hav : a.1.HasPage v) :
    nestedMap (sectionRegions access) v = some ⟨a.1.paddr + (v - a.1.vaddr), a.2, mtypeWb⟩ := by
  refine nestedMap_eq ((covered_sections haccess hinfo).mpr ⟨a, ha, hav⟩) fun g hg hcov => ?_
  obtain ⟨b, hb, rfl⟩ := List.mem_map.mp hg
  obtain ⟨hb, hsize⟩ := List.mem_filter.mp hb
  have hmap := hinfo.sections b.1 (haccess ▸ List.mem_map_of_mem hb) (of_decide_eq_true hsize)
  have hbv := (sectionRegion_covers hmap).mp hcov
  obtain rfl := hapart.eq haccess (fun sec hsec hpos => (hinfo.sections sec hsec hpos).vaddr) ha hb
    hav hbv
  rfl

/-- The regions of the pages of a CPU. -/
def ownRegions (info : CpuInfo) (addr : ℕ) : List Region :=
  (info.ownPages addr).map fun p => identityRegion p.1 p.2

theorem recordRegions_eq (access : List (VmSection × ℕ)) :
    recordRegions addr info access = ownRegions info addr ++ sectionRegions access := rfl

/-- The pages of the CPU: one of messages decides before the `struct cpu_info` page. -/
theorem nestedMap_own (hinfo : info.Mappable (2 ^ 48) addr) :
    (Covered (ownRegions info addr) v ↔ InPage addr v ∨ ∃ p ∈ info.messagePages, InPage p v) ∧
    ((∃ p ∈ info.messagePages, InPage p v) →
      nestedMap (ownRegions info addr) v = some ⟨v, eptRead ||| eptWrite, mtypeWb⟩) ∧
    ((¬ ∃ p ∈ info.messagePages, InPage p v) → InPage addr v →
      nestedMap (ownRegions info addr) v = some ⟨v, eptRead, mtypeWb⟩) := by
  have hpage : ∀ q ∈ info.ownPages addr, ∀ prot,
      (identityRegion q.1 prot).Covers size4KB v ↔ InPage q.1 v := fun q hq prot =>
    identityRegion_covers (hinfo.pages q hq).2
  have hsplit : ownRegions info addr = [identityRegion addr eptRead] ++
      info.messagePages.map fun p => identityRegion p (eptRead ||| eptWrite) := rfl
  have haddr : Covered [identityRegion addr eptRead] v ↔ InPage addr v := by
    simp only [Covered, List.mem_singleton, exists_eq_left]
    exact hpage (addr, eptRead) (by simp [CpuInfo.ownPages]) _
  have hmsg : ∀ p ∈ info.messagePages, ∀ prot,
      (identityRegion p prot).Covers size4KB v ↔ InPage p v := fun p hp prot =>
    hpage (p, eptRead ||| eptWrite) (by
      simp only [CpuInfo.messagePages, List.mem_cons, List.not_mem_nil, or_false] at hp
      simp only [CpuInfo.ownPages, List.mem_cons, Prod.mk.injEq, List.not_mem_nil, or_false,
        and_true]
      exact Or.inr hp) prot
  have hmsgs : Covered (info.messagePages.map fun p => identityRegion p (eptRead ||| eptWrite)) v ↔
      ∃ p ∈ info.messagePages, InPage p v := by
    constructor
    · rintro ⟨g, hg, hcov⟩
      obtain ⟨p, hp, rfl⟩ := List.mem_map.mp hg
      exact ⟨p, hp, (hmsg p hp _).mp hcov⟩
    · rintro ⟨p, hp, hpv⟩
      exact ⟨_, List.mem_map_of_mem hp, (hmsg p hp _).mpr hpv⟩
  rw [hsplit]
  refine ⟨?_, fun h => ?_, fun h hv => ?_⟩
  · rw [← haddr, ← hmsgs]
    simp only [Covered, List.mem_append, or_and_right, exists_or]
  · rw [nestedMap_append_of_covered (hmsgs.mpr h)]
    refine nestedMap_eq (hmsgs.mpr h) fun g hg hcov => ?_
    obtain ⟨p, hp, rfl⟩ := List.mem_map.mp hg
    have hlo := ((hmsg p hp _).mp hcov).1
    simp only [identityRegion, Translation.mk.injEq, and_true]
    omega
  · rw [nestedMap_append_of_not (fun hc => h (hmsgs.mp hc))]
    refine nestedMap_eq (haddr.mpr hv) fun g hg hcov => ?_
    obtain rfl := List.mem_singleton.mp hg
    have hlo := hv.1
    simp only [identityRegion, Translation.mk.injEq, and_true]
    omega

/-- What the regions of a record cover. -/
theorem covered_record {access : List (VmSection × ℕ)}
    (haccess : access.map Prod.fst = info.vm.sections) (hinfo : info.Mappable (2 ^ 48) addr) :
    Covered (recordRegions addr info access) v ↔ (∃ sec ∈ info.vm.sections, sec.HasPage v) ∨
      InPage addr v ∨ ∃ p ∈ info.messagePages, InPage p v := by
  rw [recordRegions_eq, ← (nestedMap_own hinfo).1, ← haccess]
  simp only [Covered, List.mem_append, or_and_right, exists_or, List.mem_map,
    exists_exists_and_eq_and]
  rw [or_comm]
  exact or_congr (covered_sections haccess hinfo) Iff.rfl

/-- The record asks for a writable page at its own address, where it asks for anything. -/
theorem keeps_iff (hinfo : info.Mappable (2 ^ 48) addr) (hapart : info.vm.Apart)
    (hcov : Covered (recordRegions addr info info.vm.access) v) :
    nestedMap (recordRegions addr info info.vm.access) v =
      some ⟨v, eptRead ||| eptWrite, mtypeWb⟩ ↔ info.Keeps addr v := by
  have haccess := map_fst_access info.vm
  obtain ⟨-, hmsg, haddr⟩ := nestedMap_own (v := v) hinfo
  have hsecs := covered_sections (v := v) haccess hinfo
  rw [recordRegions_eq]
  by_cases hsec : ∃ a ∈ info.vm.access, a.1.HasPage v
  · obtain ⟨a, ha, hav⟩ := hsec
    rw [nestedMap_append_of_covered (hsecs.mpr ⟨a, ha, hav⟩),
      nestedMap_sections haccess hinfo hapart ha hav]
    have hal : ∀ sec ∈ info.vm.sections, 0 < sec.size → sec.vaddr % 4096 = 0 :=
      fun sec hsec hpos => (hinfo.sections sec hsec hpos).vaddr
    have hlo : a.1.vaddr ≤ v := by
      have := (hav.start (hal a.1 (List.mem_map_of_mem (f := Prod.fst) ha) hav.size_pos)).1
      omega
    simp only [Option.some.injEq, Translation.mk.injEq, and_true]
    constructor
    · rintro ⟨hpaddr, hprot⟩
      refine ⟨fun b hb hbv => ?_, fun _ => Or.inl
        ⟨a.1, List.mem_map_of_mem (f := Prod.fst) ha, hav⟩⟩
      obtain rfl := hapart.eq haccess hal ha hb hav hbv
      exact ⟨by omega, hprot⟩
    · intro hkeeps
      obtain ⟨hpaddr, hprot⟩ := hkeeps.1 a ha hav
      exact ⟨by omega, hprot⟩
  · rw [nestedMap_append_of_not (fun hc => hsec (hsecs.mp hc))]
    have hnone : ∀ a ∈ info.vm.access, ¬ a.1.HasPage v := fun a ha hav => hsec ⟨a, ha, hav⟩
    have hnone' : ¬ ∃ sec ∈ info.vm.sections, sec.HasPage v := by
      rintro ⟨sec, hmem, hv⟩
      obtain ⟨a, ha, rfl⟩ := List.mem_map.mp (haccess ▸ hmem)
      exact hsec ⟨a, ha, hv⟩
    by_cases hm : ∃ p ∈ info.messagePages, InPage p v
    · rw [hmsg hm]
      exact iff_of_true rfl ⟨fun a ha hav => absurd hav (hnone a ha), fun _ => Or.inr hm⟩
    · have hv : InPage addr v := by
        rcases (covered_record haccess hinfo).mp hcov with h | h | h
        · exact absurd h hnone'
        · exact h
        · exact absurd h hm
      rw [haddr hm hv]
      refine iff_of_false (by simp [eptRead, eptWrite]) fun hkeeps => ?_
      rcases hkeeps.2 hv with h | h
      · exact hnone' h
      · exact hm h

/-- The record asks for nothing there. -/
theorem keeps_of_not_covered (hinfo : info.Mappable (2 ^ 48) addr)
    (hcov : ¬ Covered (recordRegions addr info info.vm.access) v) : info.Keeps addr v := by
  rw [covered_record (map_fst_access info.vm) hinfo] at hcov
  refine ⟨fun a ha hav => ?_, fun hv => absurd (Or.inr (Or.inl hv)) hcov⟩
  exact absurd (Or.inl ⟨a.1, List.mem_map_of_mem (f := Prod.fst) ha, hav⟩) hcov

/-- The record asks for write-back memory throughout. -/
theorem nestedMap_record_mtype {access : List (VmSection × ℕ)}
    (hcov : Covered (recordRegions addr info access) v) :
    ∃ y, nestedMap (recordRegions addr info access) v = some y ∧ y.mtype = mtypeWb := by
  refine nestedMap_mtype hcov fun g hg => ?_
  rw [recordRegions_eq, List.mem_append] at hg
  rcases hg with hg | hg
  · obtain ⟨p, -, rfl⟩ := List.mem_map.mp hg
    rfl
  · obtain ⟨a, -, rfl⟩ := List.mem_map.mp hg
    rfl

theorem CpuInfo.HasAddr.covered (h : info.HasAddr addr v)
    (hinfo : info.Mappable (2 ^ 48) addr) {access : List (VmSection × ℕ)}
    (haccess : access.map Prod.fst = info.vm.sections) :
    Covered (recordRegions addr info access) v := by
  rw [covered_record haccess hinfo]
  rcases h with ⟨sec, hsec, hv⟩ | h
  · exact Or.inl ⟨sec, hsec, hv.hasPage⟩
  · exact Or.inr h

/-- The regions of a record map a section to its pages. -/
theorem nestedMap_record_section (access : List (VmSection × ℕ))
    (haccess : access.map Prod.fst = info.vm.sections) (hinfo : info.Mappable (2 ^ 48) addr)
    (hapart : info.vm.Apart) (ha : a ∈ access) (hav : a.1.HasPage v) :
    Covered (recordRegions addr info access) v ∧ nestedMap (recordRegions addr info access) v =
      some ⟨a.1.paddr + (v - a.1.vaddr), a.2, mtypeWb⟩ := by
  refine ⟨(covered_record haccess hinfo).mpr (Or.inl ⟨a.1, ?_, hav⟩), ?_⟩
  · rw [← haccess]
    exact List.mem_map_of_mem ha
  · rw [recordRegions_eq, nestedMap_append_of_covered
      ((covered_sections haccess hinfo).mpr ⟨a, ha, hav⟩)]
    exact nestedMap_sections haccess hinfo hapart ha hav

end Record

/-! ### The regions of PM -/

/-- The regions for pages at their own addresses. -/
def pageRegions (ps : List ℕ) : List Region :=
  ps.map fun p => identityRegion p (eptRead ||| eptWrite)

/-- The window to devices that PM maps last. -/
def InWindow (v : ℕ) : Prop := 0xC0000000 ≤ v ∧ v < 0xC6000000

section Builders

variable {info : CpuInfo} {addr v : ℕ} {ts ps : List ℕ} {gs gs' : List Region}

theorem windowRegion_covers : Covered [windowRegion] v ↔ InWindow v := by
  simp only [Covered, List.mem_singleton, exists_eq_left]
  rfl

/-- The pages cover themselves. -/
theorem covered_pages (hps : ∀ p ∈ ps, p + 4096 ≤ 2 ^ 48) :
    Covered (pageRegions ps) v ↔ ∃ p ∈ ps, InPage p v := by
  constructor
  · rintro ⟨g, hg, hcov⟩
    obtain ⟨p, hp, rfl⟩ := List.mem_map.mp hg
    exact ⟨p, hp, (identityRegion_covers (hps p hp)).mp hcov⟩
  · rintro ⟨p, hp, hpv⟩
    exact ⟨_, List.mem_map_of_mem hp, (identityRegion_covers (hps p hp)).mpr hpv⟩

/-- Pages are mapped to themselves. -/
theorem nestedMap_pages (hps : ∀ p ∈ ps, p + 4096 ≤ 2 ^ 48) (h : ∃ p ∈ ps, InPage p v) :
    nestedMap (pageRegions ps) v = some ⟨v, eptRead ||| eptWrite, mtypeWb⟩ := by
  refine nestedMap_eq ((covered_pages hps).mpr h) fun g hg hcov => ?_
  obtain ⟨p, hp, rfl⟩ := List.mem_map.mp hg
  have hlo := ((identityRegion_covers (hps p hp)).mp hcov).1
  simp only [identityRegion, Translation.mk.injEq, and_true]
  omega

theorem nestedMap_window (h : InWindow v) :
    nestedMap (gs ++ [windowRegion]) v = some ⟨v, eptRead ||| eptWrite, mtypeUc⟩ := by
  rw [nestedMap_append_of_covered (windowRegion_covers.mpr h)]
  refine nestedMap_eq (windowRegion_covers.mpr h) fun g hg _ => ?_
  obtain rfl := List.mem_singleton.mp hg
  have := h.1
  simp only [windowRegion, Translation.mk.injEq, and_true]
  omega

variable (info addr gs) in
/-- Below the last window PM maps the pages of descriptors and channels, the record, and the guest
page tables, in this order of priority. -/
theorem pm_cases (access : List (VmSection × ℕ)) (hts : ∀ t ∈ ts, t + 4096 ≤ 2 ^ 48)
    (hps : ∀ p ∈ ps, p + 4096 ≤ 2 ^ 48) (hv : ¬ InWindow v) :
    ((∃ p ∈ ps, InPage p v) →
      nestedMap (gs ++ vmRegions addr info access ts ++ pageRegions ps ++ [windowRegion]) v =
        some ⟨v, eptRead ||| eptWrite, mtypeWb⟩) ∧
    ((¬ ∃ p ∈ ps, InPage p v) → Covered (recordRegions addr info access) v →
      nestedMap (gs ++ vmRegions addr info access ts ++ pageRegions ps ++ [windowRegion]) v =
        nestedMap (recordRegions addr info access) v) ∧
    ((¬ ∃ p ∈ ps, InPage p v) → ¬ Covered (recordRegions addr info access) v →
      (∃ t ∈ ts, InPage t v) →
      nestedMap (gs ++ vmRegions addr info access ts ++ pageRegions ps ++ [windowRegion]) v =
        some ⟨v, eptRead ||| eptWrite, mtypeWb⟩) := by
  have hpages := covered_pages (v := v) hps
  rw [nestedMap_append_of_not fun hc => hv (windowRegion_covers.mp hc)]
  have hrest : (¬ ∃ p ∈ ps, InPage p v) →
      nestedMap (gs ++ vmRegions addr info access ts ++ pageRegions ps) v =
        nestedMap ((gs ++ pageRegions ts) ++ recordRegions addr info access) v := fun h => by
    rw [nestedMap_append_of_not fun hc => h (hpages.mp hc), List.append_assoc]
    rfl
  refine ⟨fun h => ?_, fun h hcov => ?_, fun h hcov ht => ?_⟩
  · rw [nestedMap_append_of_covered (hpages.mpr h), nestedMap_pages hps h]
  · rw [hrest h, nestedMap_append_of_covered hcov]
  · rw [hrest h, nestedMap_append_of_not hcov,
      nestedMap_append_of_covered ((covered_pages hts).mpr ht),
      nestedMap_pages hts ht]

end Builders

/-! ### The tables -/

section Tables

variable {s s' : PmState} {pool c r e limit : ℕ} {X S : Multiset (ℕ × ℕ)} {C : Shape}

/-- The pages of descriptors and channels lie below the limit. -/
theorem PmState.Ready.extraPages {limit : ℕ} (h : s.Ready pool limit X S c) :
    ∀ p ∈ s.extraPages (s.cpus c).vm, p + 4096 ≤ limit := by
  intro p hp
  rcases List.mem_append.mp hp with hp | hp
  · unfold PmState.fdPages at hp
    split at hp
    · cases hp
    · rename_i hfds
      rcases List.mem_cons.mp hp with rfl | hp
      · have haddr := h.ledger.addr (Multiset.mem_add.mpr (Or.inl (h.fds hfds)))
        have hpool := h.pool_le
        omega
      · obtain ⟨i, hi, rfl⟩ := List.mem_map.mp (List.mem_filter.mp hp).1
        exact h.offsets hfds i (List.mem_range.mp hi)
  · unfold channelPages at hp
    split at hp
    · cases hp
    · rename_i hch
      obtain rfl := List.mem_singleton.mp hp
      exact (h.channels hch).2

/-- The guest page tables are pages of the pool. -/
theorem Built.guest_isPage (h : Built pool X S C c s r e s')
    (hlim : s.memory.firstFreeAddr + pool * 4096 ≤ limit) :
    ∀ t ∈ guestList s'.words r, IsPage limit t := by
  intro t ht
  have hmem : t ∈ treeTables s'.words size2MB r := by
    rw [h.guest.tables_eq]
    exact Multiset.mem_coe.mpr ht
  refine (h.holds.isPage ?_ (Multiset.mem_add.mpr (Or.inr hmem))).2
  rw [h.holds.layout.firstFree]
  exact hlim

/-- The roots that `ept_pmap` stores in the record. -/
theorem Built.roots (h : Built pool X S C c s r e s') :
    (s'.cpus c).vm.ept = e ∧ (s'.cpus c).vm.pageTables = r := by
  rw [h.holds.cpus, updateVm_cpus]
  exact ⟨rfl, rfl⟩

/-- The walk of the nested tables that PM has built. -/
theorem Built.walk {limit r e : ℕ} {C : Shape} {s' : PmState} (h : Built pool X S C c s r e s')
    (hlim : s.memory.firstFreeAddr + pool * 4096 ≤ limit) (hle : limit ≤ 2 ^ 48) {v : ℕ}
    (hv : v < 2 ^ 48) :
    Savannah.walk .ept s'.words e v = nestedMap (s.eptRegions c (guestList s'.words r)) v := by
  have htree : IsTree (TableKind.tableFlags .ept) C s'.words size4KB e := h.tree
  refine h.realizes.walk (Or.inl rfl) htree (fun a ha => ?_) hv
  have hlim' : s'.memory.firstFreeAddr + pool * 4096 ≤ limit := by
    rw [h.holds.layout.firstFree]
    exact hlim
  obtain ⟨hne, -, hend⟩ := h.holds.isPage hlim' (Multiset.mem_add.mpr (Or.inl ha))
  exact ⟨hne, by omega⟩

end Tables

end Savannah
