import Savannah.Pmap.Supply
import Savannah.Pm.Handlers

/-!
# The nested tables for the record of a VM

The boot loader and PM both map, after the guest page tables, the `struct cpu_info` of a CPU, its
four pages of messages and the sections of its VM.  `record_spec` describes these calls for an
arbitrary access to the tables: they add the regions of the record (`recordRegions`) to what is
mapped.  A later region decides where two of them overlap.
-/

namespace Savannah

open Foundation

/-! ### The regions -/

/-- The pages of a CPU that its VM sees, with the access granted: the `struct cpu_info` at `addr`,
which is read only, and the four pages of messages. -/
def CpuInfo.ownPages (info : CpuInfo) (addr : ℕ) : List (ℕ × ℕ) :=
  [(addr, eptRead), (info.msgInput, eptRead ||| eptWrite), (info.msgOutput, eptRead ||| eptWrite),
    (info.msgReady, eptRead ||| eptWrite), (info.msgReadyBitmap, eptRead ||| eptWrite)]

/-- The region of a section. -/
def sectionRegion (a : VmSection × ℕ) : Region :=
  ⟨a.1.vaddr, (a.1.vaddr + a.1.size) % 2 ^ 64, a.1.paddr, a.2, mtypeWb⟩

/-- The regions of the sections that are not empty. -/
def sectionRegions (access : List (VmSection × ℕ)) : List Region :=
  (access.filter fun a => 0 < a.1.size).map sectionRegion

/-- The regions that the record of a CPU asks for. -/
def recordRegions (addr : ℕ) (info : CpuInfo) (access : List (VmSection × ℕ)) : List Region :=
  (info.ownPages addr).map (fun p => identityRegion p.1 p.2) ++ sectionRegions access

/-- The text screen, and the windows to devices. -/
def screenRegion : Region := ⟨0xB8000, 0xB9000, 0xB8000, eptRead ||| eptWrite, mtypeUc⟩

@[inherit_doc screenRegion]
def deviceRegion : Region := ⟨0xFEC00000, 0x100000000, 0xFEC00000, eptRead ||| eptWrite, mtypeUc⟩

@[inherit_doc screenRegion]
def windowRegion : Region := ⟨0xC0000000, 0xC6000000, 0xC0000000, eptRead ||| eptWrite, mtypeUc⟩

/-- The window to the local interrupt controllers that the boot loader maps. -/
def apicRegion : Region := ⟨0xFEE00000, 0x100000000, 0xFEE00000, eptRead ||| eptWrite, mtypeUc⟩

/-! ### What can be mapped -/

/-- Nested tables of the shape `C` reach up to `limit`, which lies above the first 4GB. -/
structure Reaches (C : Shape) (limit : ℕ) : Prop where
  low : 2 ^ 32 ≤ limit
  aligned : limit % 4096 = 0
  le : limit ≤ 2 ^ 48
  allows : ∀ v < limit, C.Allows size4KB v

theorem reaches_all : Reaches .all (2 ^ 48) :=
  ⟨by norm_num, by norm_num, le_rfl, fun _ _ => Shape.all_allows _ _⟩

/-- A page below `limit`. -/
def IsPage (limit page : ℕ) : Prop := page % 4096 = 0 ∧ page + 4096 ≤ limit

/-- A section at the start of a page, below `limit` and in physical memory; the number of its pages
fits into an `int`. -/
structure VmSection.Mappable (limit : ℕ) (sec : VmSection) : Prop where
  vaddr : sec.vaddr % 4096 = 0
  paddr : sec.paddr % 4096 = 0
  below : sec.vaddr + sec.size ≤ limit
  physical : sec.paddr + sec.size ≤ 2 ^ 52
  count : sec.size + 4096 ≤ 2 ^ 43

/-- The pages and the sections of a record can be mapped below `limit`. -/
structure CpuInfo.Mappable (limit addr : ℕ) (info : CpuInfo) : Prop where
  pages : ∀ p ∈ info.ownPages addr, IsPage limit p.1
  sections : ∀ sec ∈ info.vm.sections, 0 < sec.size → sec.Mappable limit

section Valid

variable {C : Shape} {limit addr : ℕ} {info : CpuInfo} {sec : VmSection}
  {access : List (VmSection × ℕ)}

/-- A region that the tables can take. -/
def Region.Fits (C : Shape) (g : Region) : Prop :=
  g.Valid .ept size4KB ∧ g.Countable size4KB ∧ g.Within C size4KB

/-- A section of whole pages stays below the limits when its size is rounded up. -/
theorem VmSection.Mappable.pages_le (h : sec.Mappable limit) (hlim : limit % 4096 = 0) :
    sec.vaddr + pages sec.size size4KB * size4KB ≤ limit ∧
      sec.paddr + pages sec.size size4KB * size4KB ≤ 2 ^ 52 := by
  obtain ⟨h₁, h₂, h₃, h₄, -⟩ := h
  have hspec := pages_spec sec.size (show 0 < 4096 by norm_num)
  rw [show size4KB = 4096 from rfl]
  generalize pages sec.size 4096 = n at hspec
  constructor <;> omega

/-- The region of a section. -/
theorem VmSection.Mappable.region (h : sec.Mappable limit) (hC : Reaches C limit)
    (hsize : 0 < sec.size) {prot : ℕ} (hpos : 0 < prot) (hprot : prot < 8) :
    (sectionRegion (sec, prot)).Fits C := by
  obtain ⟨hv, hp⟩ := h.pages_le hC.aligned
  have hbelow := h.below
  have hle := hC.le
  have hstop : (sec.vaddr + sec.size) % 2 ^ 64 = sec.vaddr + sec.size :=
    Nat.mod_eq_of_lt (by omega)
  have hpages : (sectionRegion (sec, prot)).stop - (sectionRegion (sec, prot)).start =
      sec.size := by
    simp only [sectionRegion, hstop, Nat.add_sub_cancel_left]
  have hmtype : (sectionRegion (sec, prot)).mtype < 8 := by norm_num [sectionRegion]
  refine ⟨⟨?_, h.vaddr, h.paddr, ?_, ?_, hpos, hprot, hmtype⟩, ?_, Region.within_of_le hC.allows ?_⟩
  · simp only [sectionRegion, hstop]
    omega
  · rw [hpages]
    exact hv.trans hle
  · rw [hpages]
    exact hp
  · have hcount := h.count
    have hspec := pages_spec sec.size (show 0 < 4096 by norm_num)
    unfold Region.Countable
    rw [hpages, show size4KB = 4096 from rfl]
    omega
  · rw [hpages]
    exact hv

theorem IsPage.region {page : ℕ} (h : IsPage limit page) (hC : Reaches C limit) (prot : ℕ)
    (hpos : 0 < prot) (hprot : prot < 8) : (identityRegion page prot).Fits C := by
  obtain ⟨hal, hend⟩ := h
  have hle := hC.le
  obtain ⟨hvalid, hcount⟩ := identityRegion_valid hal (hend.trans hle) hpos hprot
  refine ⟨hvalid, hcount, Region.within_of_le hC.allows ?_⟩
  have hstop : (page + size4KB) % 2 ^ 64 = page + size4KB :=
    Nat.mod_eq_of_lt (by rw [show size4KB = 4096 from rfl]; omega)
  have hpages : pages ((identityRegion page prot).stop - (identityRegion page prot).start) size4KB
      = 1 := by
    simp only [identityRegion, hstop, Nat.add_sub_cancel_left]
    rfl
  rw [hpages]
  simpa [identityRegion] using hend

/-- The regions of fixed addresses can be mapped. -/
theorem fixedRegion_fits (hC : Reaches C limit) :
    ∀ g ∈ [screenRegion, deviceRegion, windowRegion, apicRegion], g.Fits C := by
  have hlow : ∀ g ∈ [screenRegion, deviceRegion, windowRegion, apicRegion],
      g.start + pages (g.stop - g.start) size4KB * size4KB ≤ 2 ^ 32 := by decide
  have hcount : ∀ g ∈ [screenRegion, deviceRegion, windowRegion, apicRegion],
      pages (g.stop - g.start) size4KB < 2 ^ 31 := by decide
  intro g hg
  refine ⟨?_, hcount g hg, Region.within_of_le hC.allows ((hlow g hg).trans hC.low)⟩
  simp only [List.mem_cons, List.not_mem_nil, or_false] at hg
  rcases hg with rfl | rfl | rfl | rfl <;>
    exact ⟨by decide, by decide, by decide, by decide, by decide, by decide, by decide, by decide⟩

/-- The regions of the sections can be mapped. -/
theorem CpuInfo.Mappable.sectionRegions (h : info.Mappable limit addr) (hC : Reaches C limit)
    (haccess : ∀ a ∈ access, a.1 ∈ info.vm.sections ∧ 0 < a.2 ∧ a.2 < 8) :
    ∀ g ∈ sectionRegions access, g.Fits C := by
  intro g hg
  obtain ⟨a, ha, rfl⟩ := List.mem_map.mp hg
  obtain ⟨hmem, hsize⟩ := List.mem_filter.mp ha
  obtain ⟨hsec, hpos, hprot⟩ := haccess a hmem
  exact (h.sections a.1 hsec (of_decide_eq_true hsize)).region hC
    (of_decide_eq_true hsize) hpos hprot

end Valid

/-! ### The calls -/

/-- Mapping the sections that are not empty. -/
def mapSections {ε σ : Type} (O : TableOps ε σ) (stop : Stop MapPanic → ε) (ept : ℕ)
    (access : List (VmSection × ℕ)) : EStateM ε σ Unit :=
  access.forM fun a => do
    if a.1.size > 0 then
      PmapOp.run O stop .ept size4KB ept (.map (sectionRegion a))

section Record

variable {ε σ α : Type} {O : TableOps ε σ} {Owned : σ → Multiset ℕ → Prop} {E : ε → σ → Prop}
  {stop : Stop MapPanic → ε} {C : Shape} {limit ept r addr : ℕ} {info : CpuInfo} {s : σ}
  {access : List (VmSection × ℕ)} {R : Multiset ℕ} {ops : List PmapOp} {m₀ : Tables}

/-- The sections as a sequence of calls. -/
theorem mapSections_eq : mapSections O stop ept access =
    (sectionRegions access).forM fun g => PmapOp.run O stop .ept size4KB ept (.map g) := by
  unfold mapSections sectionRegions
  induction access with
  | nil => rfl
  | cons a l ih =>
    change ((if a.1.size > 0 then _ else _) >>= fun _ => l.forM _) = _
    rw [ih]
    by_cases ha : 0 < a.1.size
    · rw [if_pos ha, List.filter_cons_of_pos (by simpa using ha)]
      rfl
    · rw [if_neg ha, List.filter_cons_of_neg (by simpa using ha)]
      rfl

/-- The regions of the guest page tables `ts` and of a record. -/
def vmRegions (addr : ℕ) (info : CpuInfo) (access : List (VmSection × ℕ)) (ts : List ℕ) :
    List Region :=
  ts.map (fun t => identityRegion t (eptRead ||| eptWrite)) ++ recordRegions addr info access

variable (O stop ept r addr info access) in
/-- The calls for the guest page tables at `r` and for the record of a CPU, followed by the rest
`k`. -/
abbrev mapRecord (k : EStateM ε σ α) : EStateM ε σ α := do
  mapPageTables O stop ept r (eptRead ||| eptWrite)
  let identity page prot := PmapOp.run O stop .ept size4KB ept (.map (identityRegion page prot))
  identity addr eptRead
  identity info.msgInput (eptRead ||| eptWrite)
  identity info.msgOutput (eptRead ||| eptWrite)
  identity info.msgReady (eptRead ||| eptWrite)
  identity info.msgReadyBitmap (eptRead ||| eptWrite)
  mapSections O stop ept access
  k

variable (stop addr info access) in
/-- The record is mapped; the guest page tables are among the pages `R`. -/
theorem record_spec {k : EStateM ε σ α} {Q : α → σ → Prop} (hO : O.Lawful Owned E)
    (hC : Reaches C limit) (hguest : GuestTree m₀ r)
    (hR : ∀ t ∈ guestList m₀ r, t ∈ R ∧ t ≠ 0 ∧ IsPage limit t) (hinfo : info.Mappable limit addr)
    (haccess : ∀ a ∈ access, a.1 ∈ info.vm.sections ∧ 0 < a.2 ∧ a.2 < 8)
    (hnull : ¬ NullTables .ept size4KB ops) (h : Nested O Owned .ept C size4KB ept R ops m₀ s)
    (hk : ∀ s', Nested O Owned .ept C size4KB ept R
      (ops ++ (vmRegions addr info access (guestList m₀ r)).map .map) m₀ s' → wp k Q E s') :
    wp (mapRecord O stop ept r addr info access k) Q E s := by
  have hsize : IsPageSize size4KB := Or.inl rfl
  have hregion : ∀ {p prot : ℕ}, IsPage limit p → 0 < prot → prot < 8 →
      (identityRegion p prot).Fits C := fun hp => hp.region hC _
  -- the guest page tables
  have htables := mapPageTables_spec stop (eptRead ||| eptWrite) hO hguest
    (fun t ht => ⟨(hR t ht).1, (hR t ht).2.1, (hR t ht).2.2.1, (hR t ht).2.2.2.trans hC.le,
      (hregion (hR t ht).2.2 (by decide) (by decide)).2.2⟩) (by decide) (by decide) hnull h
  refine htables.bind fun _ s₁ n₁ => ?_
  replace n₁ : Nested O Owned .ept C size4KB ept R (ops ++
      ((guestList m₀ r).map fun t => identityRegion t (eptRead ||| eptWrite)).map .map)
      m₀ s₁ := by rwa [List.map_map]
  -- the pages of the CPU
  have hpage := hinfo.pages
  simp only [CpuInfo.ownPages, List.forall_mem_cons, List.not_mem_nil, false_imp_iff, implies_true,
    and_true] at hpage
  obtain ⟨h₁, h₂, h₃, h₄, h₅⟩ := hpage
  refine (n₁.map_snoc hO hsize (hregion h₁ (by decide) (by decide)) hnull).bind fun _ s₂ n₂ => ?_
  refine (n₂.map_snoc hO hsize (hregion h₂ (by decide) (by decide)) hnull).bind fun _ s₃ n₃ => ?_
  refine (n₃.map_snoc hO hsize (hregion h₃ (by decide) (by decide)) hnull).bind fun _ s₄ n₄ => ?_
  refine (n₄.map_snoc hO hsize (hregion h₄ (by decide) (by decide)) hnull).bind fun _ s₅ n₅ => ?_
  refine (n₅.map_snoc hO hsize (hregion h₅ (by decide) (by decide)) hnull).bind fun _ s₆ n₆ => ?_
  -- the sections
  rw [mapSections_eq]
  refine (n₆.maps hO hsize (hinfo.sectionRegions hC haccess) fun hn => hnull hn.of_append).bind
    fun _ s₇ n₇ => hk s₇ ?_
  rw [List.append_assoc, ← List.map_append] at n₇
  simpa [vmRegions, recordRegions, CpuInfo.ownPages] using n₇

end Record

/-! ### The tables that the calls need -/

/-- A bound for the number of tables that the calls for a record create. -/
def recordCost (vm : VmProc) : ℕ :=
  8241 + (vm.sections.map fun sec => 3 * pages sec.size size4KB).sum

section Funded

variable {ε σ α : Type} {O : TableOps ε σ} {P : ℕ → σ → Prop} {E : ε → σ → Prop}
  {stop : Stop MapPanic → ε} {ept r addr n : ℕ} {info : CpuInfo} {s : σ}
  {access : List (VmSection × ℕ)}

theorem sectionCost (a : VmSection × ℕ) :
    regionCost size4KB (sectionRegion a).start (sectionRegion a).stop ≤
      3 * pages a.1.size size4KB + 1 := by
  have hle : (a.1.vaddr + a.1.size) % 2 ^ 64 - a.1.vaddr ≤ a.1.size := by
    have := Nat.mod_le (a.1.vaddr + a.1.size) (2 ^ 64)
    omega
  unfold regionCost sectionRegion
  dsimp only
  have h₁ := pages_spec ((a.1.vaddr + a.1.size) % 2 ^ 64 - a.1.vaddr) (show 0 < 4096 by norm_num)
  have h₂ := pages_spec a.1.size (show 0 < 4096 by norm_num)
  rw [show size4KB = 4096 from rfl]
  omega

/-- What the sections take. -/
theorem mapSections_funded (hO : O.Funded P E)
    (hstop : ∀ q n s, P n s → q ≠ .panic .allocFailed → E (stop q) s)
    (h : P (n + (access.map fun a => 3 * pages a.1.size size4KB + 1).sum) s) :
    wp (mapSections O stop ept access) (fun _ s' => P n s') E s := by
  refine forM_funded (c := fun a => 3 * pages a.1.size size4KB + 1) (fun a _ n s h => ?_) h
  refine wp_ite.mpr ⟨fun _ => ?_, fun _ => hO.of_le h (Nat.le_add_right n _)⟩
  exact PmapOp.run_funded _ hO hstop (hO.of_le h (Nat.add_le_add_left (sectionCost a) n))

variable (stop info access) in
/-- The calls for a record, followed by the rest `k`, with enough tables in reserve. -/
theorem record_funded {k : EStateM ε σ α} {Q : α → σ → Prop} (hO : O.Funded P E)
    (hstop : ∀ q n s, P n s → q ≠ .panic .allocFailed → E (stop q) s)
    (haccess : access.map Prod.fst = info.vm.sections) (h : P (n + recordCost info.vm) s)
    (hk : ∀ s', P n s' → wp k Q E s') :
    wp (mapRecord O stop ept r addr info access k) Q E s := by
  have hpage : ∀ n page prot s, P (n + 4) s →
      wp (PmapOp.run O stop .ept size4KB ept (.map (identityRegion page prot)))
        (fun _ s' => P n s') E s := fun _ _ _ _ => identityPage_funded hO hstop
  have hsum : (access.map fun a => 3 * pages a.1.size size4KB + 1).sum =
      access.length + (info.vm.sections.map fun sec => 3 * pages sec.size size4KB).sum := by
    rw [← haccess, List.map_map]
    clear haccess
    induction access with
    | nil => rfl
    | cons a l ih =>
      simp only [List.map_cons, List.sum_cons, List.length_cons, Function.comp_apply] at ih ⊢
      omega
  have hfive : access.length = 5 := by
    rw [← List.length_map (f := Prod.fst), haccess]
    rfl
  unfold recordCost at h
  generalize (info.vm.sections.map fun sec => 3 * pages sec.size size4KB).sum = T at h hsum
  refine (mapPageTables_funded (n := n + T + 25) hO hstop (hO.of_le h (by omega))).bind
    fun _ s₁ h₁ => ?_
  refine (hpage (n + T + 21) _ _ s₁ (hO.of_le h₁ (by omega))).bind fun _ s₂ h₂ => ?_
  refine (hpage (n + T + 17) _ _ s₂ (hO.of_le h₂ (by omega))).bind fun _ s₃ h₃ => ?_
  refine (hpage (n + T + 13) _ _ s₃ (hO.of_le h₃ (by omega))).bind fun _ s₄ h₄ => ?_
  refine (hpage (n + T + 9) _ _ s₄ (hO.of_le h₄ (by omega))).bind fun _ s₅ h₅ => ?_
  refine (hpage (n + T + 5) _ _ s₅ (hO.of_le h₅ (by omega))).bind fun _ s₆ h₆ => ?_
  exact (mapSections_funded hO hstop (hO.of_le h₆ (by omega))).bind fun _ s₇ h₇ => hk s₇ h₇

end Funded

end Savannah
