import Savannah.Boot.Memory
import Savannah.Pm.Record

/-!
# The tables that the boot loader builds for a VM

`ept_map_memory_other` of `boot/stage2/main.c` makes the guest page tables and the nested tables of
a VM that is started at boot.  It makes the same calls for the record of the VM as `ept_pmap` of PM,
apart from the access to the data section (`bootAccess`), and then maps one window to devices.
-/

namespace Savannah.Stage2

open Foundation

/-- The sections of a VM with the access that the boot loader grants. -/
def bootAccess (vm : VmProc) : List (VmSection × ℕ) :=
  [(vm.code, eptRead ||| eptExec), (vm.data, eptRead ||| eptExec), (vm.rodata, eptRead),
    (vm.bss, eptWrite ||| eptRead), (vm.stack, eptWrite ||| eptRead)]

/-- `ept_map_memory` with `MAP_UPDATE` and pages of 4KB. -/
def eptUpdate (ept start stop paddr mtype prot : ℕ) : BootM Unit := do
  let _ ← eptMapMemory tables mapStop ept start stop paddr size4KB mtype prot mapUpdate

/-- `eptUpdate` for one page at its own address. -/
def eptIdentity (ept page mtype prot : ℕ) : BootM Unit :=
  eptUpdate ept page ((page + size4KB) % 2 ^ 64) page mtype prot

/-- `ept_map_memory_other` for the record `info` at the address `addr`.  It returns the values that
the source stores in `vm_page_tables` and `vm_ept`. -/
def eptMapMemoryOther (has1GB : Bool) (addr : ℕ) (info : CpuInfo) : BootM (ℕ × ℕ) := do
  let root ← guestTables tables mapStop (if has1GB then size1GB else size2MB)
  let ept ← eptMapMemory tables mapStop 0 0xB8000 0xB9000 0xB8000 size4KB mtypeUc
    (eptRead ||| eptWrite) mapNew
  mapPageTables tables mapStop ept root (eptRead ||| eptWrite)
  eptIdentity ept addr mtypeWb eptRead
  eptIdentity ept info.msgInput mtypeWb (eptWrite ||| eptRead)
  eptIdentity ept info.msgOutput mtypeWb (eptWrite ||| eptRead)
  eptIdentity ept info.msgReady mtypeWb (eptWrite ||| eptRead)
  eptIdentity ept info.msgReadyBitmap mtypeWb (eptWrite ||| eptRead)
  (bootAccess info.vm).forM fun a => do
    if a.1.size > 0 then
      eptUpdate ept a.1.vaddr ((a.1.vaddr + a.1.size) % 2 ^ 64) a.1.paddr mtypeWb a.2
  eptUpdate ept 0xFEE00000 (size1GB * 4) 0xFEE00000 mtypeUc (eptWrite ||| eptRead)
  return (root, ept)

/-- The regions of the nested tables, with the guest page tables `ts`. -/
def bootRegions (addr : ℕ) (info : CpuInfo) (ts : List ℕ) : List Region :=
  [screenRegion] ++ vmRegions addr info (bootAccess info.vm) ts ++ [apicRegion]

theorem bootAccess_prot {vm : VmProc} :
    ∀ a ∈ bootAccess vm, a.1 ∈ vm.sections ∧ 0 < a.2 ∧ a.2 < 8 := by
  intro a ha
  simp only [bootAccess, List.mem_cons, List.not_mem_nil, or_false] at ha
  rcases ha with rfl | rfl | rfl | rfl | rfl <;> dsimp only <;>
    exact ⟨by simp [VmProc.sections], by decide, by decide⟩

/-- What `ept_map_memory_other` builds: guest page tables at `r` and nested tables at `e`. -/
structure Built (addr : ℕ) (info : CpuInfo) (b : State) (r e : ℕ) (b' : State) : Prop where
  guest : GuestTree b'.words r
  walk : ∀ v < 2 ^ 48, walk .ept b'.words e v =
    translationOf .ept size4KB ((bootRegions addr info (guestList b'.words r)).map .map) v
  next : treeTables b'.words size2MB r = ↑(b.nextPages 6)
  inside : ∀ t ∈ guestList b'.words r, IsPage (2 ^ 48) t

section Spec

variable {b : State} {has1GB : Bool} {addr : ℕ} {info : CpuInfo} {E : Stop Panic → State → Prop}

/-- What `ept_map_memory_other` does. -/
theorem eptMapMemoryOther_spec (hb : b.Physical) (hsize : b.memorySize ≤ 2 ^ 48)
    (hinfo : info.Mappable (2 ^ 48) addr) (hinit : ∀ s, E (.panic .notInitialized) s)
    (hfail : ∀ s, E (.panic (.map .allocFailed)) s)
    (hgb : has1GB = true → ∀ s, E (mapStop (.panic .notAligned)) s) :
    wp (eptMapMemoryOther has1GB addr info) (fun roots b' => Built addr info b roots.1 roots.2 b')
      E b := by
  have hlaw := tables_takesNext b hinit hfail
  have hown : b.Holds 0 ∧ b.TakesNext b 0 :=
    ⟨⟨hb, fun a ha => absurd ha (Multiset.notMem_zero a)⟩, ⟨0, rfl, by simp⟩, rfl,
      fun a ha => absurd ha (Multiset.notMem_zero a)⟩
  have hC := reaches_all
  have hscreen := fixedRegion_fits hC screenRegion (by simp)
  have hapic := fixedRegion_fits hC apicRegion (by simp)
  unfold eptMapMemoryOther
  cases has1GB with
  | true => exact wp_bind.mpr (guestTables_1GB hlaw hown (hgb rfl))
  | false =>
    refine (guestTables_spec hlaw hown).bind ?_
    rintro r s₁ ⟨hguest, hown₁, -, -⟩
    rw [add_zero] at hown₁
    replace hguest : GuestTree s₁.words r := hguest
    obtain ⟨n, hN, hfree⟩ := hown₁.2.next
    have hsix : n = 6 := by
      have hcard := congrArg Multiset.card hN
      rw [show treeTables (tables.read s₁) size2MB r = _ from hguest.tables_eq, Multiset.coe_card,
        Multiset.coe_card, State.nextPages, List.length_map, List.length_range] at hcard
      exact hcard.symm
    have hpage : ∀ t ∈ guestList s₁.words r, t ∈ treeTables s₁.words size2MB r ∧ t ≠ 0 ∧
        IsPage (2 ^ 48) t := fun t ht => by
      have hmem : t ∈ treeTables s₁.words size2MB r := by
        rw [hguest.tables_eq]
        exact Multiset.mem_coe.mpr ht
      obtain ⟨hal, hin⟩ := hown₁.2.inside t hmem
      exact ⟨hmem, (hown₁.1.addr t hmem).1, hal, hin.trans hsize⟩
    refine (nested_new hlaw (Or.inl rfl) hscreen.1 hscreen.2.1 hscreen.2.2 hown₁).bind
      fun e s₂ n₂ => ?_
    have hnull : ¬ NullTables .ept size4KB [.map screenRegion] := fun hn =>
      absurd (hn 0xB8000 (by norm_num)) (by decide)
    refine record_spec mapStop addr info (bootAccess info.vm) hlaw hC hguest hpage hinfo
      bootAccess_prot hnull n₂ fun s₃ n₃ => ?_
    refine (n₃.map hlaw (Or.inl rfl) hapic.1 hapic.2.1 hapic.2.2 fun hn => hnull hn.of_append).bind
      fun _ s₄ n₄ => ?_
    rw [wp_pure]
    have hread : ∀ t ∈ treeTables s₁.words size2MB r, s₄.words t = s₁.words t := n₄.keeps
    obtain ⟨hguest', hlist⟩ := hguest.congr hread
    refine ⟨hguest', fun v hv => ?_, ?_, fun t ht => (hpage t (hlist ▸ ht)).2.2⟩
    · have haddr : ∀ a ∈ treeTables s₄.words size4KB e, a ≠ 0 ∧ a < 2 ^ 52 := fun a ha =>
        hlaw.owned_addr s₄ _ n₄.owned a (Multiset.mem_add.mpr (Or.inl ha))
      refine (n₄.realizes.walk (Or.inl rfl) n₄.tree haddr hv).trans ?_
      refine congrArg (fun ops => translationOf .ept size4KB ops v) ?_
      dsimp only
      rw [bootRegions, hlist, List.map_append, List.map_append]
      rfl
    · rw [treeTables_congr hread, ← hsix]
      exact hN

end Spec

section Funded

variable {b : State} {n addr : ℕ} {info : CpuInfo}

/-- With enough room `ept_map_memory_other` does not fail for lack of memory. -/
theorem eptMapMemoryOther_funded (h : b.Room (n + (19976 + recordCost info.vm))) :
    wp (eptMapMemoryOther false addr info) (fun _ b' => b'.Room n) OtherStop b := by
  have hO := tables_funded
  have hstop : ∀ q n b, b.Room n → q ≠ .panic .allocFailed → OtherStop (mapStop q) b :=
    fun q _ b _ => mapStop_other q b
  have hcost : regionCost size4KB 0xB8000 0xB9000 = 4 ∧
      regionCost size4KB 0xFEE00000 0x100000000 = 13825 := by decide
  unfold eptMapMemoryOther
  refine (guestTables_funded (n := n + recordCost info.vm + 13829) hO hstop
    (hO.of_le h (by omega))).bind fun r s₁ h₁ => ?_
  refine (mapRegion_funded (n := n + recordCost info.vm + 13825) hO hstop
    (hO.of_le h₁ (by omega))).bind fun e s₂ h₂ => ?_
  refine record_funded (n := n + 13825) mapStop info (bootAccess info.vm) hO hstop rfl
    (hO.of_le h₂ (by omega)) fun s₃ h₃ => ?_
  have hapic : wp (eptUpdate e 0xFEE00000 (size1GB * 4) 0xFEE00000 mtypeUc (eptWrite ||| eptRead))
      (fun _ b' => b'.Room n) OtherStop s₃ :=
    PmapOp.run_funded (t := .ept) (.map apicRegion) hO hstop (hO.of_le h₃ (by
      rw [PmapOp.cost, show apicRegion.start = 0xFEE00000 from rfl,
        show apicRegion.stop = 0x100000000 from rfl]
      omega))
  exact hapic.bind fun _ s₄ h₄ => h₄

end Funded

end Savannah.Stage2
