import Savannah.Pm.Exit

/-!
# Exec

`load_elf` gives a VM the sections of a new program and releases those of the old one, and
`ept_pmap` builds its tables anew.

A program without bss leaves the place and the size of the old bss in the record, although the old
bss is released.  So the books are kept if a program without bss is loaded only by a VM without
bss (`localExec_books`).
-/

namespace Savannah

open Foundation PmState MemoryState

section Sections

variable {pool a n c : ℕ} {V : Finset ℕ} {maps : ℕ → View} {X S : Multiset (ℕ × ℕ)}
  {s s' t : PmState} {E : PmStop → PmState → Prop}

/-- A section that is loaded. -/
structure Loaded (h : Phdr) (sec : VmSection) (s s' : PmState) : Prop where
  vaddr : sec.vaddr = h.vaddr
  size : sec.size = h.memsz
  alloc : Allocated (pages h.memsz size4KB) sec.paddr s s'

/-- A section is loaded. -/
theorem loadSection_spec (h : Account pool V maps X S s) (hdr : Phdr) :
    wp (loadSection hdr) (fun sec s' => Account pool V maps (sec.block + X) S s' ∧
      Loaded hdr sec s s') E s := by
  unfold loadSection
  dsimp only
  refine wp_ite.mpr ⟨fun _ => ?_, fun h0 => ?_⟩
  · refine (h.alloc _).bind ?_
    rintro a t ⟨ht, hal⟩
    exact ⟨ht, rfl, rfl, hal⟩
  · refine ⟨?_, rfl, rfl, ⟨s.memory, s.allocFailed, rfl⟩, .refl _, id, fun _ hpos => ?_⟩
    · rw [VmSection.block, blockAt_zero, zero_add]
      exact h
    · have hzero : hdr.memsz = 0 := by omega
      rw [hzero] at hpos
      exact absurd hpos (lt_irrefl 0)

/-- Filling a section of the record of `c`. -/
theorem OnlyVm.load {hdr : Phdr} {k : Pm Unit} {f : VmSection → VmProc → VmProc}
    {Q : Unit → PmState → Prop} (o : OnlyVm c s s') (h : Account pool V maps X S s') (hc : c ∉ V)
    (hk : ∀ sec t, OnlyVm c s t → Account pool V maps (sec.block + X) S t →
      (t.cpus c).vm = f sec (s'.cpus c).vm → sec.vaddr = hdr.vaddr ∧ sec.size = hdr.memsz →
      (s'.allocFailed = true → t.allocFailed = true) →
      (t.allocFailed = false → 0 < sec.size → sec.paddr ≠ 0) → wp k Q E t) :
    wp (do
      let sec ← loadSection hdr
      modify (PmState.updateVm c (f sec))
      k) Q E s' := by
  refine (loadSection_spec h hdr).bind ?_
  rintro sec t ⟨ht, hvaddr, hsize, hal⟩
  rw [wp_bind, wp_modify]
  refine hk sec _ ((o.alloc hal).updateVm (f sec)) (ht.updateVm hc (f sec)) ?_ ⟨hvaddr, hsize⟩
    hal.failed fun hok hpos => hal.granted hok ?_
  · rw [updateVm_cpus, hal.cpus]
  · rw [hsize] at hpos
    exact pages_pos hpos

/-- The record after `load_elf`: the sections of the file, and a stack of 2MB behind them. -/
structure VmProc.Loaded (v : VmProc) (h₁ h₂ h₃ h₄ : Phdr) : Prop where
  code : v.code.vaddr = h₁.vaddr ∧ v.code.size = h₁.memsz
  data : v.data.vaddr = h₂.vaddr ∧ v.data.size = h₂.memsz
  rodata : v.rodata.vaddr = h₃.vaddr ∧ v.rodata.size = h₃.memsz
  bss : v.bss.vaddr = h₄.vaddr ∧ v.bss.size = h₄.memsz
  stack : v.stack.vaddr = alignPage ((h₄.vaddr + h₄.memsz) % 2 ^ 64) ∧ v.stack.size = size2MB

/-- The fields of a record that `load_elf` does not assign. -/
def VmProc.unloaded (v : VmProc) : ℕ × ℕ × ℕ × ℤ × VmState × ℕ × ℕ :=
  (v.pageTables, v.ept, v.parent, v.exitStatus, v.state, v.fds, v.channels)

/-- What the record and the account say when the sections of the file are loaded. -/
structure LoadedTo (pool : ℕ) (V : Finset ℕ) (maps : ℕ → View) (X S : Multiset (ℕ × ℕ))
    (c : ℕ) (s s' : PmState) : Prop where
  only : OnlyVm c s s'
  account : Account pool V maps ((s'.cpus c).vm.data.block + (s'.cpus c).vm.bss.block + X)
    ((s'.cpus c).vm.shared + S) s'
  unloaded : (s'.cpus c).vm.unloaded = (s.cpus c).vm.unloaded
  backed : s'.allocFailed = false →
    ∀ sec ∈ [(s'.cpus c).vm.code, (s'.cpus c).vm.data, (s'.cpus c).vm.rodata, (s'.cpus c).vm.bss],
      0 < sec.size → sec.paddr ≠ 0

/-- The stack of the new program; `g` assigns the end of its memory. -/
theorem loadStack_spec {vaddr rsp : ℕ} {g : VmProc → VmProc} (h : LoadedTo pool V maps X S c s s')
    (hc : c ∉ V) (hg : ∀ v, (g v).unloaded = v.unloaded ∧ (g v).sections = v.sections) :
    wp (do
      modify (PmState.updateVm c fun v =>
        { v with stack := { v.stack with vaddr := vaddr, size := size2MB } })
      let a ← allocPages (pages size2MB size4KB)
      modify (PmState.updateVm c fun v => { v with
        stack := { v.stack with paddr := a }
        regs := { v.regs with rsp := rsp, rflags := 0x2 } })
      modify (PmState.updateVm c g) : Pm Unit) (fun _ t => OnlyVm c s t ∧
      (t.cpus c).vm.unloaded = (s.cpus c).vm.unloaded ∧
      (t.allocFailed = false → (t.cpus c).vm.Backed) ∧
      Account pool V maps ((t.cpus c).vm.ownSections + X) ((t.cpus c).vm.shared + S) t ∧
      ∃ a, (t.cpus c).vm.sections = [(s'.cpus c).vm.code, (s'.cpus c).vm.data,
        (s'.cpus c).vm.rodata, (s'.cpus c).vm.bss, ⟨a, vaddr, size2MB⟩]) E s' := by
  obtain ⟨o, hacc, hun, hbacked⟩ := h
  rw [wp_bind, wp_modify]
  have o₁ := o.updateVm
    fun v => { v with stack := { v.stack with vaddr := vaddr, size := size2MB } }
  have h₁ := hacc.updateVm hc fun v =>
    { v with stack := { v.stack with vaddr := vaddr, size := size2MB } }
  have v₁ := congrArg CpuInfo.vm (updateVm_cpus s' c fun v =>
    { v with stack := { v.stack with vaddr := vaddr, size := size2MB } })
  have f₁ : (s'.updateVm c fun v => { v with
    stack := { v.stack with vaddr := vaddr, size := size2MB } }).allocFailed = s'.allocFailed := rfl
  generalize s'.updateVm c _ = s₁ at o₁ h₁ v₁ f₁ ⊢
  refine o₁.assign hc (h₁.alloc _) fun stack s₂ o₂ h₂ v₂ f₂ g₂ => ?_
  rw [wp_modify]
  have v₃ : ((s₂.updateVm c g).cpus c).vm = g (s₂.cpus c).vm := by rw [updateVm_cpus]
  obtain ⟨hgun, hgsec⟩ := hg (s₂.cpus c).vm
  rw [← v₃] at hgun hgsec
  have hsec : (s₂.cpus c).vm.sections = [(s'.cpus c).vm.code, (s'.cpus c).vm.data,
      (s'.cpus c).vm.rodata, (s'.cpus c).vm.bss, ⟨stack, vaddr, size2MB⟩] := by
    rw [v₂, v₁]
    rfl
  have hun₂ : (s₂.cpus c).vm.unloaded = (s'.cpus c).vm.unloaded := by
    rw [v₂, v₁]
    rfl
  rw [hsec] at hgsec
  have hfive := hgsec
  simp only [VmProc.sections, List.cons.injEq, and_true] at hfive
  obtain ⟨hcode, hdata, hrodata, hbss, hstack⟩ := hfive
  refine ⟨o₂.updateVm g, hgun.trans (hun₂.trans hun), fun hok => ?_, ?_, stack, hgsec⟩
  · have hok' : s'.allocFailed = false := f₁ ▸ not_failed f₂ hok
    have hfour := hbacked hok'
    unfold VmProc.Backed
    rw [hgsec]
    simp only [List.forall_mem_cons] at hfour ⊢
    exact ⟨hfour.1, hfour.2.1, hfour.2.2.1, hfour.2.2.2.1, fun _ => g₂ hok (by decide),
      fun _ h => absurd h List.not_mem_nil⟩
  · have h₃ := h₂.updateVm hc g
    have hown : ((s₂.updateVm c g).cpus c).vm.ownSections + X =
        blockAt stack (pages size2MB size4KB) +
          ((s'.cpus c).vm.data.block + (s'.cpus c).vm.bss.block + X) := by
      rw [VmProc.ownSections, hdata, hbss, hstack]
      change _ + blockAt stack (pages size2MB size4KB) + X = _
      abel
    have hshared : ((s₂.updateVm c g).cpus c).vm.shared = (s'.cpus c).vm.shared := by
      rw [VmProc.shared, hcode, hrodata]
      rfl
    rw [hown, hshared]
    exact h₃

/-- The record when code, data and rodata are loaded: `bss` is still the old one. -/
structure FirstLoaded (pool : ℕ) (V : Finset ℕ) (maps : ℕ → View) (X S : Multiset (ℕ × ℕ))
    (h₁ h₂ h₃ : Phdr) (c : ℕ) (s s' : PmState) : Prop where
  only : OnlyVm c s s'
  account : Account pool V maps ((s'.cpus c).vm.data.block + X) ((s'.cpus c).vm.shared + S) s'
  code : (s'.cpus c).vm.code.vaddr = h₁.vaddr ∧ (s'.cpus c).vm.code.size = h₁.memsz
  data : (s'.cpus c).vm.data.vaddr = h₂.vaddr ∧ (s'.cpus c).vm.data.size = h₂.memsz
  rodata : (s'.cpus c).vm.rodata.vaddr = h₃.vaddr ∧ (s'.cpus c).vm.rodata.size = h₃.memsz
  bss : (s'.cpus c).vm.bss = (s.cpus c).vm.bss
  unloaded : (s'.cpus c).vm.unloaded = (s.cpus c).vm.unloaded
  backed : s'.allocFailed = false →
    ∀ sec ∈ [(s'.cpus c).vm.code, (s'.cpus c).vm.data, (s'.cpus c).vm.rodata],
      0 < sec.size → sec.paddr ≠ 0

/-- Code, data and rodata. -/
theorem loadFirst_spec {h₁ h₂ h₃ : Phdr} {P : Prop} {k : Pm Unit} {Q : Unit → PmState → Prop}
    (h : Account pool V maps X S s) (hc : c ∉ V) (hP : P → 0 < h₁.memsz)
    (hk : ∀ t, FirstLoaded pool V maps X S h₁ h₂ h₃ c s t → wp k Q (Halts P) t) :
    wp (do
      modify (PmState.updateVm c fun v => { v with startVaddr := h₁.vaddr })
      let sec ← loadSection h₁
      if h₁.memsz = 0 then
        throw (.panic .noCode)
      modify (PmState.updateVm c fun v => { v with
        startPaddr := sec.paddr, code := sec, regs := { v.regs with rip := v.startVaddr } })
      let sec ← loadSection h₂
      modify (PmState.updateVm c fun v => { v with data := sec })
      let sec ← loadSection h₃
      modify (PmState.updateVm c fun v => { v with rodata := sec })
      k) Q (Halts P) s := by
  rw [wp_bind, wp_modify]
  have o₀ := (OnlyVm.refl c s).updateVm fun v => { v with startVaddr := h₁.vaddr }
  have a₀ := h.updateVm hc fun v => { v with startVaddr := h₁.vaddr }
  have d₀ : ((s.updateVm c fun v => { v with startVaddr := h₁.vaddr }).cpus c).vm.bss =
      (s.cpus c).vm.bss ∧
      ((s.updateVm c fun v => { v with startVaddr := h₁.vaddr }).cpus c).vm.unloaded =
      (s.cpus c).vm.unloaded := by
    rw [updateVm_cpus]
    exact ⟨rfl, rfl⟩
  generalize s.updateVm c _ = s₀ at o₀ a₀ d₀ ⊢
  -- code
  refine (loadSection_spec a₀ h₁).bind ?_
  rintro code s₁ ⟨a₁, hcv, hcs, hal⟩
  refine wp_ite.mpr ⟨fun h0 => ⟨nofun, Or.inr fun hp => ?_⟩, fun _ => ?_⟩
  · have := hP hp
    omega
  rw [wp_bind, wp_modify]
  set f : VmProc → VmProc := fun v => { v with
    startPaddr := code.paddr, code := code, regs := { v.regs with rip := v.startVaddr } }
  have o₂ := (o₀.alloc hal).updateVm f
  have a₂ := (a₁.share).updateVm hc f
  have d₂ : ((s₁.updateVm c f).cpus c).vm.code = code ∧
      ((s₁.updateVm c f).cpus c).vm.bss = (s.cpus c).vm.bss ∧
      ((s₁.updateVm c f).cpus c).vm.unloaded = (s.cpus c).vm.unloaded := by
    rw [updateVm_cpus, hal.cpus]
    exact ⟨rfl, d₀.1, d₀.2⟩
  have g₂ : (s₁.updateVm c f).allocFailed = false → 0 < code.size → code.paddr ≠ 0 := by
    intro hok hsize
    rw [hcs] at hsize
    exact hal.granted hok (pages_pos hsize)
  generalize s₁.updateVm c f = s₂ at o₂ a₂ d₂ g₂ ⊢
  -- data
  refine o₂.load a₂ hc fun data s₃ o₃ a₃ v₃ hdata f₃ g₃ => ?_
  have d₃ : (s₃.cpus c).vm.code = code ∧ (s₃.cpus c).vm.data = data ∧
      (s₃.cpus c).vm.bss = (s.cpus c).vm.bss ∧
      (s₃.cpus c).vm.unloaded = (s.cpus c).vm.unloaded := by
    rw [v₃]
    exact ⟨d₂.1, rfl, d₂.2.1, d₂.2.2⟩
  -- rodata
  refine o₃.load a₃ hc fun rodata s₄ o₄ a₄ v₄ hrodata f₄ g₄ => ?_
  have d₄ : (s₄.cpus c).vm.code = code ∧ (s₄.cpus c).vm.data = data ∧
      (s₄.cpus c).vm.rodata = rodata ∧ (s₄.cpus c).vm.bss = (s.cpus c).vm.bss ∧
      (s₄.cpus c).vm.unloaded = (s.cpus c).vm.unloaded := by
    rw [v₄]
    exact ⟨d₃.1, d₃.2.1, rfl, d₃.2.2.1, d₃.2.2.2⟩
  have a₄' := a₄.share
  obtain ⟨c₁, c₂, c₃, c₄, c₅⟩ := d₄
  refine hk s₄ ⟨o₄, ?_, by rw [c₁]; exact ⟨hcv, hcs⟩, by rw [c₂]; exact hdata,
    by rw [c₃]; exact hrodata, c₄, c₅, fun hok => ?_⟩
  · rw [VmProc.shared, c₁, c₂, c₃, show code.block + rodata.block + S =
      rodata.block + (code.block + S) by abel]
    exact a₄'
  · have hok₃ := not_failed f₄ hok
    rw [c₁, c₂, c₃]
    simp only [List.forall_mem_cons]
    exact ⟨g₂ (not_failed f₃ hok₃), g₃ hok₃, g₄ hok, fun _ h => absurd h List.not_mem_nil⟩

/-- The end of the memory of a VM, which `load_elf` computes from the places of the first and of the
last section. -/
def VmProc.setEnd (v : VmProc) : VmProc :=
  let size := (v.stack.paddr + v.stack.size + 2 ^ 64 - v.startPaddr) % 2 ^ 64
  { v with
    endVaddr := (v.startVaddr + size) % 2 ^ 64
    endPaddr := (v.startPaddr + size) % 2 ^ 64 }

theorem ends_sections (v : VmProc) (a b : ℕ) :
    ({ v with endVaddr := a, endPaddr := b } : VmProc).sections = v.sections :=
  rfl

theorem ends_unloaded (v : VmProc) (a b : ℕ) :
    ({ v with endVaddr := a, endPaddr := b } : VmProc).unloaded = v.unloaded :=
  rfl

theorem setEnd_unloaded_sections (v : VmProc) :
    v.setEnd.unloaded = v.unloaded ∧ v.setEnd.sections = v.sections :=
  ⟨ends_unloaded v _ _, ends_sections v _ _⟩

/-- The place of the bss is assigned; the rest of the record is the same. -/
def VmProc.setBssVaddr (v : VmProc) (vaddr : ℕ) : VmProc :=
  { v with bss := { v.bss with vaddr := vaddr } }

theorem setBssVaddr_bss (v : VmProc) (vaddr : ℕ) :
    (v.setBssVaddr vaddr).bss = ⟨v.bss.paddr, vaddr, v.bss.size⟩ :=
  rfl

/-- The bss of the new program.  Without one the old bss remains in the record. -/
theorem loadBss_spec {h₁ h₂ h₃ h₄ : Phdr} {k : Pm Unit} {Q : Unit → PmState → Prop}
    (h : FirstLoaded pool V maps X S h₁ h₂ h₃ c s s') (hc : c ∉ V)
    (hbss : h₄.memsz = 0 → (s.cpus c).vm.bss.size = 0 ∧ (s.cpus c).vm.bss.paddr = 0)
    (hk : ∀ t, LoadedTo pool V maps X S c s t →
      (t.cpus c).vm.code = (s'.cpus c).vm.code → (t.cpus c).vm.data = (s'.cpus c).vm.data →
      (t.cpus c).vm.rodata = (s'.cpus c).vm.rodata → (t.cpus c).vm.bss.vaddr = h₄.vaddr →
      (t.cpus c).vm.bss.size = h₄.memsz → wp k Q E t) :
    wp (do
      modify (PmState.updateVm c (VmProc.setBssVaddr · h₄.vaddr))
      if h₄.memsz > 0 then
        let a ← allocPages (pages h₄.memsz size4KB)
        modify (PmState.updateVm c fun v => { v with
          bss := { v.bss with paddr := a, size := h₄.memsz } })
      k) Q E s' := by
  obtain ⟨o, hacc, -, -, -, hold, hun, hbacked⟩ := h
  rw [wp_bind, wp_modify]
  have o₁ := o.updateVm (VmProc.setBssVaddr · h₄.vaddr)
  have a₁ := hacc.updateVm hc (VmProc.setBssVaddr · h₄.vaddr)
  have v₁ : ((s'.updateVm c (VmProc.setBssVaddr · h₄.vaddr)).cpus c).vm =
      (s'.cpus c).vm.setBssVaddr h₄.vaddr := by rw [updateVm_cpus]
  have f₁ : (s'.updateVm c (VmProc.setBssVaddr · h₄.vaddr)).allocFailed = s'.allocFailed := rfl
  generalize s'.updateVm c _ = s₁ at o₁ a₁ v₁ f₁ ⊢
  have hshared : (s₁.cpus c).vm.shared = (s'.cpus c).vm.shared := by
    rw [v₁]
    rfl
  have hun₁ : (s₁.cpus c).vm.unloaded = (s.cpus c).vm.unloaded := by
    rw [v₁]
    exact hun
  dsimp only
  refine wp_ite.mpr ⟨fun hpos => ?_, fun h0 => ?_⟩
  · refine o₁.assign hc (a₁.alloc _) fun a t o₂ a₂ v₂ f₂ g₂ => ?_
    have hbss₂ : (t.cpus c).vm.bss = ⟨a, h₄.vaddr, h₄.memsz⟩ := by
      rw [v₂, v₁]
      rfl
    have hrest : (t.cpus c).vm.code = (s'.cpus c).vm.code ∧
      (t.cpus c).vm.data = (s'.cpus c).vm.data ∧ (t.cpus c).vm.rodata = (s'.cpus c).vm.rodata := by
      rw [v₂, v₁]
      exact ⟨rfl, rfl, rfl⟩
    obtain ⟨hcode, hdata, hrodata⟩ := hrest
    refine hk t ⟨o₂, ?_, ?_, fun hok => ?_⟩ hcode hdata hrodata (by rw [hbss₂]) (by rw [hbss₂])
    · have hshared₂ : (t.cpus c).vm.shared = (s'.cpus c).vm.shared := by
        rw [VmProc.shared, hcode, hrodata, VmProc.shared]
      rw [hshared₂, hbss₂, hdata]
      convert a₂ using 1
      change _ + blockAt a (pages h₄.memsz size4KB) + X = _
      abel
    · rw [v₂]
      exact hun₁
    · have hthree := hbacked (f₁ ▸ not_failed f₂ hok)
      rw [hcode, hdata, hrodata, hbss₂]
      simp only [List.forall_mem_cons] at hthree ⊢
      exact ⟨hthree.1, hthree.2.1, hthree.2.2.1, fun _ => g₂ hok (pages_pos hpos),
        fun _ h => absurd h List.not_mem_nil⟩
  · have hzero : h₄.memsz = 0 := by omega
    obtain ⟨hsize, hpaddr⟩ := hbss hzero
    have hbss₁ : (s₁.cpus c).vm.bss = ⟨0, h₄.vaddr, h₄.memsz⟩ := by
      rw [v₁, setBssVaddr_bss, hold, hsize, hpaddr, hzero]
    have hrest : (s₁.cpus c).vm.code = (s'.cpus c).vm.code ∧
        (s₁.cpus c).vm.data = (s'.cpus c).vm.data ∧
        (s₁.cpus c).vm.rodata = (s'.cpus c).vm.rodata := by
      rw [v₁]
      exact ⟨rfl, rfl, rfl⟩
    obtain ⟨hcode, hdata, hrodata⟩ := hrest
    refine hk s₁ ⟨o₁, ?_, hun₁, fun hok => ?_⟩ hcode hdata hrodata (by rw [hbss₁]) (by rw [hbss₁])
    · rw [hshared, hdata, hbss₁]
      convert a₁ using 1
      change _ + blockAt 0 _ + X = _
      rw [blockAt_zero, add_zero]
    · have hthree := hbacked (f₁ ▸ hok)
      rw [hcode, hdata, hrodata, hbss₁, hzero]
      simp only [List.forall_mem_cons] at hthree ⊢
      exact ⟨hthree.1, hthree.2.1, hthree.2.2.1, fun h => absurd h (lt_irrefl 0),
        fun _ h => absurd h List.not_mem_nil⟩

/-- The sections of a program whose headers are `h₁` to `h₄`. -/
theorem loadSections_spec {h₁ h₂ h₃ h₄ : Phdr} {P : Prop} (h : Account pool V maps X S s)
    (hc : c ∉ V) (hbss : h₄.memsz = 0 → (s.cpus c).vm.bss.size = 0 ∧ (s.cpus c).vm.bss.paddr = 0)
    (hP : P → 0 < h₁.memsz) :
    wp (loadSections c h₁ h₂ h₃ h₄) (fun _ t => OnlyVm c s t ∧
      (t.cpus c).vm.unloaded = (s.cpus c).vm.unloaded ∧ (t.cpus c).vm.Loaded h₁ h₂ h₃ h₄ ∧
      (t.allocFailed = false → (t.cpus c).vm.Backed) ∧
      Account pool V maps ((t.cpus c).vm.ownSections + X) ((t.cpus c).vm.shared + S) t)
      (Halts P) s := by
  unfold loadSections
  refine loadFirst_spec h hc hP fun s₁ hfirst => ?_
  refine loadBss_spec hfirst hc hbss fun s₂ hloaded hcode hdata hrodata hvaddr hsize => ?_
  refine (loadStack_spec hloaded hc setEnd_unloaded_sections).mono ?_ fun _ _ he => he
  rintro - t ⟨o, hun, hbacked, hacc, a, hsec⟩
  simp only [VmProc.sections, List.cons.injEq, and_true] at hsec
  obtain ⟨e₁, e₂, e₃, e₄, e₅⟩ := hsec
  refine ⟨o, hun, ⟨?_, ?_, ?_, ?_, ?_⟩, hbacked, hacc⟩
  · rw [e₁, hcode]
    exact hfirst.code
  · rw [e₂, hdata]
    exact hfirst.data
  · rw [e₃, hrodata]
    exact hfirst.rodata
  · rw [e₄]
    exact ⟨hvaddr, hsize⟩
  · rw [e₅]
    exact ⟨rfl, rfl⟩

end Sections

/-! ### `local_exec` -/

/-- A program that PM can place: what is not empty starts at a page, below 4GB, and so does the
stack. -/
structure Program (h₁ h₂ h₃ h₄ : Phdr) : Prop where
  segments : ∀ h ∈ [h₁, h₂, h₃, h₄], 0 < h.memsz → h.vaddr % 4096 = 0 ∧ h.vaddr + h.memsz ≤ 2 ^ 32
  stack : alignPage ((h₄.vaddr + h₄.memsz) % 2 ^ 64) + size2MB ≤ 2 ^ 32

/-- A VM can execute a file: if the file has no bss, the VM has none either. -/
def Executable (v : VmProc) (args : ExecArgs) : Prop :=
  ∀ h₁ h₂ h₃ h₄, args.elf = some [h₁, h₂, h₃, h₄] →
    Program h₁ h₂ h₃ h₄ ∧ (h₄.memsz = 0 → v.bss.size = 0)

/-- What an exec of the VM `c` of `V` does: its view is new if the file was found. -/
structure Executed (pool : ℕ) (V : Finset ℕ) (maps : ℕ → View) (c : ℕ) (s s' : PmState) : Prop where
  books : ∃ maps', Books pool V maps' 0 0 s' ∧
    (maps' = maps ∧ (s'.cpus c).vm.holdings = (s.cpus c).vm.holdings ∨
      ∃ ts, maps' = Function.update maps c (s'.viewOf c ts (s'.extraPages (s'.cpus c).vm)))
  frame : FrameBut (s.own (V.erase c) + s.channelBlocks + (s.cpus c).vm.ownPages) c s s'
  pages : (s'.cpus c).vm.fds = (s.cpus c).vm.fds ∧ (s'.cpus c).vm.channels = (s.cpus c).vm.channels

section Exec

variable {pool c : ℕ} {V : Finset ℕ} {maps maps' : ℕ → View} {X S Y : Multiset (ℕ × ℕ)}
  {s s' t : PmState} {args : ExecArgs} {h₁ h₂ h₃ h₄ : Phdr}

/-- The sections are placed. -/
theorem VmProc.Loaded.placed {v : VmProc} (h : v.Loaded h₁ h₂ h₃ h₄) (hp : Program h₁ h₂ h₃ h₄) :
    ∀ sec ∈ v.sections, sec.Placed := by
  have hseg := hp.segments
  simp only [List.forall_mem_cons] at hseg
  obtain ⟨p₁, p₂, p₃, p₄, -⟩ := hseg
  simp only [VmProc.sections, List.forall_mem_cons, VmSection.Placed, h.code, h.data,
    h.rodata, h.bss, h.stack]
  refine ⟨p₁, p₂, p₃, p₄, fun _ => ⟨?_, hp.stack⟩, fun _ h => absurd h List.not_mem_nil⟩
  unfold alignPage
  exact Nat.mul_mod_left _ _

/-- An empty section of a VM has no memory. -/
theorem Account.bss_paddr (h : Account pool V maps X S s) (hc : c ∈ V)
    (hsize : (s.cpus c).vm.bss.size = 0) : (s.cpus c).vm.bss.paddr = 0 := by
  by_contra hne
  have hmem : ((s.cpus c).vm.bss.paddr, pages (s.cpus c).vm.bss.size size4KB) ∈ s.own V := by
    rw [own_eq hc]
    simp only [VmProc.own, VmProc.ownSections, VmSection.block, Multiset.mem_add, mem_blockAt hne,
      true_or, or_true]
  have hpos := (h.addr (n := pages (s.cpus c).vm.bss.size size4KB) (Multiset.mem_add.mpr (Or.inl
    (Multiset.mem_add.mpr (Or.inr (Multiset.mem_add.mpr (Or.inl hmem))))))).1
  rw [hsize] at hpos
  exact absurd hpos (by decide)

/-- `load_elf`: the new sections replace the old ones. -/
theorem loadElf_spec (h : Account pool V maps 0 0 s) (hc : c ∈ V)
    (hbss : h₄.memsz = 0 → (s.cpus c).vm.bss.size = 0) :
    wp (loadElf c [h₁, h₂, h₃, h₄]) (fun _ t =>
      Account pool (V.erase c) maps ((t.cpus c).vm.own + 0) ((t.cpus c).vm.shared + 0) t ∧
      OnlyVm c s t ∧ (t.cpus c).vm.unloaded = (s.cpus c).vm.unloaded ∧
      (t.cpus c).vm.Loaded h₁ h₂ h₃ h₄ ∧ (t.allocFailed = false → (t.cpus c).vm.Backed))
      (Halts False) s := by
  have hmapped := h.mapped c hc
  have htake := h.take hc
  unfold loadElf
  rw [wp_bind, wp_get]
  dsimp only
  refine (loadSections_spec (P := False) htake (Finset.notMem_erase c V)
    (fun h0 => ⟨hbss h0, h.bss_paddr hc (hbss h0)⟩) False.elim).bind ?_
  rintro - s₁ ⟨o₁, hun, hloaded, hbacked, h₁⟩
  have hpages : (s₁.cpus c).vm.ownPages = (s.cpus c).vm.ownPages := by
    simp only [VmProc.unloaded, Prod.mk.injEq] at hun
    unfold VmProc.ownPages
    rw [hun.2.2.2.2.2.1, hun.2.2.2.2.2.2]
  set old := (s.cpus c).vm with hold
  have h₁' : Account pool (V.erase c) maps (pageBlocks (old.tables s₁.words) +
      (old.ownSections + ((s₁.cpus c).vm.own + 0))) (old.shared + ((s₁.cpus c).vm.shared + 0))
      s₁ := by
    rw [o₁.words.1, VmProc.own, hpages]
    convert h₁ using 1
    · rw [VmProc.own]
      abel
    · abel
  rw [← o₁.words.1] at hmapped
  refine (h₁'.releaseVm hmapped).mono ?_ fun _ _ he => he
  rintro - s₂ ⟨h₂, m, rfl, hlay⟩
  refine ⟨h₂, ?_, hun, hloaded, hbacked⟩
  have hlay' := o₁.layout.trans hlay
  have hfail := o₁.failed
  obtain ⟨m', b, f, rfl⟩ := o₁.same
  exact ⟨⟨m, b, f, rfl⟩, hlay', hfail⟩

theorem saveArgs_spec : wp (saveArgs c args) (fun _ s' => s' = s) (Halts False) s := by
  unfold saveArgs
  rw [wp_bind, wp_get]
  dsimp only
  refine (wp_forM_const (I := fun s' => s' = s) (fun a _ s' hs' => ?_) rfl).bind ?_
  · rw [wp_bind]
    exact wp_translate (fun _ _ => hs') fun _ => ⟨nofun, Or.inr id⟩
  rintro - s' rfl
  refine (wp_forM_const (I := fun t => t = s') (fun a _ t ht => ?_) rfl).bind ?_
  · exact wp_ite.mpr ⟨fun _ => ⟨nofun, Or.inr id⟩, fun _ => ht⟩
  rintro - t rfl
  rfl

/-- The books when only the record of `c` and pages that are not `Y` have changed. -/
theorem Books.of_frameBut (h : Books pool V maps 0 0 s) (hacc : Account pool V maps' 0 0 s')
    (hf : FrameBut Y c s s') (hV : ∀ d, (s.cpus d).vm.channels ≠ 0 → d ∈ V)
    (hY : ∀ d, (s.cpus d).vm.channels ≠ 0 → ((s.cpus d).vm.channels, 1) ∈ Y)
    (hch : (s'.cpus c).vm.channels = (s.cpus c).vm.channels) : Books pool V maps' 0 0 s' := by
  have hch' : ∀ d, (s'.cpus d).vm.channels = (s.cpus d).vm.channels := by
    intro d
    by_cases hd : d = c
    · rw [hd, hch]
    · rw [hf.other hd]
  have hlists : s'.channelsOf = s.channelsOf := by
    unfold PmState.channelsOf
    rw [hf.openChannels]
  refine ⟨hacc, ⟨fun d hne => ?_, fun d e hne heq => ?_⟩, fun d hne => ?_, fun d h0 => ?_⟩
  · rw [hch'] at hne ⊢
    rw [hf.words _ 1 (hY d hne), hlists]
    exact h.arrays.array d hne
  · rw [hch'] at hne heq
    rw [hch'] at heq
    exact h.arrays.apart d e hne heq
  · rw [add_zero]
    refine mem_own_of_channels (hV d ?_) hne
    rwa [hch'] at hne
  · rw [hch'] at h0
    rw [hlists]
    exact h.listed d h0

/-- Passing arguments keeps the books. -/
theorem passArgs_books {saved : List (List ℕ)} (h : Books pool V maps 0 0 s)
    (Y : Multiset (ℕ × ℕ)) :
    wp (passArgs c saved) (fun _ s' => Books pool V maps 0 0 s' ∧ FrameBut Y c s s' ∧
      (s'.cpus c).vm.holdings = (s.cpus c).vm.holdings) (Halts False) s := by
  unfold passArgs
  rw [wp_bind, wp_get]
  dsimp only
  rw [wp_bind]
  refine wp_translate (fun top _ => ?_) fun _ => ⟨nofun, Or.inr id⟩
  rw [wp_bind]
  refine wp_writeUser (fun _ => ?_) fun _ => ⟨nofun, Or.inr id⟩
  rw [wp_modify]
  generalize hg : (fun v : VmProc => ({ v with regs := _ } : VmProc)) = g
  have hhold : ∀ v, (g v).holdings = v.holdings := by
    intro v
    rw [← hg]
    rfl
  have hchan : ∀ v : VmProc, (g v).channels = v.channels := by
    intro v
    rw [← hg]
  refine ⟨h.update (fun d _ => updateVm_vm c d s VmProc.holdings hhold)
    (fun d => updateVm_vm c d s VmProc.channels hchan) rfl rfl rfl rfl,
    ⟨⟨g, rfl⟩, fun _ _ _ => rfl, fun _ _ _ => rfl, .refl _, id⟩,
    updateVm_vm c c s VmProc.holdings hhold⟩

/-- The tables of the new program, and its arguments. -/
theorem execBuild_spec (saved : List (List ℕ)) (h : Books pool V maps 0 0 s) (hc : c ∈ V)
    (hV : ∀ d, (s.cpus d).vm.channels ≠ 0 → d ∈ V)
    (hpages : ∀ p ∈ (s.cpus c).ownPages (s.infoAddr c), IsPage (2 ^ 32) p.1)
    (hoff : (s.cpus c).vm.fds ≠ 0 →
      ∀ i < maxFd, (s.fdTable (s.cpus c).vm.fds i).offset + 4096 ≤ 2 ^ 32)
    (ht : Account pool (V.erase c) maps ((t.cpus c).vm.own + 0) ((t.cpus c).vm.shared + 0) t)
    (ho : OnlyVm c s t) (hun : (t.cpus c).vm.unloaded = (s.cpus c).vm.unloaded)
    (hplaced : ∀ sec ∈ (t.cpus c).vm.sections, sec.Placed)
    (hbacked : t.allocFailed = false → (t.cpus c).vm.Backed) :
    wp (do eptPmap c; passArgs c saved) (fun _ s' => Executed pool V maps c s s')
    (Halts False) t := by
  simp only [VmProc.unloaded, Prod.mk.injEq] at hun
  obtain ⟨-, -, -, -, -, hfds, hch⟩ := hun
  have hown : (t.cpus c).vm.ownPages = (s.cpus c).vm.ownPages := by
    unfold VmProc.ownPages
    rw [hfds, hch]
  have hf := ho.frameBut (s.own (V.erase c) + s.channelBlocks + (s.cpus c).vm.ownPages)
  have hnot := Finset.notMem_erase c V
  refine (ht.build hnot ?_ hplaced ?_ hbacked (fun _ => Halts.alloc)
    fun _ => Halts.map id).bind ?_
  · rw [hf.cpuPages]
    exact hpages
  · rw [hfds, ho.words.2]
    exact hoff
  rintro - s₁ ⟨r, e, h₁, f₁, -⟩
  rw [Finset.insert_erase hc] at h₁
  have hle : s.own (V.erase c) + s.channelBlocks + (s.cpus c).vm.ownPages ≤
      t.own (V.erase c) + (t.channelBlocks + ((t.cpus c).vm.own + 0)) := by
    rw [hf.own hnot, hf.channelBlocks, ← hown, add_zero, ← add_assoc]
    exact add_le_add_right (Multiset.le_add_left _ _) _
  have hf' := f₁.frameBut.of_le hle
  have hf₁ := hf.trans hf'
  have hrec : (s₁.cpus c).vm = { (t.cpus c).vm with pageTables := r, ept := e } := by
    rw [f₁.cpus, updateVm_cpus]
  have harrays : ∀ d, (s.cpus d).vm.channels ≠ 0 → ((s.cpus d).vm.channels, 1) ∈
      s.own (V.erase c) + s.channelBlocks + (s.cpus c).vm.ownPages := by
    intro d hne
    by_cases hd : d = c
    · subst hd
      exact Multiset.mem_add.mpr (Or.inr (Multiset.mem_add.mpr (Or.inr (mem_blockAt hne))))
    · exact Multiset.mem_add.mpr (Or.inl (Multiset.mem_add.mpr (Or.inl
        (mem_own_of_channels (Finset.mem_erase.mpr ⟨hd, hV d hne⟩) hne))))
  have hbooks := h.of_frameBut h₁ hf₁ hV harrays (by rw [hrec]; exact hch)
  refine (passArgs_books hbooks
    (s.own (V.erase c) + s.channelBlocks + (s.cpus c).vm.ownPages)).mono ?_ fun _ _ he => he
  rintro - s₂ ⟨h₂, f₂, hhold⟩
  simp only [VmProc.holdings, Prod.mk.injEq] at hhold
  have hview : s₂.viewOf c (guestList s₁.words r) (s₂.extraPages (s₂.cpus c).vm) =
      t.viewOf c (guestList s₁.words r) (t.extraPages (t.cpus c).vm) := by
    have hpage : (t.cpus c).vm.fds ≠ 0 → ((t.cpus c).vm.fds, 1) ∈
        s.own (V.erase c) + s.channelBlocks + (s.cpus c).vm.ownPages := by
      intro hne
      rw [← hown]
      exact Multiset.mem_add.mpr (Or.inr (Multiset.mem_add.mpr (Or.inl (mem_blockAt hne))))
    have hframe := hf'.trans f₂
    rw [viewOf_congr hframe.cpuPages (by rw [hhold.1, hrec]; rfl), extraPages_congr
      (by rw [hhold.2.2.2.1, hrec]) (by rw [hhold.2.2.2.2, hrec])
      fun hne => hframe.fdTable _ 1 (hpage hne)]
  refine ⟨⟨_, h₂, Or.inr ⟨guestList s₁.words r, by rw [hview]⟩⟩, hf₁.trans f₂, ?_, ?_⟩
  · rw [hhold.2.2.2.1, hrec]
    exact hfds
  · rw [hhold.2.2.2.2, hrec]
    exact hch

/-- `local_exec` -/
theorem localExec_books (h : Books pool V maps 0 0 s) (hm : s.machine.Sound) (hc : c ∈ V)
    (hlt : c < s.ncpus) (hV : ∀ d, (s.cpus d).vm.channels ≠ 0 → d ∈ V)
    (hoff : (s.cpus c).vm.fds ≠ 0 →
      ∀ i < maxFd, (s.fdTable (s.cpus c).vm.fds i).offset + 4096 ≤ 2 ^ 32)
    (hx : Executable (s.cpus c).vm args) :
    wp (localExec c args) (fun _ s' => Executed pool V maps c s s') (Halts False) s := by
  have hncpus : s.ncpus ≤ maxCpus := hm.ncpus_le
  unfold localExec
  rw [wp_bind]
  refine wp_derefCpu (fun _ => ?_) fun hlt' => absurd hlt' (by omega)
  cases helf : args.elf with
  | none =>
    dsimp only
    rw [wp_bind, wp_modify, wp_pure]
    refine ⟨⟨maps, ?_, Or.inl ⟨rfl, ?_⟩⟩, ⟨⟨_, rfl⟩, fun _ _ _ => rfl, fun _ _ _ => rfl,
      .refl _, id⟩, ?_, ?_⟩
    · exact h.update (fun d _ => updateVm_vm c d s VmProc.holdings fun _ => rfl)
        (fun d => updateVm_vm c d s VmProc.channels fun _ => rfl) rfl rfl rfl rfl
    · exact updateVm_vm c c s VmProc.holdings fun _ => rfl
    · exact updateVm_vm c c s VmProc.fds fun _ => rfl
    · exact updateVm_vm c c s VmProc.channels fun _ => rfl
  | some elf =>
    dsimp only
    refine saveArgs_spec.bind ?_
    rintro saved s' rfl
    by_cases hform : ∃ h₁ h₂ h₃ h₄, elf = [h₁, h₂, h₃, h₄]
    · obtain ⟨h₁, h₂, h₃, h₄, rfl⟩ := hform
      obtain ⟨hprog, hbss⟩ := hx h₁ h₂ h₃ h₄ helf
      refine (loadElf_spec h.account hc hbss).bind ?_
      rintro - t ⟨ht, ho, hun, hloaded, hbacked⟩
      have hbuild := execBuild_spec saved h hc hV (hm.isPage hlt) hoff ht ho hun
        (hloaded.placed hprog) hbacked
      rw [wp_bind] at hbuild ⊢
      refine hbuild.mono (fun _ t' ht' => ?_) fun _ _ he => he
      exact wp.bind ht' fun _ s'' hs'' => hs''
    · -- a file without four headers
      refine wp.bind (Q := fun _ _ => False) ?_ fun _ _ hfalse => hfalse.elim
      unfold loadElf
      rw [wp_bind, wp_get]
      split
      · exact absurd ⟨_, _, _, _, rfl⟩ hform
      · exact ⟨by rintro _ ⟨⟩, Or.inr id⟩

end Exec

end Savannah
