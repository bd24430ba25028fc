import Savannah.Pm.Books
import Savannah.Pm.Machine

/-!
# Fork

`local_fork` gives the child the sections of its parent: blocks of the pool that hold code or rodata
get one more holder, everything else is copied into fresh blocks.  The child gets a page of its own
for its descriptors, or for its channels if it is a driver, and its own tables; a descriptor of a
character device is copied with a new channel.

The books that were kept for the VMs of `V` are kept for these and the child afterwards
(`localFork_books`).
-/

namespace Savannah

open Foundation PmState MemoryState

/-- Only the allocator and the VM record of `c` have changed. -/
structure OnlyVm (c : ℕ) (s s' : PmState) : Prop where
  same : ∃ m b f, s' = { s.updateVm c f with memory := m, allocFailed := b }
  layout : SameLayout s.memory s'.memory
  failed : s.allocFailed = true → s'.allocFailed = true

/-- The pages of `Y`, and everything but the pages, the allocator and the VM record of `c`, are the
same. -/
structure FrameBut (Y : Multiset (ℕ × ℕ)) (c : ℕ) (s s' : PmState) : Prop where
  control : ∃ f, s'.control = (s.updateVm c f).control
  words : ∀ t n, (t, n) ∈ Y → s'.words t = s.words t
  fdTable : ∀ t n, (t, n) ∈ Y → s'.fdTable t = s.fdTable t
  layout : SameLayout s.memory s'.memory
  failed : s.allocFailed = true → s'.allocFailed = true

namespace FrameBut

variable {c d : ℕ} {V : Finset ℕ} {X Y : Multiset (ℕ × ℕ)} {s s' t : PmState}

/-- Two steps. -/
theorem trans (h : FrameBut Y c s s') (h' : FrameBut Y c s' t) : FrameBut Y c s t := by
  refine ⟨?_, fun a n ha => (h'.words a n ha).trans (h.words a n ha),
    fun a n ha => (h'.fdTable a n ha).trans (h.fdTable a n ha), h.layout.trans h'.layout,
    fun hf => h'.failed (h.failed hf)⟩
  obtain ⟨f, hf⟩ := h.control
  obtain ⟨g, hg⟩ := h'.control
  refine ⟨g ∘ f, ?_⟩
  rw [← updateVm_updateVm]
  simp only [PmState.control, PmState.updateVm, updateCpu, Control.mk.injEq] at hf hg ⊢
  obtain ⟨hcpus, hrest⟩ := hf
  rw [← hcpus]
  obtain ⟨h₁, h₂, h₃, h₄, h₅, h₆, h₇⟩ := hrest
  rw [← h₁, ← h₂, ← h₃, ← h₄, ← h₅, ← h₆, ← h₇]
  exact hg

theorem of_le (h : FrameBut Y c s s') (hle : X ≤ Y) : FrameBut X c s s' :=
  ⟨h.control, fun a n ha => h.words a n (Multiset.mem_of_le hle ha),
    fun a n ha => h.fdTable a n (Multiset.mem_of_le hle ha), h.layout, h.failed⟩

/-- The other VMs stay. -/
theorem other (h : FrameBut Y c s s') (hd : d ≠ c) : s'.cpus d = s.cpus d := by
  obtain ⟨f, hf⟩ := h.control
  exact (congrFun (congrArg Control.cpus hf) d).trans (Function.update_of_ne hd _ _)

theorem self (h : FrameBut Y c s s') : s'.cpus c = { s.cpus c with vm := (s'.cpus c).vm } := by
  obtain ⟨f, hf⟩ := h.control
  have hcpu : s'.cpus c = { s.cpus c with vm := f (s.cpus c).vm } :=
    (congrFun (congrArg Control.cpus hf) c).trans (updateVm_cpus s c f)
  rw [hcpu]

/-- The pages of the CPU are the same. -/
theorem cpuPages (h : FrameBut Y c s s') :
    (s'.cpus c).ownPages (s'.infoAddr c) = (s.cpus c).ownPages (s.infoAddr c) := by
  obtain ⟨f, hf⟩ := h.control
  have hbase : s'.cpuinfoBase = s.cpuinfoBase := congrArg Control.cpuinfoBase hf
  rw [h.self]
  unfold PmState.infoAddr
  rw [hbase]
  rfl

theorem openChannels (h : FrameBut Y c s s') : s'.openChannels = s.openChannels := by
  obtain ⟨f, hf⟩ := h.control
  exact congrArg Control.openChannels hf

/-- The channels stay. -/
theorem channelBlocks (h : FrameBut Y c s s') : s'.channelBlocks = s.channelBlocks := by
  unfold PmState.channelBlocks
  rw [h.openChannels]

/-- The blocks of the others stay. -/
theorem own (h : FrameBut Y c s s') (hc : c ∉ V) : s'.own V = s.own V :=
  Finset.sum_congr rfl fun d hd => by rw [h.other fun heq => hc (heq ▸ hd)]

theorem shared (h : FrameBut Y c s s') (hc : c ∉ V) : s'.shared V = s.shared V :=
  Finset.sum_congr rfl fun d hd => by rw [h.other fun heq => hc (heq ▸ hd)]

end FrameBut

/-! ### The sections -/

section Sections

variable {pool a n c child : ℕ} {V : Finset ℕ} {maps : ℕ → View} {X S : Multiset (ℕ × ℕ)}
  {s s' t : PmState} {E : PmStop → PmState → Prop}

theorem Allocated.cpus (h : Allocated n a s s') : s'.cpus = s.cpus := (h.frame 0).cpus

theorem OnlyVm.refl (c : ℕ) (s : PmState) : OnlyVm c s s := by
  refine ⟨⟨s.memory, s.allocFailed, id, ?_⟩, .refl _, id⟩
  unfold PmState.updateVm updateCpu
  simp only [id, Function.update_eq_self]

/-- An allocation. -/
theorem OnlyVm.alloc (h : OnlyVm c s s') (h' : Allocated n a s' t) : OnlyVm c s t := by
  have hlay := h.layout.trans h'.layout
  obtain ⟨m, b, f, rfl⟩ := h.same
  obtain ⟨m', b', rfl⟩ := h'.same
  exact ⟨⟨m', b', f, rfl⟩, hlay, fun hf => h'.failed (h.failed hf)⟩

theorem OnlyVm.updateVm (h : OnlyVm c s s') (g : VmProc → VmProc) :
    OnlyVm c s (s'.updateVm c g) := by
  have hlay := h.layout
  obtain ⟨m, b, f, rfl⟩ := h.same
  refine ⟨⟨m, b, g ∘ f, ?_⟩, hlay, h.failed⟩
  rw [← updateVm_updateVm]
  rfl

theorem OnlyVm.words (h : OnlyVm c s s') : s'.words = s.words ∧ s'.fdTable = s.fdTable := by
  obtain ⟨m, b, f, rfl⟩ := h.same
  exact ⟨rfl, rfl⟩

/-- Parent and child share a block of the pool; otherwise the child gets a block of its own. -/
theorem forkShared_spec {sec : VmSection} (h : Account pool V maps X S s)
    (hsec : reallocable s.memory sec.paddr = true → sec.paddr ≠ 0 ∧ sec.block ≤ s.shared V)
    (hcard : Multiset.card (s.shared V + S) < 2 ^ 32 - 1) :
    wp (forkShared sec) (fun a s' =>
      Account pool V maps X (blockAt a (pages sec.size size4KB) + S) s' ∧
      Allocated (pages sec.size size4KB) a s s') E s := by
  unfold forkShared
  rw [wp_bind, wp_get]
  refine wp_ite.mpr ⟨fun hre => ?_, fun _ => ?_⟩
  · obtain ⟨hne, hle⟩ := hsec hre
    have hmem : (sec.paddr, pages sec.size size4KB) ∈ s.shared V + S :=
      Multiset.mem_add.mpr (Or.inl (Multiset.mem_of_le hle (mem_blockAt hne)))
    refine (h.realloc hmem hcard).mono ?_ fun _ _ he => he
    rintro b s' ⟨rfl, h', m, rfl, hlay⟩
    exact ⟨h', ⟨m, s.allocFailed, rfl⟩, hlay, id, fun _ _ => hne⟩
  · refine (h.alloc _).mono ?_ fun _ _ he => he
    rintro a s' ⟨h', halloc⟩
    exact ⟨h'.share, halloc⟩

/-- The sections of the child: those of the parent `p`, at places of their own. -/
structure VmProc.Copies (v p : VmProc) : Prop where
  range : v.startVaddr = p.startVaddr ∧ v.endVaddr = p.endVaddr
  code : v.code.vaddr = p.code.vaddr ∧ v.code.size = p.code.size
  data : v.data.vaddr = p.data.vaddr ∧ v.data.size = p.data.size
  rodata : v.rodata.vaddr = p.rodata.vaddr ∧ v.rodata.size = p.rodata.size
  bss : v.bss.vaddr = p.bss.vaddr ∧ v.bss.size = p.bss.size
  stack : v.stack.vaddr = p.stack.vaddr ∧ v.stack.size = p.stack.size

/-- The fields of a record that copying the sections does not assign. -/
def VmProc.rest (v : VmProc) : Regs × ℕ × ℕ × ℕ × ℤ × VmState × ℕ × ℕ :=
  (v.regs, v.pageTables, v.ept, v.parent, v.exitStatus, v.state, v.fds, v.channels)

theorem MemoryState.SameLayout.reallocable_eq {m m' : MemoryState} (h : SameLayout m m')
    (paddr : ℕ) : reallocable m' paddr = reallocable m paddr := by
  unfold reallocable
  rw [h.firstFree, h.lastIdx]

/-- A frame for all but one VM. -/
theorem OnlyVm.frameBut (h : OnlyVm c s s') (Y : Multiset (ℕ × ℕ)) : FrameBut Y c s s' := by
  have hlay := h.layout
  have hfail := h.failed
  obtain ⟨m, b, f, rfl⟩ := h.same
  exact ⟨⟨f, rfl⟩, fun _ _ _ => rfl, fun _ _ _ => rfl, hlay, hfail⟩

theorem OnlyVm.shared (h : OnlyVm c s s') (hc : c ∉ V) : s'.shared V = s.shared V :=
  (h.frameBut 0).shared hc

/-- Filling a field of the record of `c` with a block that `x` allocates. -/
theorem OnlyVm.assign {x : Pm ℕ} {k : Pm Unit} {f : ℕ → VmProc → VmProc}
    {X' S' : ℕ → Multiset (ℕ × ℕ)} {Q : Unit → PmState → Prop} (o : OnlyVm c s s') (hc : c ∉ V)
    (hx : wp x (fun a t => Account pool V maps (X' a) (S' a) t ∧ Allocated n a s' t) E s')
    (hk : ∀ a t, OnlyVm c s t → Account pool V maps (X' a) (S' a) t →
      (t.cpus c).vm = f a (s'.cpus c).vm → (s'.allocFailed = true → t.allocFailed = true) →
      (t.allocFailed = false → 0 < n → a ≠ 0) → wp k Q E t) :
    wp (do
      let a ← x
      modify (PmState.updateVm c (f a))
      k) Q E s' := by
  refine hx.bind ?_
  rintro a t ⟨ht, hal⟩
  rw [wp_bind, wp_modify]
  refine hk a _ ((o.alloc hal).updateVm (f a)) (ht.updateVm hc (f a)) ?_ hal.failed hal.granted
  rw [updateVm_cpus, hal.cpus]

/-- Something takes a page. -/
theorem pages_pos {n : ℕ} (h : 0 < n) : 0 < pages n size4KB := by
  have := pages_spec n (show 0 < 4096 by norm_num)
  rw [show size4KB = 4096 from rfl]
  omega

/-- The sections of the child.  A section of the parent that may be shared, if the allocator knows
its address, is held by a VM of `V`. -/
theorem forkSections_spec {parent : ℕ} (h : Account pool V maps X S s) (hc : child ∉ V)
    (hshare : ∀ sec ∈ [(s.cpus parent).vm.code, (s.cpus parent).vm.rodata],
      reallocable s.memory sec.paddr = true → sec.paddr ≠ 0 ∧ sec.block ≤ s.shared V)
    (hcard : Multiset.card (s.shared V + S) + 1 < 2 ^ 32 - 1) :
    wp (forkSections parent child) (fun _ s' => OnlyVm child s s' ∧
      (s'.cpus child).vm.Copies (s.cpus parent).vm ∧
      (s'.cpus child).vm.rest = (s.cpus child).vm.rest ∧
      (s'.allocFailed = false → (s'.cpus child).vm.Backed) ∧
      Account pool V maps ((s'.cpus child).vm.ownSections + X) ((s'.cpus child).vm.shared + S) s')
      E s := by
  simp only [List.forall_mem_cons, List.not_mem_nil, false_imp_iff, implies_true,
    and_true] at hshare
  obtain ⟨hcode, hrodata⟩ := hshare
  unfold forkSections
  rw [wp_bind, wp_get]
  dsimp only
  generalize (s.cpus parent).vm = p at hcode hrodata ⊢
  rw [wp_bind, wp_modify]
  have o₀ := (OnlyVm.refl child s).updateVm fun v => { v with
    startVaddr := p.startVaddr, startPaddr := p.startPaddr
    endVaddr := p.endVaddr, endPaddr := p.endPaddr }
  have h₀ := h.updateVm hc fun v => { v with
    startVaddr := p.startVaddr, startPaddr := p.startPaddr
    endVaddr := p.endVaddr, endPaddr := p.endPaddr }
  have hv₀ := congrArg CpuInfo.vm (updateVm_cpus s child fun v => { v with
    startVaddr := p.startVaddr, startPaddr := p.startPaddr
    endVaddr := p.endVaddr, endPaddr := p.endPaddr })
  generalize s.updateVm child _ = s₀ at o₀ h₀ hv₀ ⊢
  refine o₀.assign hc (forkShared_spec h₀ ?_ ?_) fun code s₁ o₁ h₁ hv₁ hf₁ hg₁ => ?_
  · rw [o₀.layout.reallocable_eq, o₀.shared hc]
    exact hcode
  · rw [o₀.shared hc]
    omega
  refine o₁.assign hc (h₁.alloc _) fun data s₂ o₂ h₂ hv₂ hf₂ hg₂ => ?_
  refine o₂.assign hc (forkShared_spec h₂ ?_ ?_) fun rodata s₃ o₃ h₃ hv₃ hf₃ hg₃ => ?_
  · rw [o₂.layout.reallocable_eq, o₂.shared hc]
    exact hrodata
  · rw [o₂.shared hc, add_left_comm, Multiset.card_add]
    have := card_blockAt code (pages p.code.size size4KB)
    omega
  refine o₃.assign hc (h₃.alloc _) fun bss s₄ o₄ h₄ hv₄ hf₄ hg₄ => ?_
  refine (h₄.alloc _).bind ?_
  rintro stack s₅ ⟨h₅, hal⟩
  rw [wp_modify]
  set v := { (s₅.cpus child).vm with stack := { p.stack with paddr := stack } } with hv
  have hrec : ((s₅.updateVm child fun v => { v with stack := { p.stack with paddr := stack } }).cpus
      child).vm = v := by rw [updateVm_cpus]
  rw [hrec, hv, hal.cpus, hv₄, hv₃, hv₂, hv₁, hv₀]
  refine ⟨(o₄.alloc hal).updateVm _,
    ⟨⟨rfl, rfl⟩, ⟨rfl, rfl⟩, ⟨rfl, rfl⟩, ⟨rfl, rfl⟩, ⟨rfl, rfl⟩, ⟨rfl, rfl⟩⟩, rfl,
    fun hok => ?_, ?_⟩
  · have hok₄ := not_failed hal.failed hok
    have hok₃ := not_failed hf₄ hok₄
    have hok₂ := not_failed hf₃ hok₃
    have hok₁ := not_failed hf₂ hok₂
    simp only [VmProc.Backed, VmProc.sections, List.forall_mem_cons]
    exact ⟨fun hpos => hg₁ hok₁ (pages_pos hpos), fun hpos => hg₂ hok₂ (pages_pos hpos),
      fun hpos => hg₃ hok₃ (pages_pos hpos), fun hpos => hg₄ hok₄ (pages_pos hpos),
      fun hpos => hal.granted hok (pages_pos hpos), fun _ h => absurd h List.not_mem_nil⟩
  · convert h₅.updateVm hc _ using 1
    · simp only [VmProc.ownSections, VmSection.block]
      abel
    · simp only [VmProc.shared, VmSection.block]
      abel

end Sections

/-! ### The page of the descriptors or of the channels -/

section Pages

variable {pool c child : ℕ} {V : Finset ℕ} {maps : ℕ → View} {X S Y : Multiset (ℕ × ℕ)}
  {s s' : PmState} {E : PmStop → PmState → Prop}

theorem Frame.frameBut {f : VmProc → VmProc} (h : Frame Y (s.updateVm c f) s') :
    FrameBut Y c s s' := ⟨⟨_, h.control⟩, h.words, h.fdTable, h.layout, h.failed⟩

/-- A change of one VM. -/
theorem Frame.updateVm (h : Frame Y s s') (c : ℕ) (f : VmProc → VmProc) :
    FrameBut Y c s (s'.updateVm c f) := by
  refine ⟨⟨f, ?_⟩, h.words, h.fdTable, h.layout, h.failed⟩
  have hctl := h.control
  simp only [PmState.control, PmState.updateVm, updateCpu, Control.mk.injEq] at hctl ⊢
  refine ⟨?_, hctl.2⟩
  rw [hctl.1]

/-- A page `a` for the descriptors of a VM, or for the channels if it is a driver. -/
def VmProc.givePage (driver : Bool) (a : ℕ) (v : VmProc) : VmProc :=
  if driver then { v with channels := a } else { v with fds := a }

theorem givePage_eq (driver : Bool) (a : ℕ) (v : VmProc) : v.givePage driver a = { v with
    channels := if driver then a else v.channels
    fds := if driver then v.fds else a } := by
  unfold VmProc.givePage
  cases driver <;> rfl

/-- The page belongs to the VM. -/
theorem givePage_ownPages (driver : Bool) (a : ℕ) {v : VmProc} (hfds : v.fds = 0)
    (hch : v.channels = 0) : (v.givePage driver a).ownPages = blockAt a 1 := by
  unfold VmProc.givePage VmProc.ownPages
  cases driver
  · rw [if_neg Bool.false_ne_true, hch, blockAt_zero, add_zero]
  · rw [if_pos rfl, hfds, blockAt_zero, zero_add]

/-- The page is fresh, and filled with zeros. -/
theorem forkPages_spec (h : Account pool V maps X S s) (hc : child ∉ V)
    (hempty : (s.cpus child).vm.fds = 0 ∧ (s.cpus child).vm.channels = 0) :
    wp (forkPages child) (fun _ s' => ∃ a,
      (s'.cpus child).vm = (s.cpus child).vm.givePage (isDriver (s.cpus child).cpuid) a ∧
      Account pool V maps ((s'.cpus child).vm.ownPages + X) S s' ∧
      FrameBut (s.own V + (s.channelBlocks + X)) child s s' ∧
      (s'.allocFailed = false → a ≠ 0) ∧
      (a ≠ 0 → ∀ i, s'.words a i = 0 ∧ s'.fdTable a i = ⟨0, 0, 0, 0⟩)) E s := by
  -- one page, and the assignment of its address
  have hgive : ∀ driver, isDriver (s.cpus child).cpuid = driver →
      wp (do
        let a ← allocCleanPages 1
        modify (PmState.updateVm child (VmProc.givePage driver a)) : Pm Unit) (fun _ s' => ∃ a,
      (s'.cpus child).vm = (s.cpus child).vm.givePage (isDriver (s.cpus child).cpuid) a ∧
      Account pool V maps ((s'.cpus child).vm.ownPages + X) S s' ∧
      FrameBut (s.own V + (s.channelBlocks + X)) child s s' ∧
      (s'.allocFailed = false → a ≠ 0) ∧
      (a ≠ 0 → ∀ i, s'.words a i = 0 ∧ s'.fdTable a i = ⟨0, 0, 0, 0⟩)) E s := by
    rintro driver rfl
    refine (h.allocClean Nat.one_pos).bind ?_
    rintro a s₁ ⟨h₁, hframe, hgranted, hclean⟩
    rw [wp_modify]
    have hrec : ((s₁.updateVm child (VmProc.givePage (isDriver (s.cpus child).cpuid) a)).cpus
        child).vm = (s.cpus child).vm.givePage (isDriver (s.cpus child).cpuid) a := by
      rw [updateVm_cpus, hframe.cpus]
    refine ⟨a, hrec, ?_, hframe.updateVm child _, hgranted, hclean⟩
    rw [hrec, givePage_ownPages _ _ hempty.1 hempty.2]
    exact h₁.updateVm hc _
  unfold forkPages
  rw [wp_bind, wp_get]
  exact wp_ite.mpr ⟨fun hd => hgive true hd, fun hd => hgive false (Bool.not_eq_true _ ▸ hd)⟩

end Pages

/-! ### Copies into user memory -/

section Copies

variable {parent child rsp : ℕ} {v p c : VmProc} {s : PmState} {args : ForkArgs}

/-- `virt2phys` succeeds or panics. -/
theorem wp_translate {a : ℕ} {Q : ℕ → PmState → Prop} {E : PmStop → PmState → Prop}
    (hQ : ∀ b, virt2phys v a = some b → Q b s)
    (hE : virt2phys v a = none → E (.panic .virt2phys) s) : wp (translate v a) Q E s := by
  unfold translate
  cases h : virt2phys v a with
  | none => exact hE h
  | some b => exact hQ b h

/-- A write to user memory. -/
theorem wp_writeUser {vms : List VmProc} {a len : ℕ} {Q : Unit → PmState → Prop}
    {E : PmStop → PmState → Prop} (hQ : inUserMemory vms a len = true → Q () s)
    (hE : inUserMemory vms a len = false → E (.outOfBounds a) s) :
    wp (writeUser vms a len) Q E s := by
  unfold writeUser
  cases h : inUserMemory vms a len with
  | true => exact hQ h
  | false => exact hE h

/-- A section is user memory. -/
theorem inUserMemory_of {vms : List VmProc} {sec : VmSection} {a len : ℕ} (hv : v ∈ vms)
    (hsec : sec ∈ v.sections) (hle : sec.paddr ≤ a) (hend : a + len ≤ sec.paddr + sec.size) :
    inUserMemory vms a len = true :=
  List.any_eq_true.mpr ⟨v, hv, List.any_eq_true.mpr ⟨sec, hsec, decide_eq_true ⟨hle, hend⟩⟩⟩

/-- A VM that may be forked: its sections are in the order of the file, the stack pointer lies in
the stack and the variable `cpuinfo` in the bss. -/
structure VmProc.ForkReady (p : VmProc) (args : ForkArgs) : Prop where
  order : p.data.vaddr ≤ p.rodata.vaddr ∧ p.rodata.vaddr ≤ p.bss.vaddr ∧ p.bss.vaddr ≤ p.stack.vaddr
  stack : p.stack.vaddr ≤ args.regs.rsp ∧ args.regs.rsp < p.stack.vaddr + p.stack.size
  reach : args.regs.rsp ≤ p.endVaddr ∧ p.stack.vaddr + p.stack.size < 2 ^ 64
  cpuinfo : p.bss.vaddr ≤ args.cpuinfoVaddr ∧ args.cpuinfoVaddr + 8 ≤ p.bss.vaddr + p.bss.size ∧
    args.cpuinfoVaddr < p.stack.vaddr
  memory : p.stack.paddr ≠ 0 ∧ p.stack.paddr + p.stack.size < 2 ^ 64 ∧
    p.bss.paddr + p.bss.size < 2 ^ 64

/-- An address of the stack. -/
theorem virt2phys_stack {a : ℕ} (horder : v.data.vaddr ≤ v.rodata.vaddr ∧
      v.rodata.vaddr ≤ v.bss.vaddr ∧ v.bss.vaddr ≤ v.stack.vaddr)
    (hstack : v.stack.vaddr ≤ a) (hend : a ≤ v.endVaddr)
    (hlt : v.stack.paddr + (a - v.stack.vaddr) < 2 ^ 64) :
    virt2phys v a = some (v.stack.paddr + (a - v.stack.vaddr)) := by
  obtain ⟨h₁, h₂, h₃⟩ := horder
  unfold virt2phys
  rw [if_neg (by omega), if_neg (by omega), if_neg (by omega), if_neg (by omega),
    if_pos ⟨hstack, hend⟩]
  exact congrArg some (Nat.mod_eq_of_lt hlt)

/-- An address of the bss. -/
theorem virt2phys_bss {a : ℕ} (horder : v.data.vaddr ≤ v.rodata.vaddr ∧
      v.rodata.vaddr ≤ v.bss.vaddr) (hbss : v.bss.vaddr ≤ a) (hend : a < v.stack.vaddr)
    (hlt : v.bss.paddr + (a - v.bss.vaddr) < 2 ^ 64) :
    virt2phys v a = some (v.bss.paddr + (a - v.bss.vaddr)) := by
  obtain ⟨h₁, h₂⟩ := horder
  unfold virt2phys
  rw [if_neg (by omega), if_neg (by omega), if_neg (by omega), if_pos ⟨hbss, hend⟩]
  exact congrArg some (Nat.mod_eq_of_lt hlt)

/-- A block of the pool that a section of the child lies in. -/
def VmSection.InPool (sec : VmSection) : Prop := sec.paddr ≠ 0 ∧ sec.paddr + sec.size ≤ 2 ^ 32

/-- A stop that a parent ready for the fork excludes. -/
theorem Halts.of_ready {P : Prop} {p : VmProc} {e : PmStop} (hready : P → p.ForkReady args)
    (he : ∀ q, e ≠ .panic (.free q))
    (hcontra : s.allocFailed = false → p.ForkReady args → False) : Halts P e s := by
  refine ⟨he, ?_⟩
  by_contra hboth
  obtain ⟨hok, hP⟩ := not_or.mp hboth
  exact hcontra (Bool.not_eq_true _ ▸ hok) (hready (not_not.mp hP))

/-- Copying the used part of the stack changes nothing that is modelled. -/
theorem forkStack_spec {P : Prop} (hcopies : (s.cpus child).vm.Copies (s.cpus parent).vm)
    (hready : P → (s.cpus parent).vm.ForkReady args)
    (hmem : s.allocFailed = false → 0 < (s.cpus child).vm.stack.size →
      (s.cpus child).vm.stack.InPool) :
    wp (forkStack parent child args.regs.rsp) (fun _ s' => s' = s) (Halts P) s := by
  unfold forkStack
  rw [wp_bind, wp_get]
  dsimp only
  generalize (s.cpus parent).vm = p at hcopies hready ⊢
  generalize (s.cpus child).vm = c at hcopies hmem ⊢
  obtain ⟨hrange, hcode, hdata, hrodata, hbss, hstack⟩ := hcopies
  -- a stop needs a failed allocation or a request that is not in order
  have hno : ∀ {e : PmStop}, (∀ q, e ≠ .panic (.free q)) →
      (p.ForkReady args → c.stack.InPool → False) → Halts P e s := fun he hcontra =>
    .of_ready hready he fun hok hr => hcontra hr (hmem hok (by have := hr.stack; omega))
  have htrans : p.ForkReady args → c.stack.InPool →
      virt2phys c args.regs.rsp = some (c.stack.paddr + (args.regs.rsp - c.stack.vaddr)) ∧
      virt2phys p args.regs.rsp = some (p.stack.paddr + (args.regs.rsp - p.stack.vaddr)) := by
    intro hr hc
    obtain ⟨h₁, h₂, h₃⟩ := hr.order
    obtain ⟨h₄, h₅⟩ := hr.stack
    obtain ⟨h₆, h₇, -⟩ := hr.memory
    obtain ⟨h₈, h₉⟩ := hc
    have hreach := hr.reach
    exact ⟨virt2phys_stack ⟨by omega, by omega, by omega⟩ (by omega) (by omega) (by omega),
      virt2phys_stack hr.order h₄ (by omega) (by omega)⟩
  rw [wp_bind]
  refine wp_translate (fun dst hdst => ?_) fun hnone => hno (by rintro _ ⟨⟩) fun hr hc => ?_
  · rw [wp_bind]
    refine wp_translate (fun src hsrc => ?_) fun hnone => hno (by rintro _ ⟨⟩) fun hr hc => ?_
    · refine wp_ite.mpr ⟨fun h0 => hno (by rintro _ ⟨⟩) fun hr hc => ?_, fun _ => ?_⟩
      · have heq := Option.some.inj (hdst.symm.trans (htrans hr hc).1)
        have hne := hc.1
        omega
      refine wp_ite.mpr ⟨fun h0 => hno (by rintro _ ⟨⟩) fun hr hc => ?_, fun _ => ?_⟩
      · have heq := Option.some.inj (hsrc.symm.trans (htrans hr hc).2)
        have hne := hr.memory.1
        omega
      refine wp_writeUser (fun _ => rfl) fun hout => hno (by rintro _ ⟨⟩) fun hr hc => ?_
      have heq := Option.some.inj (hdst.symm.trans (htrans hr hc).1)
      have hs := hr.stack
      have hlen : (p.stack.vaddr + p.stack.size + 2 ^ 64 - args.regs.rsp) % 2 ^ 64 =
          p.stack.vaddr + p.stack.size - args.regs.rsp := by
        have := hr.reach.2
        rw [show p.stack.vaddr + p.stack.size + 2 ^ 64 - args.regs.rsp =
          p.stack.vaddr + p.stack.size - args.regs.rsp + 2 ^ 64 by omega, Nat.add_mod_right]
        exact Nat.mod_eq_of_lt (by omega)
      have hsec : c.stack ∈ c.sections := by simp [VmProc.sections]
      refine Bool.false_ne_true (hout.symm.trans (inUserMemory_of (List.mem_singleton_self c) hsec
        (by omega) ?_))
      omega
    · cases hnone.symm.trans (htrans hr hc).2
  · cases hnone.symm.trans (htrans hr hc).1

/-- The registers of the child; its variable `cpuinfo` lies in its bss. -/
theorem forkRegs_spec {P : Prop} (hne : parent ≠ child)
    (hcopies : (s.cpus child).vm.Copies (s.cpus parent).vm)
    (hready : P → (s.cpus parent).vm.ForkReady args)
    (hmem : s.allocFailed = false → 0 < (s.cpus child).vm.bss.size → (s.cpus child).vm.bss.InPool) :
    wp (forkRegs parent child args)
      (fun _ s' => s' = s.updateVm child fun v => { v with regs := { args.regs with rax := 0 } })
      (Halts P) s := by
  unfold forkRegs
  rw [wp_bind, wp_modify, wp_bind, wp_get]
  dsimp only
  rw [updateVm_cpus, show (s.updateVm child fun v => { v with regs := args.regs }).cpus parent =
    s.cpus parent from Function.update_of_ne hne _ _]
  dsimp only
  generalize (s.cpus parent).vm = p at hcopies hready ⊢
  generalize hc : (s.cpus child).vm = c at hcopies hmem ⊢
  obtain ⟨-, -, -, -, hbss, -⟩ := hcopies
  have hno : ∀ {e : PmStop}, (∀ q, e ≠ .panic (.free q)) →
      (p.ForkReady args → c.bss.InPool → False) →
      Halts P e (s.updateVm child fun v => { v with regs := args.regs }) := fun he hcontra =>
    .of_ready hready he fun hok hr => hcontra hr (hmem hok (by have := hr.cpuinfo; omega))
  have htrans : p.ForkReady args → virt2phys p args.cpuinfoVaddr =
      some (p.bss.paddr + (args.cpuinfoVaddr - p.bss.vaddr)) := by
    intro hr
    obtain ⟨h₁, h₂, -⟩ := hr.order
    obtain ⟨h₄, h₅, h₆⟩ := hr.cpuinfo
    have hphys := hr.memory.2.2
    exact virt2phys_bss ⟨h₁, h₂⟩ h₄ h₆ (by omega)
  rw [wp_bind]
  refine wp_translate (fun a ha => ?_) fun hnone => hno (by rintro _ ⟨⟩) fun hr _ => ?_
  · rw [wp_bind]
    refine wp_writeUser (fun _ => ?_) fun hout => hno (by rintro _ ⟨⟩) fun hr hin => ?_
    · rw [wp_modify, updateVm_updateVm]
      rfl
    · have heq := Option.some.inj (ha.symm.trans (htrans hr))
      obtain ⟨h₄, h₅, h₆⟩ := hr.cpuinfo
      obtain ⟨-, hend⟩ := hin
      have haddr : (c.bss.paddr + (a + 2 ^ 64 - p.bss.paddr)) % 2 ^ 64 =
          c.bss.paddr + (args.cpuinfoVaddr - p.bss.vaddr) := by
        rw [heq, show c.bss.paddr + (p.bss.paddr + (args.cpuinfoVaddr - p.bss.vaddr) + 2 ^ 64 -
          p.bss.paddr) = c.bss.paddr + (args.cpuinfoVaddr - p.bss.vaddr) + 2 ^ 64 by omega,
          Nat.add_mod_right]
        exact Nat.mod_eq_of_lt (by omega)
      have hsec : c.bss ∈ c.sections := by simp [VmProc.sections]
      refine Bool.false_ne_true (hout.symm.trans (inUserMemory_of List.mem_cons_self hsec
        (by omega) ?_))
      omega
  · cases hnone.symm.trans (htrans hr)

end Copies

/-! ### The memory of the child -/

/-- What `local_fork` finds: a parent whose sections can be mapped and are known to the allocator
only if they are held by a VM of `V`, and a CPU for the child that holds nothing. -/
structure Forkable (V : Finset ℕ) (parent child : ℕ) (s : PmState) : Prop where
  ne : parent ≠ child
  fresh : child ∉ V
  empty : (s.cpus child).vm.fds = 0 ∧ (s.cpus child).vm.channels = 0
  cpuPages : ∀ p ∈ (s.cpus child).ownPages (s.infoAddr child), IsPage (2 ^ 32) p.1
  placed : ∀ sec ∈ (s.cpus parent).vm.sections, sec.Placed
  shared : ∀ sec ∈ [(s.cpus parent).vm.code, (s.cpus parent).vm.rodata],
    reallocable s.memory sec.paddr = true → sec.paddr ≠ 0 ∧ sec.block ≤ s.shared V
  card : V.card ≤ maxCpus

/-- The fields of a record that the memory of the VM does not depend on. -/
def VmProc.status (v : VmProc) : Regs × ℕ × ℤ × VmState := (v.regs, v.parent, v.exitStatus, v.state)

/-- The page of descriptors and the page of channels, as far as there is one. -/
def VmProc.pageList (v : VmProc) : List ℕ :=
  (if v.fds = 0 then [] else [v.fds]) ++ channelPages v.channels

/-- With an empty table of descriptors these are all pages that `ept_pmap` maps for them. -/
theorem extraPages_of_clean {s : PmState} {v : VmProc}
    (h : v.fds ≠ 0 → ∀ i, (s.fdTable v.fds i).offset = 0) : s.extraPages v = v.pageList := by
  unfold PmState.extraPages PmState.fdPages VmProc.pageList
  split
  · rfl
  · rename_i hne
    have hnone : ((List.range maxFd).map fun i => (s.fdTable v.fds i).offset).filter
        (· ≠ 0) = [] := by
      refine List.filter_eq_nil_iff.mpr fun p hp => ?_
      obtain ⟨i, -, rfl⟩ := List.mem_map.mp hp
      rw [h hne i]
      decide
    rw [hnone]

/-- The child when its tables are built. -/
structure ForkBuilt (pool : ℕ) (V : Finset ℕ) (maps : ℕ → View) (parent child : ℕ)
    (s s' : PmState) : Prop where
  frame : FrameBut (s.own V + s.channelBlocks) child s s'
  account : ∃ ts, Account pool (insert child V)
    (Function.update maps child (s'.viewOf child ts (s'.cpus child).vm.pageList)) 0 0 s'
  copies : (s'.cpus child).vm.Copies (s.cpus parent).vm
  status : (s'.cpus child).vm.status = (s.cpus child).vm.status
  page : ∃ a, (s'.cpus child).vm.channels = (if isDriver (s.cpus child).cpuid then a else 0) ∧
    (s'.cpus child).vm.fds = (if isDriver (s.cpus child).cpuid then 0 else a) ∧
    (s'.allocFailed = false → a ≠ 0) ∧
    (a ≠ 0 → ∀ i, s'.words a i = 0 ∧ s'.fdTable a i = ⟨0, 0, 0, 0⟩)

section Memory

variable {pool parent child : ℕ} {V : Finset ℕ} {maps : ℕ → View} {X S : Multiset (ℕ × ℕ)}
  {s : PmState} {args : ForkArgs} {P : Prop}

/-- A section whose block is held lies in the pool. -/
theorem Account.inPool (h : Account pool V maps X S s) {sec : VmSection} (hne : sec.paddr ≠ 0)
    (hheld : sec.block ≤ pageBlocks (s.tables V) + (s.own V + (s.channelBlocks + X)) +
      (s.shared V + S)) : sec.InPool := by
  obtain ⟨-, -, -, hend⟩ := h.addr (Multiset.mem_of_le hheld (mem_blockAt hne))
  have hspec := pages_spec sec.size (show 0 < 4096 by norm_num)
  rw [show size4KB = 4096 from rfl] at hend
  exact ⟨hne, by omega⟩

/-- So does each section of a VM that is counted. -/
theorem Account.section_inPool {c : ℕ} {sec : VmSection} (h : Account pool V maps X S s)
    (hc : c ∈ V) (hsec : sec ∈ (s.cpus c).vm.sections) (hne : sec.paddr ≠ 0) : sec.InPool := by
  refine h.inPool hne ((VmProc.block_le hsec).trans ?_)
  rw [own_eq hc, shared_eq hc]
  refine add_le_add (le_trans ?_ (Multiset.le_add_left _ _)) ?_
  · rw [add_assoc]
    exact Multiset.le_add_right _ _
  · rw [add_assoc]
    exact Multiset.le_add_right _ _

/-- The copy is placed as its parent. -/
theorem VmProc.Copies.placed {v p : VmProc} (h : v.Copies p) (hp : ∀ sec ∈ p.sections, sec.Placed) :
    ∀ sec ∈ v.sections, sec.Placed := by
  obtain ⟨-, hcode, hdata, hrodata, hbss, hstack⟩ := h
  simp only [VmProc.sections, List.forall_mem_cons, VmSection.Placed] at hp ⊢
  rw [hcode.1, hcode.2, hdata.1, hdata.2, hrodata.1, hrodata.2, hbss.1, hbss.2, hstack.1, hstack.2]
  exact ⟨hp.1, hp.2.1, hp.2.2.1, hp.2.2.2.1, hp.2.2.2.2.1, fun _ h => absurd h List.not_mem_nil⟩

/-- With an empty table of descriptors only pages of 1GB can be in the way of `ept_pmap`. -/
theorem PmState.Unaligned.has1GB_of_clean {c : ℕ} (h : s.Unaligned c)
    (hclean : (s.cpus c).vm.fds ≠ 0 → ∀ i, (s.fdTable (s.cpus c).vm.fds i).offset = 0)
    (hal : (s.cpus c).vm.fds ≠ 0 → (s.cpus c).vm.fds % 4096 = 0) : s.has1GB = true := by
  rcases h with hgb | ⟨p, hp, hbad⟩
  · exact hgb
  refine absurd ?_ hbad
  unfold PmState.fdPages at hp
  split at hp
  · exact absurd hp List.not_mem_nil
  · rename_i hne
    rcases List.mem_cons.mp hp with rfl | hp
    · exact hal hne
    · obtain ⟨hp, hp0⟩ := List.mem_filter.mp hp
      obtain ⟨i, -, rfl⟩ := List.mem_map.mp hp
      exact absurd (hclean hne i) (of_decide_eq_true hp0)

/-- The steps of `local_fork` up to the tables of the child. -/
theorem forkMemory_spec {k : Pm ℤ} {Q : ℤ → PmState → Prop} (h : Account pool V maps 0 0 s)
    (hf : Forkable V parent child s)
    (hready : P → (s.cpus parent).vm.ForkReady args ∧ s.has1GB = false)
    (hk : ∀ s', ForkBuilt pool V maps parent child s s' → wp k Q (Halts P) s') :
    wp (do
      forkSections parent child
      forkStack parent child args.regs.rsp
      forkPages child
      eptPmap child
      k) Q (Halts P) s := by
  have hcard := card_shared V s
  have hV : V.card ≤ 255 := hf.card
  refine (forkSections_spec h hf.fresh hf.shared (by rw [add_zero]; omega)).bind ?_
  rintro - s₁ ⟨o₁, hcopies, hrest, hbacked, h₁⟩
  simp only [add_zero] at h₁
  have f₁ := o₁.frameBut (s.own V + s.channelBlocks)
  have hparent : s₁.cpus parent = s.cpus parent := f₁.other hf.ne
  have hready₁ : P → (s₁.cpus parent).vm.ForkReady args := by
    rw [hparent]
    exact fun hp => (hready hp).1
  refine (forkStack_spec (by rw [hparent]; exact hcopies) hready₁ fun hok hpos => ?_).bind ?_
  · refine h₁.inPool (hbacked hok _ (by simp [VmProc.sections]) hpos) ?_
    refine le_trans ?_ (Multiset.le_add_right _ _)
    refine le_trans ?_ ((Multiset.le_add_left _ _).trans (Multiset.le_add_left _ _))
    refine le_trans ?_ (Multiset.le_add_left _ _)
    exact Multiset.le_add_left _ _
  rintro - s₁' rfl
  simp only [VmProc.rest, Prod.mk.injEq] at hrest
  obtain ⟨hregs, -, -, hpar, hexit, hstate, hfds, hch⟩ := hrest
  refine (forkPages_spec h₁ hf.fresh ⟨hfds.trans hf.empty.1, hch.trans hf.empty.2⟩).bind ?_
  rintro - s₂ ⟨a, hrec, h₂, f₂, hgranted, hclean⟩
  have hX : s.own V + s.channelBlocks ≤ s₁'.own V +
      (s₁'.channelBlocks + (s₁'.cpus child).vm.ownSections) := by
    rw [f₁.own hf.fresh, f₁.channelBlocks, ← add_assoc]
    exact Multiset.le_add_right _ _
  have f₁₂ := f₁.trans (f₂.of_le hX)
  have hid : (s₁'.cpus child).cpuid = (s.cpus child).cpuid := by rw [f₁.self]
  have hpage : (s₂.cpus child).vm.ownPages = blockAt a 1 := by
    rw [hrec]
    exact givePage_ownPages _ _ (hfds.trans hf.empty.1) (hch.trans hf.empty.2)
  rw [hid, givePage_eq, hfds, hch, hf.empty.1, hf.empty.2] at hrec
  have hsections : (s₂.cpus child).vm.ownSections = (s₁'.cpus child).vm.ownSections ∧
      (s₂.cpus child).vm.shared = (s₁'.cpus child).vm.shared ∧
      (s₂.cpus child).vm.sections = (s₁'.cpus child).vm.sections := by
    rw [hrec]
    exact ⟨rfl, rfl, rfl⟩
  have h₂' : Account pool V maps ((s₂.cpus child).vm.own + 0)
      ((s₂.cpus child).vm.shared + 0) s₂ := by
    rw [add_zero, add_zero, VmProc.own, add_comm (VmProc.ownSections _), hsections.1, hsections.2.1]
    exact h₂
  have hoffsets : (s₂.cpus child).vm.fds ≠ 0 →
      ∀ i, (s₂.fdTable (s₂.cpus child).vm.fds i).offset = 0 := by
    intro hne i
    have hfds₂ : (s₂.cpus child).vm.fds = if isDriver (s.cpus child).cpuid then 0 else a := by
      rw [hrec]
    split at hfds₂
    · exact absurd hfds₂ hne
    · rw [hfds₂] at hne ⊢
      rw [(hclean hne i).2]
  have haligned : s₂.Unaligned child → s.has1GB = true := by
    obtain ⟨g, hg⟩ := f₁₂.control
    intro hbad
    refine (congrArg Control.has1GB hg).symm.trans (hbad.has1GB_of_clean hoffsets fun hne => ?_)
    refine (h₂.addr_extra (n := 1) ?_).2.2.1
    exact Multiset.mem_add.mpr (Or.inl (Multiset.mem_add.mpr (Or.inl (mem_blockAt hne))))
  refine (h₂'.build hf.fresh ?_ ?_ (fun hne i _ => by rw [hoffsets hne]; norm_num) ?_
    (fun _ => Halts.alloc) fun hbad => Halts.map fun hp => ?_).bind ?_
  · rw [f₁₂.cpuPages]
    exact hf.cpuPages
  · rw [hsections.2.2]
    exact hcopies.placed hf.placed
  · intro hok
    unfold VmProc.Backed
    rw [hsections.2.2]
    exact hbacked (not_failed f₂.failed hok)
  · rw [(hready hp).2] at haligned
    exact Bool.false_ne_true (haligned hbad)
  rintro - s₃ ⟨r, e, h₃, f₃, hfail⟩
  have hX₂ : s.own V + s.channelBlocks ≤
      s₂.own V + (s₂.channelBlocks + ((s₂.cpus child).vm.own + 0)) := by
    rw [f₁₂.own hf.fresh, f₁₂.channelBlocks, ← add_assoc]
    exact Multiset.le_add_right _ _
  have hrec₃ : (s₃.cpus child).vm = { (s₂.cpus child).vm with pageTables := r, ept := e } := by
    rw [f₃.cpus, updateVm_cpus]
  have hview : s₃.viewOf child (guestList s₃.words r) (s₃.cpus child).vm.pageList =
      s₂.viewOf child (guestList s₃.words r) (s₂.extraPages (s₂.cpus child).vm) := by
    rw [extraPages_of_clean hoffsets, viewOf_congr f₃.frameBut.cpuPages (by rw [hrec₃]; rfl), hrec₃]
    rfl
  rw [← hview] at h₃
  refine hk s₃ ⟨f₁₂.trans (f₃.frameBut.of_le hX₂), ⟨_, h₃⟩, ?_, ?_, a, ?_, ?_, ?_, fun hne i => ?_⟩
  · rw [hrec₃, hrec]
    exact ⟨hcopies.range, hcopies.code, hcopies.data, hcopies.rodata, hcopies.bss, hcopies.stack⟩
  · rw [hrec₃, hrec, VmProc.status, VmProc.status, hregs, hpar, hexit, hstate]
  · rw [hrec₃, hrec]
  · rw [hrec₃, hrec]
  · rw [hfail]
    exact hgranted
  · have hmem : (a, 1) ∈ s₂.own V + (s₂.channelBlocks + ((s₂.cpus child).vm.own + 0)) := by
      rw [add_zero, VmProc.own, hpage]
      simp only [Multiset.mem_add, mem_blockAt hne, or_true]
    rw [f₃.words a 1 hmem, f₃.fdTable a 1 hmem]
    exact hclean hne i

end Memory

/-! ### The books with the child -/

section Books

variable {pool parent child : ℕ} {V : Finset ℕ} {maps : ℕ → View} {s s' : PmState}

/-- The blocks of a new VM. -/
theorem own_insert (hc : child ∉ V) (s : PmState) :
    s.own (insert child V) = (s.cpus child).vm.own + s.own V := Finset.sum_insert hc

/-- If the child is a driver, its array is empty. -/
theorem ForkBuilt.books (hb : ForkBuilt pool V maps parent child s s')
    (hf : Forkable V parent child s) (h : Books pool V maps 0 0 s) :
    ∃ ts, Books pool (insert child V)
      (Function.update maps child (s'.viewOf child ts (s'.cpus child).vm.pageList)) 0 0 s' := by
  obtain ⟨ts, haccount⟩ := hb.account
  obtain ⟨a, hch, -, -, hclean⟩ := hb.page
  have hlists : s'.channelsOf = s.channelsOf := by
    unfold PmState.channelsOf
    rw [hb.frame.openChannels]
  have hnone : s.channelsOf child = [] := h.listed child hf.empty.2
  have hown := own_insert hf.fresh s'
  rw [hb.frame.own hf.fresh] at hown
  -- the array of another driver is held by a VM of `V`
  have hheld : ∀ d, d ≠ child → (s'.cpus d).vm.channels ≠ 0 →
      ((s'.cpus d).vm.channels, 1) ∈ s.own V := by
    intro d hd hne
    rw [hb.frame.other hd] at hne ⊢
    have hmem := h.held d hne
    rwa [add_zero] at hmem
  have hself : (s'.cpus child).vm.channels ≠ 0 →
      ((s'.cpus child).vm.channels, 1) ∈ (s'.cpus child).vm.own := fun hne =>
    Multiset.mem_add.mpr (Or.inr (Multiset.mem_add.mpr (Or.inr (mem_blockAt hne))))
  have hdisj : Disjoint (s'.cpus child).vm.own (s.own V) := by
    have hnd := (Multiset.nodup_add.mp (Multiset.nodup_add.mp haccount.ledger.nodup).2.1).1
    rw [hown] at hnd
    exact (Multiset.nodup_add.mp hnd).2.2
  have hapart : ∀ d, d ≠ child → (s'.cpus d).vm.channels ≠ 0 →
      (s'.cpus d).vm.channels ≠ (s'.cpus child).vm.channels := by
    intro d hd hne heq
    refine Multiset.disjoint_left.mp hdisj (hself (heq ▸ hne)) ?_
    rw [← heq]
    exact hheld d hd hne
  refine ⟨ts, haccount, ⟨fun d hne => ?_, fun d e hne heq => ?_⟩, fun d hne => ?_,
    fun d hzero => ?_⟩
  · rw [hlists]
    by_cases hd : d = child
    · subst hd
      rw [hnone]
      refine ZeroTerminated.empty fun i _ => ?_
      rw [hch] at hne ⊢
      split at hne
      · rename_i hdriver
        rw [if_pos hdriver]
        exact (hclean hne i).1
      · exact absurd rfl hne
    · rw [hb.frame.words _ 1 (Multiset.mem_add.mpr (Or.inl (hheld d hd hne))), hb.frame.other hd]
      rw [hb.frame.other hd] at hne
      exact h.arrays.array d hne
  · by_cases hd : d = child <;> by_cases he : e = child
    · rw [hd, he]
    · subst hd
      exact absurd heq.symm (hapart e he (heq ▸ hne))
    · subst he
      exact absurd heq (hapart d hd hne)
    · rw [hb.frame.other hd] at hne heq
      rw [hb.frame.other he] at heq
      exact h.arrays.apart d e hne heq
  · rw [add_zero, hown]
    by_cases hd : d = child
    · subst hd
      exact Multiset.mem_add.mpr (Or.inl (hself hne))
    · exact Multiset.mem_add.mpr (Or.inr (hheld d hd hne))
  · rw [hlists]
    by_cases hd : d = child
    · rw [hd, hnone]
    · rw [hb.frame.other hd] at hzero
      exact h.listed d hzero

end Books

/-! ### The descriptors -/

/-- The descriptors of a VM; without a page for them there are none. -/
def PmState.descriptors (s : PmState) (c : ℕ) : ℕ → FileDescriptor :=
  if (s.cpus c).vm.fds = 0 then fun _ => ⟨0, 0, 0, 0⟩ else s.fdTable (s.cpus c).vm.fds

/-- The entries `l` of a table that are character devices. -/
def charFds (f : ℕ → FileDescriptor) (l : List ℕ) : List ℕ :=
  l.filter fun i => (f i).type = typeChar

/-- The channels that a fork opens for these entries. -/
def forkedChannels (f : ℕ → FileDescriptor) (addr : ℕ → ℕ) (child : ℕ) (l : List ℕ) :
    List OpenChannel := (charFds f l).map fun i => ⟨addr i, child, (f i).dst⟩

/-- The array of each driver has room for the channels of a fork. -/
def ForkRoom (s : PmState) (f : ℕ → FileDescriptor) : Prop :=
  ∀ d, (s.channelsOf d).length +
    ((charFds f (List.range maxFd)).filter fun i => (f i).dst = d).length ≤ maxChannels

/-- The CPU `d` has a driver that takes channels. -/
structure DriverReady (s : PmState) (d : ℕ) : Prop where
  id : d ≤ maxCpus
  hasVm : (s.cpus d).hasVm = true
  driver : isDriver (s.cpus d).cpuid = true
  array : (s.cpus d).vm.channels ≠ 0

/-- The drivers of the character devices among the descriptors `f` take channels. -/
def FdsReady (s : PmState) (f : ℕ → FileDescriptor) : Prop :=
  ∀ i < maxFd, (f i).type = typeChar → DriverReady s (f i).dst

/-- The descriptors `f` were copied to the page `dst` of `child`, with new channels at `addr`, up to
those of the list `l`. -/
structure FdsCopied (f : ℕ → FileDescriptor) (dst child : ℕ) (l : List ℕ) (addr : ℕ → ℕ)
    (Y : Multiset (ℕ × ℕ)) (s s' : PmState) : Prop where
  step : ChannelStep maxChannels Y s s'
  opened : s'.openChannels = s.openChannels ++ forkedChannels f addr child l
  fds : dst ≠ 0 → ∀ i < maxFd, s'.fdTable dst i =
    if i ∈ charFds f l then { f i with offset := addr i } else f i
  pages : ∀ i ∈ charFds f l, IsPage (2 ^ 32) (addr i)

section Fds

variable {pool child dst : ℕ} {V : Finset ℕ} {maps : ℕ → View} {Y : Multiset (ℕ × ℕ)}
  {s s' t : PmState} {f : ℕ → FileDescriptor} {addr : ℕ → ℕ} {l : List ℕ} {P : Prop}

theorem charFds_append (f : ℕ → FileDescriptor) (l l' : List ℕ) :
    charFds f (l ++ l') = charFds f l ++ charFds f l' := List.filter_append _ _

/-- The character devices. -/
theorem mem_charFds {i : ℕ} : i ∈ charFds f l ↔ i ∈ l ∧ (f i).type = typeChar := by
  simp only [charFds, List.mem_filter, decide_eq_true_eq]

/-- The channels of a driver after those of `l` were opened. -/
theorem channelsOf_forked (h : s'.openChannels = s.openChannels ++ forkedChannels f addr child l)
    (d : ℕ) : s'.channelsOf d =
      s.channelsOf d ++ ((charFds f l).filter fun i => (f i).dst = d).map addr := by
  unfold PmState.channelsOf forkedChannels at *
  rw [h, List.filter_append, List.map_append, List.filter_map, List.map_map]
  rfl

/-- The room for one more of the channels. -/
theorem ForkRoom.lt (h : ForkRoom s f)
    (hopen : s'.openChannels = s.openChannels ++ forkedChannels f addr child l)
    {i : ℕ} {is : List ℕ}
    (hl : List.range maxFd = l ++ i :: is) (hi : (f i).type = typeChar) :
    (s'.channelsOf (f i).dst).length < maxChannels := by
  have hroom := h (f i).dst
  rw [hl, charFds_append, List.filter_append, List.length_append] at hroom
  have hone : 0 < ((charFds f (i :: is)).filter fun j => (f j).dst = (f i).dst).length :=
    List.length_pos_of_mem (List.mem_filter.mpr
      ⟨mem_charFds.mpr ⟨List.mem_cons_self, hi⟩, decide_eq_true rfl⟩)
  rw [channelsOf_forked hopen, List.length_append, List.length_map]
  omega

/-- A file is passed over. -/
theorem forkedChannels_skip {i : ℕ} (hi : (f i).type ≠ typeChar) :
    forkedChannels f addr child (l ++ [i]) = forkedChannels f addr child l := by
  unfold forkedChannels
  rw [charFds_append]
  simp [charFds, hi]

/-- One more channel. -/
theorem forkedChannels_snoc {i a : ℕ} (hil : i ∉ l) (hi : (f i).type = typeChar) :
    forkedChannels f (Function.update addr i a) child (l ++ [i]) =
      forkedChannels f addr child l ++ [⟨a, child, (f i).dst⟩] := by
  have hlast : charFds f (l ++ [i]) = charFds f l ++ [i] := by
    rw [charFds_append]
    simp [charFds, hi]
  unfold forkedChannels
  rw [hlast, List.map_append, List.map_singleton, Function.update_self]
  congr 1
  refine List.map_congr_left fun j hj => ?_
  have hne : j ≠ i := by
    rintro rfl
    exact hil (mem_charFds.mp hj).1
  rw [Function.update_of_ne hne]

/-- A descriptor that is no character device. -/
theorem FdsCopied.skip (h : FdsCopied f dst child l addr Y s s') {i : ℕ}
    (hi : (f i).type ≠ typeChar) : FdsCopied f dst child (l ++ [i]) addr Y s s' := by
  have heq : charFds f (l ++ [i]) = charFds f l := by
    rw [charFds_append]
    simp [charFds, hi]
  refine ⟨h.step, ?_, by rw [heq]; exact h.fds, by rw [heq]; exact h.pages⟩
  rw [forkedChannels_skip hi]
  exact h.opened

/-- A new channel at `a` for the descriptor `i`. -/
theorem FdsCopied.open (h : FdsCopied f dst child l addr Y s s') {i a : ℕ} (hil : i ∉ l)
    (hi : (f i).type = typeChar) (hstep : ChannelStep maxChannels Y s' t)
    (hopen : t.openChannels = s'.openChannels ++ [⟨a, child, (f i).dst⟩])
    (hfds : t.fdTable dst = s'.fdTable dst) (hY : ∀ n, (dst, n) ∉ Y) (ha : IsPage (2 ^ 32) a) :
    FdsCopied f dst child (l ++ [i]) (Function.update addr i a) Y s
      (t.setFd dst i { t.fdTable dst i with offset := a }) := by
  have hlast : charFds f (l ++ [i]) = charFds f l ++ [i] := by
    rw [charFds_append]
    simp [charFds, hi]
  have hkeep : ∀ j ∈ charFds f l, Function.update addr i a j = addr j := by
    intro j hj
    have hne : j ≠ i := by
      rintro rfl
      exact hil (mem_charFds.mp hj).1
    exact Function.update_of_ne hne _ _
  refine ⟨(h.step.trans hstep).setFd hY _ _, ?_, fun hne j hj => ?_, fun j hj => ?_⟩
  · change t.openChannels = _
    rw [hopen, h.opened, List.append_assoc, forkedChannels_snoc hil hi]
  · change (if dst = dst ∧ j = i then _ else t.fdTable dst j) = _
    rw [hlast, hfds]
    by_cases hji : j = i
    · have hnot : i ∉ charFds f l := fun hmem => hil (mem_charFds.mp hmem).1
      subst hji
      rw [if_pos ⟨rfl, rfl⟩, if_pos (List.mem_append_right _ (List.mem_singleton_self j)),
        h.fds hne j hj, if_neg hnot, Function.update_self]
    · rw [if_neg fun hand => hji hand.2, h.fds hne j hj, Function.update_of_ne hji]
      refine if_congr ?_ rfl rfl
      rw [List.mem_append, List.mem_singleton]
      exact (or_iff_left hji).symm
  · rw [hlast] at hj
    rcases List.mem_append.mp hj with hj | hj
    · rw [hkeep j hj]
      exact h.pages j hj
    · rw [List.mem_singleton.mp hj, Function.update_self]
      exact ha

/-- The view of the child is as `ept_pmap` has built it. -/
theorem FdsCopied.viewOf_regs (h : FdsCopied f dst child l addr Y s s') (ts : List ℕ)
    (regs : Regs) : (s'.updateVm child fun v => { v with regs := regs }).viewOf child ts
      ((s'.updateVm child fun v => { v with regs := regs }).cpus child).vm.pageList =
    s.viewOf child ts (s.cpus child).vm.pageList := by
  rw [updateVm_cpus, h.step.cpus, viewOf_congr ?_ ?_]
  · rfl
  · rw [← h.step.cpuPages, updateVm_cpus]
    rfl
  · rw [updateVm_cpus, h.step.cpus]
    rfl

/-- The pages that are held, without the page `dst`. -/
def PmState.heldBut (V : Finset ℕ) (dst : ℕ) (s : PmState) : Multiset (ℕ × ℕ) :=
  (s.own V + s.channelBlocks).filter fun x => x.1 ≠ dst

theorem notMem_heldBut (n : ℕ) : (dst, n) ∉ s.heldBut V dst := fun h =>
  (Multiset.mem_filter.mp h).2 rfl

/-- Opening channels keeps the pages that were held. -/
theorem FdsCopied.mem_held (h : FdsCopied f dst child l addr Y s s') {x : ℕ × ℕ}
    (hx : x ∈ s.own V + s.channelBlocks) : x ∈ s'.own V + s'.channelBlocks := by
  have hown : s'.own V = s.own V := by
    unfold PmState.own
    rw [h.step.cpus]
  have hch : s.channelBlocks ≤ s'.channelBlocks := by
    unfold PmState.channelBlocks
    rw [h.opened, List.map_append, ← Multiset.coe_add, pageBlocks_add]
    exact Multiset.le_add_right _ _
  rw [hown]
  exact Multiset.mem_of_le (add_le_add_right hch _) hx

/-- The entries that are copied: none if the child has no page for them. -/
def copiedFds (dst : ℕ) : List ℕ := if dst = 0 then [] else List.range maxFd

/-- Nothing is copied without a page of the parent. -/
theorem FdsCopied.none (hdst : dst ≠ 0 → ∀ i < maxFd, s.fdTable dst i = f i)
    (hl : charFds f l = []) : FdsCopied f dst child l addr Y s s := by
  refine ⟨.refl _ _ _, ?_, fun hne i hi => ?_, fun i hi => ?_⟩
  · rw [forkedChannels, hl]
    exact (List.append_nil _).symm
  · rw [hl, if_neg List.not_mem_nil]
    exact hdst hne i hi
  · rw [hl] at hi
    exact absurd hi List.not_mem_nil

/-- Copying the descriptors of the parent. -/
theorem forkFds_spec {parent : ℕ} (h : Books pool V maps 0 0 s) (hid : (s.cpus child).cpuid = child)
    (hc : child ∈ V) (hidle : ∀ d, (s.cpus d).vm.channels ≠ 0 → d ∈ V)
    (hclean : (s.cpus child).vm.fds ≠ 0 →
      ∀ i < maxFd, s.fdTable (s.cpus child).vm.fds i = ⟨0, 0, 0, 0⟩)
    (hroom : ForkRoom s (s.descriptors parent))
    (hP : P → child ≤ maxCpus ∧ (s.cpus child).hasVm = true ∧ FdsReady s (s.descriptors parent)) :
    wp (forkFds parent child) (fun _ s' => ∃ addr,
      Books pool V (mapChannels maps (forkedChannels (s.descriptors parent) addr child
        (copiedFds (s.cpus child).vm.fds))) 0 0 s' ∧
      FdsCopied (s.descriptors parent) (s.cpus child).vm.fds child (copiedFds (s.cpus child).vm.fds)
        addr (s.heldBut V (s.cpus child).vm.fds) s s') (Halts P) s := by
  unfold forkFds
  rw [wp_bind, wp_get]
  dsimp only
  unfold PmState.descriptors at *
  set src := (s.cpus parent).vm.fds
  set dst := (s.cpus child).vm.fds with hdst
  refine wp_ite.mpr ⟨fun hboth => ?_, fun hnone => ⟨fun _ => 0, ?_⟩⟩
  swap
  · have hchar : charFds (if src = 0 then fun _ => ⟨0, 0, 0, 0⟩ else s.fdTable src)
        (copiedFds dst) = [] := by
      by_cases h0 : dst = 0
      · rw [copiedFds, if_pos h0]
        rfl
      · rw [if_pos (not_not.mp fun hne => hnone ⟨h0, hne⟩)]
        exact List.filter_eq_nil_iff.mpr fun i _ => by simp
    refine ⟨?_, FdsCopied.none (fun hne => ?_) hchar⟩
    · rw [forkedChannels, hchar, List.map_nil, mapChannels_nil]
      exact h
    · rw [if_pos (not_not.mp fun hsrc => hnone ⟨hne, hsrc⟩)]
      exact hclean hne
  rw [if_neg hboth.2] at hroom ⊢
  rw [copiedFds, if_neg hboth.1, wp_bind, wp_modify]
  rw [if_neg hboth.2] at hP
  have hpage : (dst, 1) ∈ s.own V + s.channelBlocks := by
    rw [own_eq hc, VmProc.own, VmProc.ownPages]
    simp only [Multiset.mem_add, ← hdst, mem_blockAt hboth.1, true_or, or_true]
  -- the entries before the current one are done
  let I (is : List ℕ) (t : PmState) : Prop := ∃ pre addr, List.range maxFd = pre ++ is ∧
    Books pool V (mapChannels maps (forkedChannels (s.fdTable src) addr child pre)) 0 0 t ∧
    FdsCopied (s.fdTable src) dst child pre addr (s.heldBut V dst) s t
  refine (wp_forM (I := I) ?_ ?_).mono ?_ fun _ _ he => he
  · rintro i is t - ⟨pre, addr, hl, hb, hcopied⟩
    have hnodup := List.nodup_range (n := maxFd)
    rw [hl] at hnodup
    have hi : i ∉ pre :=
      fun hmem => (List.nodup_append.mp hnodup).2.2 i hmem i List.mem_cons_self rfl
    have hlt : i < maxFd := List.mem_range.mp (hl ▸ List.mem_append_right _ List.mem_cons_self)
    have hl' : List.range maxFd = pre ++ [i] ++ is := by rw [hl, List.append_assoc]; rfl
    have hentry : t.fdTable dst i = s.fdTable src i := by
      rw [hcopied.fds hboth.1 i hlt, if_neg fun hmem => hi (mem_charFds.mp hmem).1]
    have hcpus := hcopied.step.cpus
    rw [wp_bind, wp_get, hentry]
    refine wp_ite.mpr ⟨fun hchar => ?_, fun hchar => ⟨_, addr, hl', ?_, hcopied.skip hchar⟩⟩
    swap
    · rw [forkedChannels_skip hchar]
      exact hb
    rw [hid]
    have hready : P → ChannelReady t child (s.fdTable src i).dst := by
      intro hp
      obtain ⟨hmax, hvm, hfds⟩ := hP hp
      obtain ⟨hid', hvm', hdriver, harray⟩ := hfds i hlt hchar
      rw [← hcpus] at hvm hvm' hdriver harray
      exact ⟨⟨hmax, hid'⟩, ⟨hvm, hvm'⟩, hdriver, harray⟩
    refine ((localChannel_spec hb.account hb.arrays hb.held hc fun hne => hidle _ ?_).mono
      (fun _ _ h => h) fun _ _ he => he.mono hready).bind ?_
    · rwa [hcpus] at hne
    rintro a t₁ hopened
    rw [wp_modify]
    have hb₁ := hb.opened hopened (hroom.lt hcopied.opened hl hchar)
    rw [← mapChannels_append, ← forkedChannels_snoc hi hchar] at hb₁
    refine ⟨_, _, hl', hb₁.setFd dst i _, hcopied.open hi hchar (hopened.step.of_subset ?_)
      hopened.opened (hopened.step.fdTable dst 1 ?_) notMem_heldBut hopened.page.2⟩
    · intro x hx
      rw [add_zero]
      exact hcopied.mem_held (Multiset.mem_filter.mp hx).1
    · rw [add_zero]
      exact hcopied.mem_held hpage
  · refine ⟨[], fun _ => 0, rfl, ?_, ⟨rfl, fun t n ht => ?_, ⟨[], (List.append_nil _).symm,
      fun _ hx => absurd hx List.not_mem_nil⟩, .refl _, id⟩, (List.append_nil _).symm,
      fun _ i hi => if_pos ⟨rfl, hi⟩, fun i hi => absurd hi List.not_mem_nil⟩
    · rw [forkedChannels, charFds, List.filter_nil, List.map_nil, mapChannels_nil]
      exact h.update (fun _ _ => rfl) (fun _ => rfl) rfl rfl rfl rfl
    exact funext fun i => if_neg fun hand => (Multiset.mem_filter.mp ht).2 hand.1
  · rintro - t ⟨pre, addr, hl, hb, hcopied⟩
    rw [List.append_nil] at hl
    rw [← hl] at hb hcopied
    exact ⟨addr, hb, hcopied⟩

end Fds

/-! ### `local_fork` -/

/-- A VM that may be a parent: its sections can be mapped, and the allocator knows their places only
if they are held by a VM of `V`. -/
structure Forker (V : Finset ℕ) (parent : ℕ) (s : PmState) : Prop where
  placed : ∀ sec ∈ (s.cpus parent).vm.sections, sec.Placed
  shared : ∀ sec ∈ [(s.cpus parent).vm.code, (s.cpus parent).vm.rodata],
    reallocable s.memory sec.paddr = true → sec.paddr ≠ 0 ∧ sec.block ≤ s.shared V

/-- What a fork does. -/
structure Forked (pool : ℕ) (V : Finset ℕ) (maps : ℕ → View) (parent child : ℕ) (args : ForkArgs)
    (s s' : PmState) : Prop where
  books : ∃ ts os, s'.openChannels = s.openChannels ++ os ∧ Books pool (insert child V)
    (mapChannels (Function.update maps child (s'.viewOf child ts (s'.cpus child).vm.pageList)) os)
    0 0 s'
  other : ∀ d, d ≠ child → s'.cpus d = s.cpus d
  copies : (s'.cpus child).vm.Copies (s.cpus parent).vm
  regs : (s'.cpus child).vm.regs = { args.regs with rax := 0 }
  page : ∃ a, (s'.cpus child).vm.channels = (if isDriver child then a else 0) ∧
    (s'.cpus child).vm.fds = (if isDriver child then 0 else a) ∧ (s'.allocFailed = false → a ≠ 0)
  fdTable : ∀ t n, (t, n) ∈ s.own V + s.channelBlocks → s'.fdTable t = s.fdTable t
  opened : ∃ addr, s'.openChannels = s.openChannels ++ forkedChannels (s.descriptors parent) addr
      child (copiedFds (s'.cpus child).vm.fds) ∧
    (∀ i ∈ charFds (s.descriptors parent) (copiedFds (s'.cpus child).vm.fds),
      IsPage (2 ^ 32) (addr i)) ∧
    ((s'.cpus child).vm.fds ≠ 0 → ∀ i < maxFd, s'.fdTable (s'.cpus child).vm.fds i =
      if i ∈ charFds (s.descriptors parent) (copiedFds (s'.cpus child).vm.fds)
        then { s.descriptors parent i with offset := addr i } else s.descriptors parent i)
  writes : ∃ l, s'.arrayWrites = s.arrayWrites ++ l ∧ ∀ x ∈ l, x.2 < maxChannels
  live : s'.live = s.live
  layout : SameLayout s.memory s'.memory
  failed : s.allocFailed = true → s'.allocFailed = true

/-- The child has a VM, whose parent is known. -/
structure CpuInfo.Adopted (i : CpuInfo) (parent : ℕ) : Prop where
  hasVm : i.hasVm = true
  parent : i.vm.parent = parent
  state : i.vm.state = .running

section Fork

variable {pool c child n p : ℕ} {V : Finset ℕ} {maps : ℕ → View} {X S : Multiset (ℕ × ℕ)}
  {s s' : PmState} {args : ForkArgs}

/-- A VM in the books can fork. -/
theorem Account.forker (h : Account pool V maps X S s) (hc : c ∈ V) : Forker V c s := by
  refine ⟨(h.mapped c hc).placed, fun sec hsec hre => ?_⟩
  have hne : sec.paddr ≠ 0 := by
    rintro h0
    rw [h0] at hre
    simp [reallocable] at hre
  refine ⟨hne, ?_⟩
  rw [shared_eq hc]
  refine le_trans ?_ (Multiset.le_add_right _ _)
  simp only [List.mem_cons, List.not_mem_nil, or_false] at hsec
  rcases hsec with rfl | rfl
  · exact Multiset.le_add_right _ _
  · exact Multiset.le_add_left _ _

/-- A page of the VM `c` is no page of another VM or of a channel. -/
theorem Account.own_ne (h : Account pool (insert c V) maps X S s) (hc : c ∉ V) {t : ℕ}
    (hp : (p, 1) ∈ (s.cpus c).vm.own) (ht : (t, n) ∈ s.own V + s.channelBlocks) : t ≠ p := by
  rintro rfl
  have hled := h.ledger
  rw [own_insert hc, show pageBlocks (s.tables (insert c V)) +
    ((s.cpus c).vm.own + s.own V + (s.channelBlocks + X)) = (s.cpus c).vm.own +
      (s.own V + s.channelBlocks + (pageBlocks (s.tables (insert c V)) + X)) by abel] at hled
  have ht' := Multiset.mem_add.mpr
    (Or.inl (b := (t, n) ∈ pageBlocks (s.tables (insert c V)) + X) ht)
  obtain rfl : 1 = n := hled.eq_of_addr
    (Multiset.mem_add.mpr (Or.inl (Multiset.mem_add.mpr (Or.inl hp))))
    (Multiset.mem_add.mpr (Or.inl (Multiset.mem_add.mpr (Or.inr ht'))))
  exact Multiset.disjoint_left.mp (Multiset.nodup_add.mp hled.nodup).2.2 hp ht'

/-- The record of the child before its memory is set up. -/
def PmState.adopt (parent child : ℕ) (s : PmState) : PmState :=
  (s.updateCpu child fun i => { i with hasVm := true }).updateVm child fun v =>
    { v with parent := parent, state := .running }

theorem adopt_cpus (parent child : ℕ) (s : PmState) : (s.adopt parent child).cpus child =
    { s.cpus child with
      hasVm := true, vm := { (s.cpus child).vm with parent := parent, state := .running } } := by
  have hself : (s.updateCpu child fun i => { i with hasVm := true }).cpus child =
      { s.cpus child with hasVm := true } := Function.update_self _ _ _
  unfold PmState.adopt
  rw [updateVm_cpus, hself]

/-- The other VMs stay. -/
theorem adopt_other (parent : ℕ) (s : PmState) {d : ℕ} (hd : d ≠ child) :
    (s.adopt parent child).cpus d = s.cpus d :=
  (Function.update_of_ne hd _ _).trans (Function.update_of_ne hd _ _)

theorem updateVm_vm {α : Type} (child d : ℕ) (s : PmState) (f : VmProc → α) {g : VmProc → VmProc}
    (hf : ∀ v, f (g v) = f v) : f ((s.updateVm child g).cpus d).vm = f (s.cpus d).vm := by
  by_cases hd : d = child
  · subst hd
    rw [updateVm_cpus]
    exact hf _
  · rw [show (s.updateVm child g).cpus d = s.cpus d from Function.update_of_ne hd _ _]

theorem adopt_vm {α : Type} (parent child d : ℕ) (s : PmState) (f : VmProc → α)
    (hf : ∀ v, f { v with parent := parent, state := .running } = f v) :
    f ((s.adopt parent child).cpus d).vm = f (s.cpus d).vm := by
  by_cases hd : d = child
  · subst hd
    rw [adopt_cpus]
    exact hf _
  · rw [adopt_other parent s hd]

/-- The books do not depend on who the parent is. -/
theorem Books.adopt (h : Books pool V maps 0 0 s) (parent child : ℕ) :
    Books pool V maps 0 0 (s.adopt parent child) :=
  h.update (fun d _ => adopt_vm parent child d s VmProc.holdings fun _ => rfl)
    (fun d => adopt_vm parent child d s VmProc.channels fun _ => rfl) rfl rfl rfl rfl

/-- The descriptors that the child is to get, when its tables are built. -/
theorem ForkBuilt.descriptors (hb : ForkBuilt pool V maps c child s s') (hne : c ≠ child)
    (hidle : ∀ d ∉ V, (s.cpus d).vm.fds = 0 ∧ (s.cpus d).vm.channels = 0) :
    s'.descriptors c = s.descriptors c := by
  unfold PmState.descriptors
  rw [hb.frame.other hne]
  by_cases h0 : (s.cpus c).vm.fds = 0
  · rw [if_pos h0, if_pos h0]
  · have hc : c ∈ V := by
      by_contra hc
      exact h0 (hidle c hc).1
    rw [if_neg h0, if_neg h0]
    refine hb.frame.fdTable _ 1 ?_
    rw [own_eq hc, VmProc.own, VmProc.ownPages]
    simp only [Multiset.mem_add, mem_blockAt h0, true_or, or_true]

/-- The page of the child's descriptors is empty. -/
theorem ForkBuilt.clean (hb : ForkBuilt pool V maps c child s s')
    (hne : (s'.cpus child).vm.fds ≠ 0) :
    ∀ i < maxFd, s'.fdTable (s'.cpus child).vm.fds i = ⟨0, 0, 0, 0⟩ := by
  obtain ⟨a, -, hfds, -, hclean⟩ := hb.page
  intro i _
  rw [hfds] at hne ⊢
  split at hne
  · exact absurd rfl hne
  · rename_i hd
    rw [if_neg hd]
    exact (hclean hne i).2

/-- Only VMs that are counted have an array of channels. -/
theorem ForkBuilt.array_mem (hb : ForkBuilt pool V maps c child s s')
    (hidle : ∀ d ∉ V, (s.cpus d).vm.fds = 0 ∧ (s.cpus d).vm.channels = 0) (d : ℕ)
    (hd : (s'.cpus d).vm.channels ≠ 0) : d ∈ insert child V := by
  by_cases hdc : d = child
  · exact Finset.mem_insert.mpr (Or.inl hdc)
  · rw [hb.frame.other hdc] at hd
    refine Finset.mem_insert_of_mem ?_
    by_contra hnot
    exact hd (hidle d hnot).2

/-- The drivers take channels as before. -/
theorem ForkBuilt.fdsReady (hb : ForkBuilt pool V maps c child s s') (hf : Forkable V c child s)
    (hdesc : s'.descriptors c = s.descriptors c) (h : FdsReady s (s.descriptors c)) :
    FdsReady s' (s'.descriptors c) := by
  rw [hdesc]
  intro i hi hchar
  obtain ⟨hid, hvm, hdriver, harray⟩ := h i hi hchar
  -- the child itself has no array yet
  have hne : (s.descriptors c i).dst ≠ child := by
    intro heq
    rw [heq] at harray
    exact harray hf.empty.2
  rw [← hb.frame.other hne] at hvm hdriver harray
  exact ⟨hid, hvm, hdriver, harray⟩

/-- The steps of `local_fork` after a CPU for the child was found and its record was started. -/
def forkChild (parent child : ℕ) (args : ForkArgs) : Pm ℤ := do
  forkSections parent child
  forkStack parent child args.regs.rsp
  forkPages child
  eptPmap child
  forkFds parent child
  forkRegs parent child args
  return ((← get).cpus child).cpuid

/-- The child is built and booked. -/
theorem forkChild_spec {P : Prop} (h : Books pool V maps 0 0 s) (hf : Forkable V c child s)
    (hidle : ∀ d ∉ V, (s.cpus d).vm.fds = 0 ∧ (s.cpus d).vm.channels = 0)
    (hid : (s.cpus child).cpuid = child) (hadopt : (s.cpus child).Adopted c)
    (hroom : ForkRoom s (s.descriptors c)) (hchild : child ≤ maxCpus)
    (hready : P → (s.cpus c).vm.ForkReady args ∧ s.has1GB = false)
    (hfdsReady : P → FdsReady s (s.descriptors c)) :
    wp (forkChild c child args)
    (fun r s' => r = child ∧ Forked pool V maps c child args s s' ∧ (s'.cpus child).Adopted c)
      (Halts P) s := by
  refine forkMemory_spec h.account hf hready fun s₁ hb => ?_
  obtain ⟨ts, hbooks⟩ := hb.books hf h
  have hparent : s₁.cpus c = s.cpus c := hb.frame.other hf.ne
  have hid₁ : (s₁.cpus child).cpuid = child := by rw [hb.frame.self, hid]
  have hdesc := hb.descriptors hf.ne hidle
  obtain ⟨a, hch, hfds, hgranted, hclean⟩ := hb.page
  rw [hid] at hch hfds
  have hroom₁ : ForkRoom s₁ (s₁.descriptors c) := by
    unfold ForkRoom PmState.channelsOf
    rw [hdesc, hb.frame.openChannels]
    exact hroom
  refine (forkFds_spec (P := P) hbooks hid₁ (Finset.mem_insert_self _ _)
    (hb.array_mem hidle) hb.clean hroom₁
    fun hp => ⟨hchild, ?_, hb.fdsReady hf hdesc (hfdsReady hp)⟩).bind ?_
  · rw [hb.frame.self]
    exact hadopt.hasVm
  rintro - s₂ ⟨addr, hb₂, hcopied⟩
  have hcpus := hcopied.step.cpus
  rw [← hcpus, hdesc] at hcopied
  rw [← hcpus, hdesc] at hb₂
  have hcopies₂ : (s₂.cpus child).vm.Copies (s₂.cpus c).vm := by
    rw [hcpus, hparent]
    exact hb.copies
  have hready₂ : P → (s₂.cpus c).vm.ForkReady args := by
    rw [hcpus, hparent]
    exact fun hp => (hready hp).1
  refine (forkRegs_spec hf.ne hcopies₂ hready₂ fun hok hpos => ?_).bind ?_
  · have hmem : child ∈ insert child V := Finset.mem_insert_self _ _
    have hsec : (s₂.cpus child).vm.bss ∈ (s₂.cpus child).vm.sections := by simp [VmProc.sections]
    exact hb₂.account.section_inPool hmem hsec (hb₂.account.backed hok child hmem _ hsec hpos)
  rintro - s₃ rfl
  rw [wp_bind, wp_get, wp_pure, updateVm_cpus]
  have hview := hcopied.viewOf_regs (s := s₁) ts { args.regs with rax := 0 }
  have hopened : s₂.openChannels = s.openChannels ++ forkedChannels (s.descriptors c) addr child
      (copiedFds (s₂.cpus child).vm.fds) := hcopied.opened.trans (by rw [hb.frame.openChannels])
  refine ⟨by dsimp only; rw [hcpus, hid₁], ⟨⟨ts, _, hopened, ?_⟩, fun d hd => ?_, ?_, ?_,
    ⟨a, ?_, ?_, ?_⟩, fun t n ht => ?_, ⟨addr, ?_, ?_, ?_⟩, ?_, ?_, ?_, ?_⟩, ?_⟩
  · rw [hview, ← hcpus]
    refine hb₂.update (fun d _ => ?_) (fun d => ?_) rfl rfl rfl rfl
    · exact updateVm_vm child d s₂ VmProc.holdings fun _ => rfl
    · exact updateVm_vm child d s₂ VmProc.channels fun _ => rfl
  · refine (Function.update_of_ne hd _ _).trans ?_
    rw [hcpus]
    exact hb.frame.other hd
  · rw [updateVm_cpus, hcpus]
    obtain ⟨h₁, h₂, h₃, h₄, h₅, h₆⟩ := hb.copies
    exact ⟨h₁, h₂, h₃, h₄, h₅, h₆⟩
  · rw [updateVm_cpus]
  · rw [updateVm_cpus, hcpus]
    exact hch
  · rw [updateVm_cpus, hcpus]
    exact hfds
  · exact fun hok => hgranted (not_failed hcopied.step.failed hok)
  · refine (hcopied.step.fdTable t n (Multiset.mem_filter.mpr ⟨?_, ?_⟩)).trans
      (hb.frame.fdTable t n ht)
    · rw [own_insert hf.fresh, hb.frame.own hf.fresh, hb.frame.channelBlocks, add_assoc]
      exact Multiset.mem_add.mpr (Or.inr ht)
    · rw [hcpus]
      by_cases h0 : (s₁.cpus child).vm.fds = 0
      · rw [h0]
        refine (h.account.addr (n := n) ?_).2.1
        simp only [Multiset.mem_add] at ht ⊢
        tauto
      · refine hbooks.account.own_ne (n := n) hf.fresh ?_ ?_
        · exact Multiset.mem_add.mpr (Or.inr (Multiset.mem_add.mpr (Or.inl (mem_blockAt h0))))
        · rw [hb.frame.own hf.fresh, hb.frame.channelBlocks]
          exact ht
  · rw [updateVm_cpus]
    exact hopened
  · rw [updateVm_cpus]
    exact hcopied.pages
  · rw [updateVm_cpus]
    exact hcopied.fds
  · obtain ⟨g, hg⟩ := hb.frame.control
    obtain ⟨l, hl, hlt⟩ := hcopied.step.writes
    have hwrites : s₁.arrayWrites = s.arrayWrites := congrArg Control.arrayWrites hg
    exact ⟨l, by rw [← hwrites]; exact hl, hlt⟩
  · obtain ⟨g, hg⟩ := hb.frame.control
    exact hcopied.step.live.trans (congrArg Control.live hg)
  · exact hb.frame.layout.trans hcopied.step.layout
  · exact fun hfail => hcopied.step.failed (hb.frame.failed hfail)
  · have hstatus := hb.status
    simp only [VmProc.status, Prod.mk.injEq] at hstatus
    rw [hcpus, hb.frame.self]
    exact ⟨hadopt.hasVm, hstatus.2.1.trans hadopt.parent, hstatus.2.2.2.trans hadopt.state⟩

theorem adopt_shared (V : Finset ℕ) : (s.adopt c child).shared V = s.shared V :=
  Finset.sum_congr rfl fun d _ => adopt_vm c child d s VmProc.shared fun _ => rfl

theorem adopt_descriptors (hne : c ≠ child) :
    (s.adopt c child).descriptors c = s.descriptors c := by
  unfold PmState.descriptors
  rw [adopt_other c s hne]
  rfl

/-- The state before the fork instead of the one with the new record. -/
theorem Forked.of_adopt (h : Forked pool V maps c child args (s.adopt c child) s')
    (hne : c ≠ child) : Forked pool V maps c child args s s' := by
  have hparent : (s.adopt c child).cpus c = s.cpus c := adopt_other c s hne
  have hdesc : (s.adopt c child).descriptors c = s.descriptors c := adopt_descriptors hne
  have hown : (s.adopt c child).own V = s.own V :=
    Finset.sum_congr rfl fun d _ => adopt_vm c child d s VmProc.own fun _ => rfl
  refine ⟨h.books, fun d hd => (h.other d hd).trans (adopt_other c s hd), ?_, h.regs,
    h.page, ?_, ?_, h.writes, h.live, h.layout, h.failed⟩
  · rw [← hparent]
    exact h.copies
  · rw [← hown]
    exact h.fdTable
  · rw [← hdesc]
    exact h.opened

/-- `local_fork` refuses the request if every CPU has a VM; otherwise the child gets the first CPU
that is free. -/
theorem wp_localFork {Q : ℤ → PmState → Prop} {E : PmStop → PmState → Prop} (hm : s.machine.Sound)
    (hc : c < s.ncpus)
    (hnone : (∀ j, alwaysBusy ≤ j → j < s.ncpus → (s.cpus j).hasVm = true) → Q (-1) s)
    (hchild : ∀ child, alwaysBusy ≤ child → child < s.ncpus → (s.cpus child).hasVm = false →
      (∀ j, alwaysBusy ≤ j → j < child → (s.cpus j).hasVm = true) →
      wp (forkChild c child args) Q E (s.adopt c child)) : wp (localFork c args) Q E s := by
  have hncpus : s.ncpus ≤ maxCpus := hm.ncpus_le
  unfold localFork
  rw [show getCpuInfo c = some c from if_neg (by omega)]
  dsimp only
  rw [wp_bind, wp_get]
  refine (findFreeVm_spec fun hlt => absurd hm.ncpus_le (not_le.mpr hlt)).bind ?_
  rintro r s' ⟨rfl, hsome, hfull⟩
  cases r with
  | none => exact hnone (hfull rfl)
  | some child =>
    obtain ⟨hbusy, hlt, hfree, hfirst⟩ := hsome child rfl
    dsimp only
    rw [wp_bind, wp_modify, hm.cpuid_eq hc, wp_bind]
    refine wp_derefCpu (fun _ => ?_) fun hbig => absurd hbig (by omega)
    rw [wp_bind, wp_modify]
    exact hchild child hbusy hlt hfree hfirst

/-- A free CPU can take the child of a VM. -/
theorem Forker.forkable (hparent : Forker V c s) (hm : s.machine.Sound)
    (hV : ∀ d ∈ V, d < s.ncpus ∧ (s.cpus d).hasVm = true)
    (hidle : ∀ d ∉ V, (s.cpus d).vm.fds = 0 ∧ (s.cpus d).vm.channels = 0)
    (hvm : c ∈ V ∨ c < alwaysBusy) (hbusy : alwaysBusy ≤ child) (hlt : child < s.ncpus)
    (hfree : (s.cpus child).hasVm = false) : Forkable V c child (s.adopt c child) := by
  have hncpus : s.ncpus ≤ maxCpus := hm.ncpus_le
  have hfresh : child ∉ V := fun hmem => Bool.false_ne_true (hfree.symm.trans (hV child hmem).2)
  have hne : c ≠ child := by
    rintro rfl
    rcases hvm with hmem | hlow
    · exact hfresh hmem
    · omega
  have hrec : (s.adopt c child).cpus c = s.cpus c := adopt_other c s hne
  have hcard : V.card ≤ maxCpus := by
    have hsub : V ⊆ Finset.range s.ncpus := fun d hd => Finset.mem_range.mpr (hV d hd).1
    have hle := Finset.card_le_card hsub
    rw [Finset.card_range] at hle
    omega
  refine ⟨hne, hfresh, ?_, ?_, ?_, ?_, hcard⟩
  · rw [adopt_cpus]
    exact hidle child hfresh
  · rw [adopt_cpus]
    exact hm.isPage hlt
  · rw [hrec]
    exact hparent.placed
  · rw [hrec, adopt_shared]
    exact hparent.shared

/-- `local_fork`: the request is refused if every CPU has a VM; otherwise the first CPU that is free
gets the child. -/
theorem localFork_books {P : Prop} (h : Books pool V maps 0 0 s) (hm : s.machine.Sound)
    (hV : ∀ d ∈ V, d < s.ncpus ∧ (s.cpus d).hasVm = true)
    (hidle : ∀ d ∉ V, (s.cpus d).vm.fds = 0 ∧ (s.cpus d).vm.channels = 0)
    (hc : c < s.ncpus) (hvm : c ∈ V ∨ c < alwaysBusy) (hparent : Forker V c s)
    (hroom : ForkRoom s (s.descriptors c))
    (hready : P → (s.cpus c).vm.ForkReady args ∧ s.has1GB = false)
    (hfdsReady : P → FdsReady s (s.descriptors c)) :
    wp (localFork c args) (fun r s' =>
      (r = -1 ∧ s' = s ∧ ∀ j, alwaysBusy ≤ j → j < s.ncpus → (s.cpus j).hasVm = true) ∨
      ∃ child, (alwaysBusy ≤ child ∧ child < s.ncpus) ∧ (s.cpus child).hasVm = false ∧
        (∀ j, alwaysBusy ≤ j → j < child → (s.cpus j).hasVm = true) ∧
        r = child ∧ Forked pool V maps c child args s s' ∧ (s'.cpus child).Adopted c)
      (Halts P) s := by
  have hncpus : s.ncpus ≤ maxCpus := hm.ncpus_le
  refine wp_localFork hm hc (fun hfull => Or.inl ⟨rfl, rfl, hfull⟩) ?_
  intro child hbusy hlt hfree hfirst
  have hf := hparent.forkable hm hV hidle hvm hbusy hlt hfree
  have hrec : (s.adopt c child).cpus c = s.cpus c := adopt_other c s hf.ne
  have hready' : P → ((s.adopt c child).cpus c).vm.ForkReady args ∧
      (s.adopt c child).has1GB = false := by
    rw [hrec]
    exact hready
  have hdesc : (s.adopt c child).descriptors c = s.descriptors c := adopt_descriptors hf.ne
  have hfds' : P → FdsReady (s.adopt c child) ((s.adopt c child).descriptors c) := by
    rw [hdesc]
    intro hp i hi hchar
    obtain ⟨hid', hvm', hdriver, harray⟩ := hfdsReady hp i hi hchar
    have hne' : (s.descriptors c i).dst ≠ child := by
      intro heq
      rw [heq, hfree] at hvm'
      exact Bool.false_ne_true hvm'
    rw [← adopt_other c s hne'] at hvm' hdriver harray
    exact ⟨hid', hvm', hdriver, harray⟩
  refine (forkChild_spec (h.adopt c child) hf (fun d hd => ?_) ?_ ?_ ?_ (by omega) hready'
    hfds').mono ?_ fun _ _ he => he
  · rw [adopt_vm c child d s VmProc.fds fun _ => rfl,
      adopt_vm c child d s VmProc.channels fun _ => rfl]
    exact hidle d hd
  · rw [adopt_cpus]
    exact hm.cpuid_eq hlt
  · rw [adopt_cpus]
    exact ⟨rfl, rfl, rfl⟩
  · rw [hdesc]
    exact hroom
  · rintro r t ⟨rfl, hforked, hadopted⟩
    exact Or.inr ⟨child, ⟨hbusy, hlt⟩, hfree, hfirst, rfl, hforked.of_adopt hf.ne, hadopted⟩

end Fork

end Savannah
