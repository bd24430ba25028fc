import Savannah.Pm.Ownership
import Savannah.Pm.Supply

/-!
# Requests that succeed

A request that is in order stops for one reason only, a failed allocation (`Halts`).  Here is how
many pages a request takes at most: from a state with so many pages in reserve (`PmState.Reserve`)
it returns.  A fork needs `forkCost` pages, a channel nine; an exit needs none and gives back what
the VM had.
-/

namespace Savannah

open Foundation PmState MemoryState

/-- A stop before which no allocation has failed. -/
def NoFailure (_ : PmStop) (s : PmState) : Prop := s.allocFailed = false

/-- A request in order that does not run out of memory returns. -/
theorem wp.returns {α : Type} {x : Pm α} {P : Prop} {Q Q' : α → PmState → Prop}
    {s : PmState} (hP : P) (h : wp x Q (Halts P) s) (h' : wp x Q' NoFailure s) :
    ∃ a t, x s = .ok a t ∧ Q a t ∧ Q' a t := by
  refine (h.and h').exists_ok ?_
  rintro e t ⟨⟨-, hfail | hno⟩, hok⟩
  · exact Bool.false_ne_true (Eq.trans (Eq.symm hok) hfail)
  · exact hno hP

/-! ### Steps that take no pages -/

/-- A condition on the allocator, and on the record of its failures, that holds on when pages are
released. -/
class FreeClosed (I : PmState → Prop) : Prop where
  same : ∀ {s t : PmState}, t.memory = s.memory → t.allocFailed = s.allocFailed → I s → I t
  free : ∀ {s : PmState} {a : ℕ} {m : MemoryState}, freeMemPages a s.memory = .ok m → I s →
    I { s with memory := m }

instance : FreeClosed fun s => s.allocFailed = false where
  same _ hf h := hf.trans h
  free _ h := h

instance {pool n : ℕ} : FreeClosed (PmState.Reserve pool n) where
  same hm hf h := ⟨by rw [hm]; exact h.room, hf.trans h.ok⟩
  free hm h := ⟨h.room.free hm, h.ok⟩

section Keep

variable {pool n c a len page channel k : ℕ} {I : PmState → Prop}

/-- A step that touches neither the allocator nor the record of its failures. -/
theorem PmState.Reserve.of_same {s t : PmState} (h : s.Reserve pool n) (hm : t.memory = s.memory)
    (hf : t.allocFailed = s.allocFailed) : t.Reserve pool n := FreeClosed.same hm hf h

theorem PmState.Reserve.of_le {s : PmState} (h : s.Reserve pool k) (hle : n ≤ k) :
    s.Reserve pool n :=
  ⟨h.room.of_le hle, h.ok⟩

variable [hI : FreeClosed I]

omit hI in
theorem FreeClosed.modify (hI : FreeClosed I) {f : PmState → PmState}
    (hm : ∀ s, (f s).memory = s.memory) (hf : ∀ s, (f s).allocFailed = s.allocFailed) :
    Within (Preserves I) (modify f : Pm PUnit) :=
  Within.modify fun s h => hI.same (hm s) (hf s) h

instance {f : VmProc → VmProc} :
    IsWithin (Preserves I) (modify (updateVm c f) : Pm PUnit) :=
  ⟨hI.modify (fun _ => rfl) fun _ => rfl⟩

instance {f : CpuInfo → CpuInfo} :
    IsWithin (Preserves I) (modify (updateCpu c f) : Pm PUnit) :=
  ⟨hI.modify (fun _ => rfl) fun _ => rfl⟩

instance {m : Post} : IsWithin (Preserves I) (modify (post m) : Pm PUnit) :=
  ⟨hI.modify (fun _ => rfl) fun _ => rfl⟩

/-- Releasing pages. -/
instance : IsWithin (Preserves I) (freePages a) := by
  refine ⟨fun s => ?_⟩
  unfold freePages wp withMemory
  dsimp only
  cases hm : freeMemPages a s.memory with
  | error e =>
    intro h
    exact h
  | ok m =>
    intro h
    exact hI.free hm h

instance {e : ℕ} : IsWithin (Preserves I) (setChannel page a e) :=
  ⟨hI.modify (fun _ => rfl) fun _ => rfl⟩

instance : IsWithin (Preserves I) (modify fun s =>
    { s with openChannels := s.openChannels.filter fun o => o.addr ≠ channel } : Pm PUnit) :=
  ⟨hI.modify (fun _ => rfl) fun _ => rfl⟩

instance {fds : ℕ} : IsWithin (Preserves I)
    (modify fun s => s.setFd fds k { s.fdTable fds k with offset := 0 } : Pm PUnit) :=
  ⟨hI.modify (fun _ => rfl) fun _ => rfl⟩

/-- A step that takes no pages, in front of one that needs `n`. -/
theorem PmState.Reserve.keep {α : Type} {x : Pm α}
    [hx : IsWithin (Preserves (PmState.Reserve pool n)) x]
    {s : PmState} (h : s.Reserve pool n) : wp x (fun _ t => t.Reserve pool n) NoFailure s :=
  (hx.within s).mono (fun _ _ hr => hr h) fun _ _ hr => (hr h).ok

end Keep

/-! ### Steps that take pages -/

/-- `n` pages are in reserve, and the blocks `S` are held by VMs that may share them; they can be
shared `k` more times. -/
structure PmState.Stock (pool n k : ℕ) (S : Multiset (ℕ × ℕ)) (m : MemoryState) (s : PmState) :
    Prop where
  reserve : s.Reserve pool n
  ledger : ∃ X S', Ledger s.memory pool X S' ∧ S ≤ S' ∧ Multiset.card S' + k < 2 ^ 32
  layout : SameLayout m s.memory

section Take

variable {pool n k c child parent : ℕ} {S : Multiset (ℕ × ℕ)} {m : MemoryState} {s : PmState}
  {E : PmStop → PmState → Prop}

theorem allocPages_stock {j : ℕ} (h : s.Stock pool (n + j) k S m) :
    wp (allocPages j) (fun _ t => t.Stock pool n k S m) E s := by
  obtain ⟨hres, ⟨X, S', hled, hle, hcard⟩, hlay⟩ := h
  by_cases hj : j = 0
  · subst hj
    exact allocPages_zero ⟨hres, ⟨X, S', hled, hle, hcard⟩, hlay⟩
  refine (allocPages_reserve hres (Nat.pos_of_ne_zero hj)).mono ?_ fun _ _ he => he
  rintro a t ⟨ha, m', rfl, halloc, hres'⟩
  rcases hled.alloc (Nat.pos_of_ne_zero hj) with hnone | ⟨b, m₁, hm₁, -, hlay₁, hled₁, -⟩
  · rw [hnone] at halloc
    exact absurd (Prod.mk.inj (Except.ok.inj halloc)).1.symm ha
  · rw [hm₁] at halloc
    obtain ⟨rfl, rfl⟩ := Prod.mk.inj (Except.ok.inj halloc)
    exact ⟨hres', ⟨_, S', hled₁, hle, hcard⟩, hlay.trans hlay₁⟩

/-- A section that parent and child may share. -/
theorem forkShared_stock {sec : VmSection}
    (h : s.Stock pool (n + pages sec.size size4KB) (k + 1) S m)
    (hsec : reallocable m sec.paddr = true → (sec.paddr, pages sec.size size4KB) ∈ S) :
    wp (forkShared sec) (fun _ t => t.Stock pool n k S m) E s := by
  unfold forkShared
  rw [wp_bind, wp_get]
  have hfewer : s.Stock pool (n + pages sec.size size4KB) k S m := by
    obtain ⟨X, S', hled, hle, hcard⟩ := h.ledger
    exact ⟨h.reserve, ⟨X, S', hled, hle, by omega⟩, h.layout⟩
  refine wp_ite.mpr ⟨fun hre => ?_, fun _ => allocPages_stock hfewer⟩
  obtain ⟨hres, ⟨X, S', hled, hle, hcard⟩, hlay⟩ := h
  rw [hlay.reallocable_eq] at hre
  have hmem : (sec.paddr, pages sec.size size4KB) ∈ S' := Multiset.mem_of_le hle (hsec hre)
  obtain ⟨m', hm', hlay', hled'⟩ := hled.realloc hmem (by omega)
  have hroom := hled.realloc_room hmem (by omega) hres.room hm'
  unfold reallocPages wp withMemory
  rw [hm']
  refine ⟨⟨hroom.of_le (Nat.le_add_right n _), hres.ok⟩, ⟨X, _, hled', ?_, ?_⟩, hlay.trans hlay'⟩
  · exact hle.trans (Multiset.le_cons_self S' _)
  · rw [Multiset.card_cons]
    omega

theorem PmState.Stock.updateVm (h : s.Stock pool n k S m) (c : ℕ) (f : VmProc → VmProc) :
    (s.updateVm c f).Stock pool n k S m := ⟨h.reserve.of_same rfl rfl, h.ledger, h.layout⟩

/-- The pages of the sections of a VM. -/
def VmProc.sectionPages (v : VmProc) : ℕ := (v.sections.map fun sec => pages sec.size size4KB).sum

/-- What the sections take. -/
theorem forkSections_stock (h : s.Stock pool (n + (s.cpus parent).vm.sectionPages) 2 S m)
    (hshared : ∀ sec ∈ [(s.cpus parent).vm.code, (s.cpus parent).vm.rodata],
      reallocable m sec.paddr = true → (sec.paddr, pages sec.size size4KB) ∈ S) :
    wp (forkSections parent child) (fun _ t => t.Reserve pool n) E s := by
  unfold forkSections
  rw [wp_bind, wp_get]
  dsimp only
  generalize (s.cpus parent).vm = p at h hshared ⊢
  obtain ⟨hcode, hrodata, -⟩ := List.forall_mem_cons.mp hshared |>.imp_right List.forall_mem_cons.mp
  simp only [VmProc.sectionPages, VmProc.sections, List.map_cons, List.map_nil, List.sum_cons,
    List.sum_nil, add_zero] at h
  generalize hs : pages p.stack.size size4KB = ps at h ⊢
  generalize hb : pages p.bss.size size4KB = pb at h ⊢
  generalize hd : pages p.data.size size4KB = pd at h ⊢
  rw [wp_bind, wp_modify]
  have h₀ := h.updateVm child fun v => { v with
    startVaddr := p.startVaddr, startPaddr := p.startPaddr
    endVaddr := p.endVaddr, endPaddr := p.endPaddr }
  rw [show n + (pages p.code.size size4KB + (pd + (pages p.rodata.size size4KB + (pb + ps)))) =
    n + ps + pb + pages p.rodata.size size4KB + pd + pages p.code.size size4KB by omega] at h₀
  refine (forkShared_stock h₀ hcode).bind fun a s₁ h₁ => ?_
  rw [wp_bind, wp_modify]
  refine (allocPages_stock (h₁.updateVm child _)).bind fun a s₂ h₂ => ?_
  rw [wp_bind, wp_modify]
  refine (forkShared_stock (h₂.updateVm child _) hrodata).bind fun a s₃ h₃ => ?_
  rw [wp_bind, wp_modify]
  refine (allocPages_stock (h₃.updateVm child _)).bind fun a s₄ h₄ => ?_
  rw [wp_bind, wp_modify]
  refine (allocPages_stock (h₄.updateVm child _)).bind fun a s₅ h₅ => ?_
  rw [wp_modify]
  exact h₅.reserve.of_same rfl rfl

/-- One page filled with zeros. -/
theorem allocCleanPages_reserve (h : s.Reserve pool (n + 1)) :
    wp (allocCleanPages 1) (fun a t => a ≠ 0 ∧ t.Reserve pool n) E s := by
  unfold allocCleanPages
  refine (allocPages_reserve h Nat.one_pos).bind ?_
  rintro a t ⟨ha, m', rfl, -, hres⟩
  rw [if_pos (Nat.pos_of_ne_zero ha), wp_bind, wp_modify, wp_pure]
  exact ⟨ha, hres.of_same rfl rfl⟩

/-- A fork takes one page. -/
theorem forkPages_reserve (h : s.Reserve pool (n + 1)) :
    wp (forkPages child) (fun _ t => t.Reserve pool n) E s := by
  unfold forkPages
  rw [wp_bind, wp_get]
  refine wp_ite.mpr ⟨fun _ => ?_, fun _ => ?_⟩
  all_goals
    refine (allocCleanPages_reserve h).bind ?_
    rintro a t ⟨-, hres⟩
    rw [wp_modify]
    exact hres.of_same rfl rfl

/-- What an identity page takes. -/
theorem eptIdentity_reserve {ept page mtype prot : ℕ} (h : s.Reserve pool (n + 4)) :
    wp (eptIdentity ept page mtype prot) (fun _ t => t.Reserve pool n) NoFailure s := by
  have hO : pmTables.Funded (fun n s => s.Reserve pool n ∧ True) NoFailure :=
    pmTables_funded (K := fun _ => True) fun _ _ _ _ _ => trivial
  refine (eptIdentity_funded (n := n) hO (fun q n s hs _ => hs.1.ok) ⟨h, trivial⟩).mono
    (fun _ _ hr => hr.1) fun _ _ he => he

/-- A channel takes its page and at most four tables for each end. -/
theorem localChannel_reserve {end1 end2 : ℕ} (h : s.Reserve pool (n + 9)) :
    wp (localChannel end1 end2) (fun _ t => t.Reserve pool n) NoFailure s := by
  unfold localChannel
  refine h.keep.bind fun c₁ s₁ h₁ => h₁.keep.bind fun c₂ s₂ h₂ => ?_
  rw [wp_bind, wp_get]
  refine wp_ite.mpr ⟨fun _ => h₂.ok, fun _ => wp_ite.mpr ⟨fun _ => h₂.ok, fun _ =>
    wp_ite.mpr ⟨fun _ => h₂.ok, fun _ => ?_⟩⟩⟩
  rw [show pages size4KB size4KB = 1 from rfl]
  refine (allocCleanPages_reserve (n := n + 8) h₂).bind ?_
  rintro a s₃ ⟨ha, h₃⟩
  rw [if_neg ha]
  refine (eptIdentity_reserve (n := n + 4) h₃).bind fun _ s₄ h₄ => ?_
  refine (eptIdentity_reserve h₄).bind fun _ s₅ h₅ => h₅.keep.bind fun _ s₆ h₆ => ?_
  rw [wp_bind, wp_modify, wp_pure]
  exact h₆.of_same rfl rfl

/-- What the channels take. -/
theorem forkFds_reserve (h : s.Reserve pool (n + maxFd * 9)) :
    wp (forkFds parent child) (fun _ t => t.Reserve pool n) NoFailure s := by
  unfold forkFds
  rw [wp_bind, wp_get]
  refine wp_ite.mpr ⟨fun _ => ?_, fun _ => h.of_le (Nat.le_add_right n _)⟩
  rw [wp_bind, wp_modify]
  refine forM_funded_const (P := fun n (t : PmState) => t.Reserve pool n) (c := 9)
    (fun i _ n t ht => ?_) (h.of_same rfl rfl)
  rw [wp_bind, wp_get]
  refine wp_ite.mpr ⟨fun _ => ?_, fun _ => ht.of_le (Nat.le_add_right n _)⟩
  refine (localChannel_reserve ht).bind fun a t' ht' => ?_
  rw [wp_modify]
  exact ht'.of_same rfl rfl

end Take

/-! ### Fork -/

/-- The pages that a fork of the VM `v` takes at most: its sections, the page for descriptors or
channels, the tables, and a channel for each descriptor. -/
def forkCost (v : VmProc) : ℕ := v.sectionPages + 1 + eptCost v + maxFd * 9

section Fork

variable {pool n c child B : ℕ} {V : Finset ℕ} {maps : ℕ → View} {s : PmState}
  {args : ForkArgs}

/-- A copy costs the same. -/
theorem VmProc.Copies.eptCost_eq {v p : VmProc} (h : v.Copies p) : eptCost v = eptCost p := by
  unfold eptCost VmProc.sections
  simp only [List.map_cons, List.map_nil, h.code.2, h.data.2, h.rodata.2, h.bss.2, h.stack.2]

/-- What the cost of the tables of `c` depends on. -/
def PmState.eptShape (c : ℕ) (s : PmState) : Bool × ℕ := (s.has1GB, eptCost (s.cpus c).vm)

instance {α : Type} {x : Pm α} [hx : IsWithin (Same PmState.control) x] :
    IsWithin (Same (PmState.eptShape c)) x :=
  ⟨hx.within.mono fun _ _ h => congrArg (fun k : Control => (k.has1GB, eptCost (k.cpus c).vm)) h⟩

theorem eptShape_updateVm {f : VmProc → VmProc} (hf : ∀ v, (f v).sections = v.sections) :
    (s.updateVm c f).eptShape c = s.eptShape c := by
  unfold PmState.eptShape eptCost
  rw [updateVm_cpus, hf]
  rfl

instance {rsp : ℕ} : IsWithin (Same (PmState.eptShape child)) (forkStack c child rsp) := by
  unfold forkStack
  infer_instance

instance : IsWithin (Same (PmState.eptShape child)) (forkPages child) := by
  unfold forkPages
  refine ⟨Within.get.bind fun s => Within.ite ?_ ?_⟩
  all_goals
    refine IsWithin.within.bind fun a => Within.modify fun t => ?_
    exact eptShape_updateVm fun _ => rfl

/-- A step that takes pages but leaves the sections alone. -/
theorem wp.with_shape {α : Type} {x : Pm α} {k : ℕ} {b : Bool × ℕ}
    [hx : IsWithin (Same (PmState.eptShape child)) x] (hs : s.eptShape child = b)
    (h : wp x (fun _ t => t.Reserve pool k) NoFailure s) :
    wp x (fun _ t => t.Reserve pool k ∧ t.eptShape child = b) NoFailure s :=
  (h.and (hx.within s)).mono (fun _ _ hr => ⟨hr.1, Eq.trans hr.2 hs⟩) fun _ _ he => he.1

/-- What a child takes. -/
theorem forkChild_reserve (h : Account pool V maps 0 0 s) (hf : Forkable V c child s)
    (hgb : s.has1GB = false) (hres : s.Reserve pool (n + forkCost (s.cpus c).vm)) :
    wp (forkChild c child args) (fun _ t => t.Reserve pool n) NoFailure s := by
  have hcard := card_shared V s
  have hV : V.card ≤ 255 := hf.card
  have hstock : s.Stock pool (n + maxFd * 9 + eptCost (s.cpus c).vm + 1 +
      (s.cpus c).vm.sectionPages) 2 (s.shared V) s.memory := by
    refine ⟨hres.of_le (by unfold forkCost; omega), ⟨_, _, h.ledger, ?_, ?_⟩, .refl _⟩
    · exact Multiset.le_add_right _ _
    · rw [add_zero]
      omega
  have hshared : ∀ sec ∈ [(s.cpus c).vm.code, (s.cpus c).vm.rodata],
      reallocable s.memory sec.paddr = true → (sec.paddr, pages sec.size size4KB) ∈ s.shared V := by
    intro sec hsec hre
    obtain ⟨hne, hle⟩ := hf.shared sec hsec hre
    exact Multiset.mem_of_le hle (mem_blockAt hne)
  have hspec := forkSections_spec (E := NoFailure) h hf.fresh hf.shared (by rw [add_zero]; omega)
  refine ((hspec.and (forkSections_stock (E := NoFailure) hstock hshared)).mono (fun _ _ hr => hr)
    fun _ _ he => he.1).bind ?_
  rintro - s₁ ⟨⟨o₁, hcopies, -⟩, h₁⟩
  have hshape : s₁.eptShape child = (false, eptCost (s.cpus c).vm) := by
    obtain ⟨m, b, f, rfl⟩ := o₁.same
    exact Prod.ext hgb hcopies.eptCost_eq
  refine (wp.with_shape hshape h₁.keep).bind ?_
  rintro - s₂ ⟨h₂, hshape₂⟩
  refine (wp.with_shape hshape₂ (forkPages_reserve h₂)).bind ?_
  rintro - s₃ ⟨h₃, hshape₃⟩
  obtain ⟨hgb₃, hcost₃⟩ := Prod.mk.inj hshape₃
  rw [← hcost₃] at h₃
  refine ((eptPmap_reserve hgb₃ h₃).mono (fun _ _ hr => hr) fun _ _ he => he.2).bind
    fun _ s₄ h₄ => ?_
  refine (forkFds_reserve h₄).bind fun _ s₅ h₅ => h₅.keep.bind fun _ s₆ h₆ => ?_
  rw [wp_bind, wp_get, wp_pure]
  exact h₆

/-- What a fork takes. -/
theorem localFork_reserve (h : Account pool V maps 0 0 s) (hm : s.machine.Sound)
    (hV : ∀ d ∈ V, d < s.ncpus ∧ (s.cpus d).hasVm = true)
    (hidle : ∀ d ∉ V, (s.cpus d).vm.fds = 0 ∧ (s.cpus d).vm.channels = 0)
    (hc : c < s.ncpus) (hvm : c ∈ V ∨ c < alwaysBusy) (hparent : Forker V c s)
    (hgb : s.has1GB = false) (hres : s.Reserve pool (n + forkCost (s.cpus c).vm)) :
    wp (localFork c args) (fun _ t => t.Reserve pool n) NoFailure s := by
  refine wp_localFork hm hc (fun _ => hres.of_le (Nat.le_add_right n _)) ?_
  intro child hbusy hlt hfree _
  have hf := hparent.forkable hm hV hidle hvm hbusy hlt hfree
  have hacc : Account pool V maps 0 0 (s.adopt c child) :=
    h.update (fun d _ => adopt_vm c child d s VmProc.holdings fun _ => rfl) rfl rfl rfl rfl
  refine forkChild_reserve hacc hf hgb ?_
  rw [adopt_other c s hf.ne]
  exact hres.of_same rfl rfl

/-- What a fork that was not refused has done: the child has the first CPU that was free. -/
structure ForkDone (pool B c child : ℕ) (s t : PmState) : Prop where
  accounted : ∃ maps, t.Accounted pool B maps
  range : alwaysBusy ≤ child ∧ child < s.ncpus
  free : (s.cpus child).hasVm = false
  first : ∀ j, alwaysBusy ≤ j → j < child → (s.cpus j).hasVm = true
  spawned : Spawned c child s t

/-- With a free CPU and enough memory a fork succeeds. -/
theorem PmState.Accounted.fork_returns (args : ForkArgs) (h : s.Accounted pool B maps)
    (hB : maxChannels ≤ B) (hm : s.machine.Sound) (hlt : c < s.ncpus) (hc : c ∈ s.live ∨ c = initId)
    (hroom : ForkRoom s (s.descriptors c)) (hready : (s.cpus c).vm.ForkReady args)
    (hfds : FdsReady s (s.descriptors c)) (hgb : s.has1GB = false)
    (hcpu : ∃ j, alwaysBusy ≤ j ∧ j < s.ncpus ∧ (s.cpus j).hasVm = false)
    (hres : s.Reserve pool (n + forkCost (s.cpus c).vm)) :
    ∃ t child, handle c (.fork args) s = .ok () t ∧ ForkDone pool B c child s t ∧
      t.Reserve pool n := by
  have hvm : c ∈ s.live ∨ c < alwaysBusy := hc.imp_right fun heq => by rw [heq]; decide
  have hsupply : wp (handle c (.fork args)) (fun _ t => t.Reserve pool n) NoFailure s := by
    refine (localFork_reserve h.books.account hm (fun d hd => (h.live d hd).2) h.idle hlt hvm
      (h.forker hc) hgb hres).bind fun r t ht => ?_
    refine wp_ite.mpr ⟨fun _ => ?_, fun _ => ?_⟩
    · rw [wp_bind, wp_modify]
      exact ht.of_same rfl rfl
    · exact ht.of_same rfl rfl
  have hspec := h.fork (P := True) hB hm hlt hc hroom (fun _ => ⟨hready, hgb⟩) fun _ => hfds
  obtain ⟨⟨⟩, t, ht, ⟨⟨maps', hacc, -⟩, hcase⟩, hleft⟩ := wp.returns trivial hspec hsupply
  rcases hcase with ⟨-, hfull⟩ | ⟨child, hrange, hfree, hfirst, hsp⟩
  · obtain ⟨j, hbusy, hj, hfree⟩ := hcpu
    exact absurd (hfree.symm.trans (hfull j hbusy hj)) Bool.false_ne_true
  · exact ⟨t, child, ht, ⟨⟨maps', hacc⟩, hrange, hfree, hfirst, hsp⟩, hleft⟩

end Fork

/-! ### Channels and exits -/

section Others

variable {pool n c B : ℕ} {maps : ℕ → View} {s : PmState}

/-- A channel between a VM and a driver that takes channels. -/
theorem PmState.Accounted.channel_returns {end1 end2 : ℕ} (h : s.Accounted pool B maps)
    (hB : maxChannels ≤ B) (h1 : end1 ∈ s.live) (hm : s.machine.Sound)
    (hroom : (s.channelsOf end2).length < maxChannels) (hdriver : DriverReady s end2)
    (hres : s.Reserve pool (n + 9)) :
    ∃ t a, handle c (.channel end1 end2) s = .ok () (t.post ⟨pmId, c, channelIpc, .channel a⟩) ∧
      ChannelsOnly s t ∧
      t.openChannels = s.openChannels ++ [⟨a, end1, end2⟩] ∧
      (t.post ⟨pmId, c, channelIpc, .channel a⟩).Reserve pool n := by
  have hlive := h.live end1 h1
  have hready : ChannelReady s end1 end2 := by
    have hle := hm.ncpus_le
    have hlt : end1 < s.ncpus := hlive.2.1
    exact ⟨⟨(Nat.le_of_lt hlt).trans hle, hdriver.id⟩, ⟨hlive.2.2, hdriver.hasVm⟩, hdriver.driver,
      hdriver.array⟩
  have hsupply : wp (handle c (.channel end1 end2)) (fun _ t => t.Reserve pool n) NoFailure s :=
    (localChannel_reserve hres).bind fun a t ht => ht.of_same rfl rfl
  obtain ⟨⟨⟩, t, ht, ⟨t', a, -, rfl, honly, hopened, -⟩, hleft⟩ :=
    wp.returns hready (h.channel (c := c) hB h1 hroom) hsupply
  exact ⟨t', a, ht, honly, hopened, hleft⟩

/-- A request that takes no pages, in front of a step that does not touch the allocator. -/
theorem handle_keeps {I : PmState → Prop} [hI : FreeClosed I] {α : Type} {x : Pm α}
    [hx : IsWithin (Preserves I) x] {f : PmState → PmState} (hm : ∀ s, (f s).memory = s.memory)
    (hf : ∀ s, (f s).allocFailed = s.allocFailed) : Within (Preserves I) (do let _ ← x; modify f) :=
  hx.within.bind fun _ => hI.modify hm hf

/-- A VM whose channels are open can exit. -/
theorem PmState.Accounted.exit_returns (status : ℤ) (h : s.Accounted pool B maps)
    (hB : B ≤ maxChannels + 1) (hm : s.machine.Sound) (hc : c ∈ s.live)
    (hempty : s.channelsOf c = [])
    (hroom : ∀ a ∈ closedChannels (s.descriptors c) (List.range maxFd), CloseRoom B s a)
    (hfds : FdsOpen s (s.descriptors c)) (hparent : (s.cpus c).vm.parent ≤ maxCpus)
    (hok : s.allocFailed = false) :
    ∃ t, handle c (.exit status) s = .ok () t ∧ Departed c s t ∧
      t.allocFailed = false ∧ ∀ n, s.Reserve pool n → t.Reserve pool n := by
  have hkeep : ∀ (I : PmState → Prop) [FreeClosed I],
      Within (Preserves I) (handle c (.exit status)) := fun I _ =>
    handle_keeps (x := localExit c status) (fun _ => rfl) fun _ => rfl
  have hsupply : wp (handle c (.exit status)) (fun _ t => t.allocFailed = false) NoFailure s :=
    (hkeep (fun s => s.allocFailed = false) s).mono (fun _ _ hr => hr hok) fun _ _ hr => hr hok
  have hspec := h.exit (P := True) status hB hm hc hempty hroom fun _ => ⟨hfds, hparent⟩
  obtain ⟨⟨⟩, t, ht, ⟨-, hdep⟩, hok'⟩ := wp.returns trivial hspec hsupply
  exact ⟨t, ht, hdep, hok', fun n => (hkeep (PmState.Reserve pool n) s).ok ht⟩

end Others

/-! ### The first VMs -/

/-- INIT can fork: the servers and INIT are the only VMs. -/
structure PmState.InitReady (args : ForkArgs) (s : PmState) : Prop where
  init : initId < s.ncpus
  hasVm : ∀ j, (s.cpus j).hasVm = true ↔ j < alwaysBusy
  ready : (s.cpus initId).vm.ForkReady args
  pages : s.has1GB = false

/-- A child of INIT that has done nothing yet: a driver has an array of channels, another VM has a
table of descriptors. -/
structure PmState.FirstChild (s : PmState) (init : VmProc) (j : ℕ) : Prop where
  adopted : (s.cpus j).Adopted initId
  copies : (s.cpus j).vm.Copies init
  pages : if isDriver j then (s.cpus j).vm.channels ≠ 0 ∧ (s.cpus j).vm.fds = 0 else
    (s.cpus j).vm.channels = 0 ∧ (s.cpus j).vm.fds ≠ 0
  descriptors : ∀ i < maxFd, s.descriptors j i = ⟨0, 0, 0, 0⟩

/-- INIT has forked `k` children from the state `s₀`: they have the first CPUs that were free. -/
structure InitForked (pool B n k : ℕ) (s₀ s : PmState) : Prop where
  accounted : ∃ maps, s.Accounted pool B maps
  machine : s.machine = s₀.machine
  init : s.cpus initId = s₀.cpus initId
  hasVm : ∀ j, (s.cpus j).hasVm = true ↔ j < alwaysBusy + k
  live : ∀ j, j ∈ s.live ↔ alwaysBusy ≤ j ∧ j < alwaysBusy + k
  child : ∀ j ∈ s.live, s.FirstChild (s₀.cpus initId).vm j
  opened : s.openChannels = []
  reserve : s.Reserve pool n

/-- INIT forks, with room for the channels of the child. -/
def InitForks (args : ForkArgs) (s : PmState) (e : PmEvent) : Prop :=
  e = ⟨initId, .fork args⟩ ∧ ForkRoom s (s.descriptors initId)

section First

variable {pool B n k : ℕ} {maps : ℕ → View} {s₀ s : PmState} {args : ForkArgs}

/-- INIT has no descriptors. -/
theorem PmState.Accounted.init_descriptors (h : s.Accounted pool B maps) (i : ℕ) :
    s.descriptors initId i = ⟨0, 0, 0, 0⟩ := by
  have hnot : initId ∉ s.live := fun hmem => absurd (h.live _ hmem).1 (by decide)
  unfold PmState.descriptors
  rw [if_pos (h.idle _ hnot).1]

theorem ForkRoom.of_none {f : ℕ → FileDescriptor} (hf : ∀ i < maxFd, (f i).type ≠ typeChar)
    (h : ∀ d, (s.channelsOf d).length ≤ maxChannels) : ForkRoom s f := by
  have hnone : charFds f (List.range maxFd) = [] :=
    List.filter_eq_nil_iff.mpr fun i hi hchar => hf i (List.mem_range.mp hi)
    (of_decide_eq_true hchar)
  intro d
  rw [hnone]
  exact h d

/-- One more child. -/
theorem InitForked.step (h : InitForked pool B (n + forkCost (s₀.cpus initId).vm) k s₀ s)
    (hB : maxChannels ≤ B) (hm : s₀.machine.Sound) (hi : s₀.InitReady args)
    (hk : alwaysBusy + k < s₀.ncpus) :
    ForkRoom s (s.descriptors initId) ∧ ∃ t, pmStep s ⟨initId, .fork args⟩ t ∧
      InitForked pool B n (k + 1) s₀ t := by
  obtain ⟨maps, hacc⟩ := h.accounted
  have hm' : s.machine.Sound := by rw [h.machine]; exact hm
  have hncpus : s.ncpus = s₀.ncpus := congrArg Machine.ncpus h.machine
  have hgb : s.has1GB = false := (congrArg Machine.has1GB h.machine).trans hi.pages
  have hnone : ∀ i < maxFd, (s.descriptors initId i).type ≠ typeChar := by
    intro i _
    rw [hacc.init_descriptors]
    decide
  have hroom : ForkRoom s (s.descriptors initId) := by
    refine .of_none hnone fun d => ?_
    unfold PmState.channelsOf
    rw [h.opened]
    exact Nat.zero_le _
  have hlt : initId < s.ncpus := by rw [hncpus]; exact hi.init
  have hfree : (s.cpus (alwaysBusy + k)).hasVm = false := by
    rw [← Bool.not_eq_true, h.hasVm]
    exact lt_irrefl _
  have hres := h.reserve
  rw [← h.init] at hres
  obtain ⟨t, child, ht, hdone, hleft⟩ := hacc.fork_returns args hB hm' hlt (Or.inr rfl)
    hroom (by rw [h.init]; exact hi.ready) (fun i hilt hchar => absurd hchar (hnone i hilt)) hgb
    ⟨_, Nat.le_add_right _ k, by rw [hncpus]; exact hk, hfree⟩ hres
  have hsame : t.machine = s.machine :=
    ((inferInstance : IsWithin (Same PmState.machine) (handle initId (.fork args))).within s).ok ht
  -- the first CPU that is free
  obtain rfl : child = alwaysBusy + k := by
    have hge : alwaysBusy + k ≤ child := by
      by_contra hlow
      have hbusy := (h.hasVm child).mpr (not_le.mp hlow)
      exact Bool.false_ne_true (hdone.free.symm.trans hbusy)
    refine le_antisymm ?_ hge
    by_contra hgt
    exact absurd (hfree.symm.trans (hdone.first _ (Nat.le_add_right _ k) (not_le.mp hgt)))
      Bool.false_ne_true
  obtain ⟨hadopted, hcopies, hother⟩ := hdone.spawned.record
  have hne : initId ≠ alwaysBusy + k := show 2 ≠ 3 + k by omega
  refine ⟨hroom, t, ⟨hlt, ht⟩, hdone.accounted, hsame.trans h.machine, ?_, fun j => ?_, fun j => ?_,
    fun j hj => ?_, ?_, hleft⟩
  · rw [hother _ hne]
    exact h.init
  · by_cases hj : j = alwaysBusy + k
    · rw [hj]
      exact iff_of_true hadopted.hasVm (by omega)
    · rw [hother j hj, h.hasVm]
      omega
  · rw [hdone.spawned.live, Finset.mem_insert, h.live]
    omega
  · rw [hdone.spawned.live, Finset.mem_insert] at hj
    rcases hj with rfl | hj
    · rw [h.init] at hcopies
      refine ⟨hadopted, hcopies, ?_, fun i hilt => ?_⟩
      · obtain ⟨a, hch, hfds, hgranted⟩ := hdone.spawned.page
        have ha := hgranted hleft.ok
        rw [hch, hfds]
        split
        · exact ⟨ha, rfl⟩
        · exact ⟨rfl, ha⟩
      · obtain ⟨addr, -, -, htable⟩ := hdone.spawned.copied
        rw [htable i hilt, if_neg (hnone i hilt), hacc.init_descriptors, ite_self]
    · have hjne : j ≠ alwaysBusy + k := by
        rintro rfl
        exact hdone.spawned.fresh hj
      have hold := h.child j hj
      refine ⟨?_, ?_, ?_, fun i hilt => ?_⟩
      · rw [hother j hjne]
        exact hold.adopted
      · rw [hother j hjne]
        exact hold.copies
      · rw [hother j hjne]
        exact hold.pages
      · rw [hdone.spawned.descriptors j hj]
        exact hold.descriptors i hilt
  · obtain ⟨addr, hopened, -, -⟩ := hdone.spawned.copied
    have hcopied : forkedChannels (s.descriptors initId) addr (alwaysBusy + k)
        (copiedFds (t.cpus (alwaysBusy + k)).vm.fds) = [] := by
      refine List.map_eq_nil_iff.mpr (List.filter_eq_nil_iff.mpr fun i _ hchar => ?_)
      have htype : (s.descriptors initId i).type = typeChar := of_decide_eq_true hchar
      rw [hacc.init_descriptors] at htype
      exact absurd htype (by decide)
    rw [hopened, h.opened, hcopied]
    rfl

/-- INIT forks the first VMs one after the other: with enough memory the `k`-th child gets the
`k`-th CPU behind the servers and INIT.  So the keyboard driver, the junk driver and the console
driver have their fixed CPUs if they are forked in this order. -/
theorem init_forks (hB : maxChannels ≤ B) (h : s₀.Fresh pool) (hi : s₀.InitReady args)
    (hk : alwaysBusy + k ≤ s₀.ncpus)
    (hres : s₀.Reserve pool (n + k * forkCost (s₀.cpus initId).vm)) :
    ∃ s, Run (guarded pmStep (InitForks args)) s₀ (List.replicate k ⟨initId, .fork args⟩) s ∧
      InitForked pool B n k s₀ s := by
  induction k generalizing n with
  | zero =>
    rw [Nat.zero_mul, Nat.add_zero] at hres
    refine ⟨s₀, .nil s₀, ⟨_, h.accounted B fun _ => ⟨[], []⟩⟩, rfl, rfl, hi.hasVm, fun j => ?_,
      fun j hj => ?_, h.opened, hres⟩
    · rw [h.live]
      exact iff_of_false (Finset.notMem_empty j) (by omega)
    · rw [h.live] at hj
      exact absurd hj (Finset.notMem_empty j)
  | succ k ih =>
    rw [Nat.succ_mul, ← Nat.add_assoc, Nat.add_right_comm] at hres
    obtain ⟨s, hrun, hforked⟩ := ih (by omega) hres
    obtain ⟨hroom, t, hstep, hnext⟩ := hforked.step hB h.machine hi (by omega)
    refine ⟨t, ?_, hnext⟩
    rw [List.replicate_succ']
    exact hrun.snoc ⟨⟨rfl, hroom⟩, hstep⟩

end First

/-! ### A machine -/

/-- INIT with a page of code, a page of bss and a stack of 2MB. -/
def bootVm : VmProc := { (default : VmProc) with
  startPaddr := 0x600000, endPaddr := 0x802000
  startVaddr := 0x40000000, endVaddr := 0x40202000
  code := ⟨0x600000, 0x40000000, 0x1000⟩
  data := ⟨0, 0x40001000, 0⟩
  rodata := ⟨0, 0x40001000, 0⟩
  bss := ⟨0x601000, 0x40001000, 0x1000⟩
  stack := ⟨0x602000, 0x40002000, 0x200000⟩ }

/-- The records after the boot. -/
def bootInfo (c : ℕ) : CpuInfo where
  cpuid := c
  hasVm := decide (c < alwaysBusy)
  vm := if c = initId then bootVm else default
  msgInput := 0x200000 + c * 0x4000
  msgOutput := 0x201000 + c * 0x4000
  msgReady := 0x202000 + c * 0x4000
  msgReadyBitmap := 0x203000 + c * 0x4000

/-- PM on a machine with eight CPUs. -/
def bootPm (m : MemoryState) : PmState := PmState.initial m bootInfo 8 0x100000

/-- INIT forks with its stack pointer in its stack and `cpuinfo` in its bss. -/
def bootArgs : ForkArgs := ⟨{ (default : Regs) with rsp := 0x40201000 }, 0x40001000⟩

/-- The allocator on a machine with 3GB of memory, of which the first 16MB are in use. -/
theorem memoryInit_3GB : ∃ m, memoryInit (fun _ => default) 0x1000000 0xC0000000 = .ok m ∧
    m.firstFreeAddr = 0x27E0000 ∧ OpenEnd m 776224 0 ∧ Ledger m 776224 0 0 :=
  memoryInit_open 782336 (by norm_num) (by norm_num) (by norm_num) (by norm_num) (by norm_num)
    (by norm_num) (by norm_num) rfl (by norm_num)

/-- The example boots. -/
theorem bootPm_fresh {m : MemoryState} {pool : ℕ} (hlow : 0x802000 ≤ m.firstFreeAddr)
    (hend : m.firstFreeAddr + pool * 4096 ≤ 2 ^ 32) (hled : Ledger m pool 0 0) :
    (bootPm m).Fresh pool := by
  have hvm : ∀ c, (bootInfo c).vm = bootVm ∨ (bootInfo c).vm = default := by
    intro c
    unfold bootInfo
    dsimp only
    split
    · exact Or.inl rfl
    · exact Or.inr rfl
  have hncpus : (8 : ℕ) ≤ maxCpus := by decide
  refine ⟨⟨hncpus, fun _ _ => rfl, fun i hi p hp => ?_⟩, ⟨hncpus, fun _ _ => rfl, fun i => ?_,
    fun i => ?_⟩, hled, hend, fun c => ?_, ⟨?_, ?_⟩, rfl, rfl, rfl⟩
  · have hi' : i < 8 := hi
    change p ∈ (bootInfo i).bare.ownPages (0x100000 + i * 4096) at hp
    simp only [bootInfo, CpuInfo.bare, CpuInfo.ownPages, List.mem_cons, List.not_mem_nil,
      or_false] at hp
    unfold IsPage
    rcases hp with rfl | rfl | rfl | rfl | rfl <;> dsimp only <;> omega
  · change (bootInfo i).vm.parent < 8
    rcases hvm i with heq | heq <;> rw [heq] <;> decide
  · change (bootInfo i).vm.state = .unset
    rcases hvm i with heq | heq <;> rw [heq] <;> rfl
  · change (bootInfo c).vm.fds = 0 ∧ (bootInfo c).vm.channels = 0
    rcases hvm c with heq | heq <;> rw [heq] <;> exact ⟨rfl, rfl⟩
  · change ∀ sec ∈ bootVm.sections, sec.Placed
    simp only [bootVm, VmProc.sections, List.forall_mem_cons, VmSection.Placed]
    norm_num
  · change ∀ sec ∈ [bootVm.code, bootVm.rodata], reallocable m sec.paddr = false
    intro sec hsec
    have hle : sec.paddr ≤ m.firstFreeAddr := by
      refine le_trans ?_ hlow
      simp only [bootVm, List.mem_cons, List.not_mem_nil, or_false] at hsec
      rcases hsec with rfl | rfl <;> norm_num
    unfold reallocable
    rw [decide_eq_false (not_lt.mpr hle), Bool.false_and]

theorem bootPm_initReady (m : MemoryState) : (bootPm m).InitReady bootArgs := by
  refine ⟨show 2 < 8 by decide, fun j => decide_eq_true_iff, ⟨?_, ?_, ?_, ?_, ?_⟩, rfl⟩
  all_goals
    norm_num [bootPm, PmState.initial, bootInfo, bootVm, bootArgs]

theorem bootVm_cost : forkCost bootVm = 105963 := by decide

/-- On the machine INIT can fork up to five VMs; a sixth part of the pool is left after that. -/
theorem bootPm_forks {k : ℕ} (hk : k ≤ 5) : ∃ m s, (bootPm m).Fresh 776224 ∧
    m.firstFreeAddr = 0x27E0000 ∧
    Run (guarded pmStep (InitForks bootArgs)) (bootPm m)
      (List.replicate k ⟨initId, .fork bootArgs⟩) s ∧
    InitForked 776224 (maxChannels + 1) 200000 k (bootPm m) s := by
  obtain ⟨m, -, hff, hopen, hled⟩ := memoryInit_3GB
  have hfresh := bootPm_fresh (by rw [hff]; norm_num) (by rw [hff]; norm_num) hled
  have hcost : forkCost ((bootPm m).cpus initId).vm = 105963 := bootVm_cost
  have hres : (bootPm m).Reserve 776224 (200000 + k * forkCost ((bootPm m).cpus initId).vm) := by
    rw [hcost]
    exact ⟨.of_openEnd hopen (by omega), rfl⟩
  obtain ⟨s, hrun, hforked⟩ := init_forks (Nat.le_succ _) hfresh (bootPm_initReady m)
    (show 3 + k ≤ 8 by omega) hres
  exact ⟨m, s, hfresh, hff, hrun, hforked⟩

end Savannah
