import Savannah.Foundation.Bytes
import Savannah.Pm.Isolation
import Savannah.Pm.Reports

/-!
# The memory of a child

`local_fork` at the level of bytes.  `UserState` adds the contents of user memory to the state of
PM; the pages that PM itself uses stay in `words` and `fdTable`.  The functions of PM run on it
through `onPm`, and the copies are made in between.  Data and bss are copied, and so are code and
rodata that the allocator does not know; of the stack the part from the stack pointer on is copied,
and the variable `cpuinfo` of the child gets the address of its own record.

Without the contents this is `localFork` (`localForkUser_erases`).  Each copy goes into a block that
was free before, so that it changes no byte in use and no earlier copy; `Copying` carries that from
one section to the next.  In every run of PM the child of a fork gets the memory of its parent
(`fork_copies_of_run`).
-/

namespace Savannah

open Foundation PmState MemoryState

/-! ### User memory -/

/-- The state of PM with the contents of user memory. -/
structure UserState where
  pm : PmState
  bytes : Bytes

/-- The functions of PM that access user memory. -/
abbrev UserPm := EStateM PmStop UserState

/-- A function that does not access user memory. -/
def onPm {α : Type} (x : Pm α) : UserPm α := fun s =>
  match x s.pm with
  | .ok a t => .ok a { s with pm := t }
  | .error e t => .error e { s with pm := t }

/-- A change of user memory. -/
def setBytes (f : Bytes → Bytes) : UserPm Unit := modify fun s => { s with bytes := f s.bytes }

theorem wp_onPm {α : Type} {x : Pm α} {Q : α → UserState → Prop} {E : PmStop → UserState → Prop}
    {s : UserState} : wp (onPm x) Q E s ↔
      wp x (fun a t => Q a { s with pm := t }) (fun e t => E e { s with pm := t }) s.pm := by
  unfold wp onPm
  cases x s.pm <;> rfl

@[simp] theorem wp_setBytes {f : Bytes → Bytes} {Q : Unit → UserState → Prop}
    {E : PmStop → UserState → Prop} {s : UserState} :
    wp (setBytes f) Q E s ↔ Q () { s with bytes := f s.bytes } := Iff.rfl

/-! ### Fork -/

/-- A block for a section, with its contents. -/
def forkCopyUser (sec : VmSection) : UserPm ℕ := do
  let a ← onPm (allocPages (pages sec.size size4KB))
  setBytes fun m => m.copy a sec.paddr sec.size
  return a

/-- The pages of a section that parent and child may share. -/
def forkSharedUser (sec : VmSection) : UserPm ℕ := do
  if reallocable (← get).pm.memory sec.paddr then
    onPm (reallocPages sec.paddr)
  else
    forkCopyUser sec

/-- The record of the child, up to its stack, and the contents of its sections. -/
def forkSectionsUser (parent child : ℕ) : UserPm Unit := do
  let p := ((← get).pm.cpus parent).vm
  onPm (modify (updateVm child fun v => { v with
    startVaddr := p.startVaddr, startPaddr := p.startPaddr
    endVaddr := p.endVaddr, endPaddr := p.endPaddr }))
  let code ← forkSharedUser p.code
  onPm (modify (updateVm child fun v => { v with code := { p.code with paddr := code } }))
  let data ← forkCopyUser p.data
  onPm (modify (updateVm child fun v => { v with data := { p.data with paddr := data } }))
  let rodata ← forkSharedUser p.rodata
  onPm (modify (updateVm child fun v => { v with rodata := { p.rodata with paddr := rodata } }))
  let bss ← forkCopyUser p.bss
  onPm (modify (updateVm child fun v => { v with bss := { p.bss with paddr := bss } }))
  let stack ← onPm (allocPages (pages p.stack.size size4KB))
  onPm (modify (updateVm child fun v => { v with stack := { p.stack with paddr := stack } }))

/-- Copying the used part of the stack. -/
def forkStackUser (parent child rsp : ℕ) : UserPm Unit := do
  let s ← get
  let p := (s.pm.cpus parent).vm
  let c := (s.pm.cpus child).vm
  let dst ← onPm (translate c rsp)
  let src ← onPm (translate p rsp)
  if dst = 0 then
    throw (.panic .childStack)
  else if src = 0 then
    throw (.panic .parentStack)
  else
    let len := (p.stack.vaddr + p.stack.size + 2 ^ 64 - rsp) % 2 ^ 64
    onPm (writeUser [c] dst len)
    setBytes fun m => m.copy dst src len

/-- The registers of the child, and its variable `cpuinfo`, which is looked for in the bss. -/
def forkRegsUser (parent child : ℕ) (args : ForkArgs) : UserPm Unit := do
  onPm (modify (updateVm child fun v => { v with regs := args.regs }))
  let s ← get
  let p := (s.pm.cpus parent).vm
  let c := (s.pm.cpus child).vm
  let a ← onPm (translate p args.cpuinfoVaddr)
  let ptr := (c.bss.paddr + (a + 2 ^ 64 - p.bss.paddr)) % 2 ^ 64
  onPm (writeUser [c, p] ptr 8)
  setBytes fun m => m.store ptr (littleEndian 8 (s.pm.infoAddr child))
  onPm (modify (updateVm child fun v => { v with regs := { v.regs with rax := 0 } }))

/-- The steps of `local_fork` after a CPU for the child was found and its record was started. -/
def forkChildUser (parent child : ℕ) (args : ForkArgs) : UserPm ℤ := do
  forkSectionsUser parent child
  forkStackUser parent child args.regs.rsp
  onPm (forkPages child)
  onPm (eptPmap child)
  onPm (forkFds parent child)
  forkRegsUser parent child args
  return ((← get).pm.cpus child).cpuid

/-- `local_fork` -/
def localForkUser (fromId : ℕ) (args : ForkArgs) : UserPm ℤ := do
  match getCpuInfo fromId with
  | none => return -1
  | some info =>
    let parentId := ((← get).pm.cpus info).cpuid
    match ← onPm findFreeVm with
    | none => return -1
    | some child =>
      onPm (modify (updateCpu child fun c => { c with hasVm := true }))
      let parent ← onPm (derefCpu parentId)
      onPm (modify (updateVm child fun v => { v with parent := parentId, state := .running }))
      forkChildUser parent child args

/-! ### Without the contents -/

/-- The outcome without the contents of user memory. -/
def eraseBytes {α : Type} : EStateM.Result PmStop UserState α → EStateM.Result PmStop PmState α
  | .ok a s => .ok a s.pm
  | .error e s => .error e s.pm

/-- `x` does to the state of PM what `y` does. -/
def Erases {α : Type} (x : UserPm α) (y : Pm α) : Prop := ∀ s, eraseBytes (x s) = y s.pm

namespace Erases

variable {α β : Type} {x x' : UserPm α} {y y' : Pm α} {f : α → UserPm β} {g : α → Pm β}

theorem onPm (y : Pm α) : Erases (onPm y) y := by
  intro s
  unfold Savannah.onPm
  cases y s.pm <;> rfl

theorem pure (a : α) : Erases (pure a) (pure a) := fun _ => rfl

theorem throw (e : PmStop) : Erases (throw e : UserPm α) (throw e) := fun _ => rfl

/-- A sequence. -/
theorem bind (hx : Erases x y) (hf : ∀ a, Erases (f a) (g a)) : Erases (x >>= f) (y >>= g) := by
  intro s
  have hs := hx s
  change eraseBytes (EStateM.bind x f s) = EStateM.bind y g s.pm
  unfold EStateM.bind
  rw [← hs]
  cases x s with
  | ok a t => exact hf a t
  | error e t => rfl

/-- A change of the contents. -/
theorem setBytes {h : Bytes → Bytes} {k : Unit → UserPm α} (hk : Erases (k ()) y) :
    Erases (setBytes h >>= k) y := fun s => hk { s with bytes := h s.bytes }

theorem get {f : UserState → UserPm α} {g : PmState → Pm α} (hf : ∀ s, Erases (f s) (g s.pm)) :
    Erases (get >>= f) (get >>= g) := fun s => hf s s

theorem ite {c : Prop} [Decidable c] (hx : Erases x y) (hx' : Erases x' y') :
    Erases (if c then x else x') (if c then y else y') := by
  split
  · exact hx
  · exact hx'

/-- A result of the function without contents is one of the function with contents. -/
theorem ok (h : Erases x y) {s : UserState} {a : α} {t : PmState} (hy : y s.pm = .ok a t) :
    ∃ m, x s = .ok a ⟨t, m⟩ := by
  have hs := h s
  rw [hy] at hs
  cases hx : x s with
  | ok b u =>
    rw [hx] at hs
    obtain ⟨rfl, rfl⟩ := EStateM.Result.ok.inj hs
    exact ⟨u.bytes, rfl⟩
  | error e u =>
    rw [hx] at hs
    cases hs

end Erases

section Erase

/-- Without bytes: an allocation. -/
theorem forkCopyUser_erases (sec : VmSection) :
    Erases (forkCopyUser sec) (allocPages (pages sec.size size4KB)) := by
  intro s
  unfold forkCopyUser
  have hrest : Erases (do
      let a ← onPm (allocPages (pages sec.size size4KB))
      setBytes fun m => m.copy a sec.paddr sec.size
      return a) (allocPages (pages sec.size size4KB) >>= pure) :=
    (Erases.onPm _).bind fun a => (Erases.pure a).setBytes
  rw [bind_pure] at hrest
  exact hrest s

theorem forkSharedUser_erases (sec : VmSection) : Erases (forkSharedUser sec) (forkShared sec) :=
  Erases.get fun _ => (Erases.onPm _).ite (forkCopyUser_erases sec)

/-- Without bytes: `forkSections`. -/
theorem forkSectionsUser_erases (parent child : ℕ) :
    Erases (forkSectionsUser parent child) (forkSections parent child) := by
  refine Erases.get fun s => (Erases.onPm _).bind fun _ => ?_
  refine (forkSharedUser_erases _).bind fun code => (Erases.onPm _).bind fun _ => ?_
  refine (forkCopyUser_erases _).bind fun data => (Erases.onPm _).bind fun _ => ?_
  refine (forkSharedUser_erases _).bind fun rodata => (Erases.onPm _).bind fun _ => ?_
  refine (forkCopyUser_erases _).bind fun bss => (Erases.onPm _).bind fun _ => ?_
  exact (Erases.onPm _).bind fun stack => Erases.onPm _

/-- Without bytes: `forkStack`. -/
theorem forkStackUser_erases (parent child rsp : ℕ) :
    Erases (forkStackUser parent child rsp) (forkStack parent child rsp) := by
  refine Erases.get fun s => (Erases.onPm _).bind fun dst => (Erases.onPm _).bind fun src => ?_
  refine (Erases.throw _).ite ((Erases.throw _).ite ?_)
  intro t
  have hrest : Erases (do
      onPm (writeUser [(s.pm.cpus child).vm] dst
        (((s.pm.cpus parent).vm.stack.vaddr + (s.pm.cpus parent).vm.stack.size + 2 ^ 64 - rsp) %
        2 ^ 64))
      setBytes fun m => m.copy dst src
        (((s.pm.cpus parent).vm.stack.vaddr + (s.pm.cpus parent).vm.stack.size + 2 ^ 64 - rsp) %
        2 ^ 64))
      (writeUser [(s.pm.cpus child).vm] dst
        (((s.pm.cpus parent).vm.stack.vaddr + (s.pm.cpus parent).vm.stack.size + 2 ^ 64 - rsp) %
          2 ^ 64) >>= fun _ => pure ()) :=
    (Erases.onPm _).bind fun _ _ => rfl
  rw [bind_pure_unit] at hrest
  exact hrest t

/-- Without bytes: `forkRegs`. -/
theorem forkRegsUser_erases (parent child : ℕ) (args : ForkArgs) :
    Erases (forkRegsUser parent child args) (forkRegs parent child args) := by
  refine (Erases.onPm _).bind fun _ => Erases.get fun s => (Erases.onPm _).bind fun a => ?_
  exact (Erases.onPm _).bind fun _ => (Erases.onPm _).setBytes

/-- Without bytes: `forkChild`. -/
theorem forkChildUser_erases (parent child : ℕ) (args : ForkArgs) :
    Erases (forkChildUser parent child args) (forkChild parent child args) := by
  refine (forkSectionsUser_erases _ _).bind fun _ => (forkStackUser_erases _ _ _).bind fun _ => ?_
  refine (Erases.onPm _).bind fun _ => (Erases.onPm _).bind fun _ => (Erases.onPm _).bind
    fun _ => ?_
  exact (forkRegsUser_erases _ _ _).bind fun _ => Erases.get fun _ => Erases.pure _

/-- Without the contents the fork is `localFork`. -/
theorem localForkUser_erases (fromId : ℕ) (args : ForkArgs) :
    Erases (localForkUser fromId args) (localFork fromId args) := by
  unfold localForkUser localFork
  cases getCpuInfo fromId with
  | none => exact Erases.pure _
  | some info =>
    refine Erases.get fun s => (Erases.onPm _).bind fun r => ?_
    cases r with
    | none => exact Erases.pure _
    | some child =>
      refine (Erases.onPm _).bind fun _ => (Erases.onPm _).bind fun parent => ?_
      exact (Erases.onPm _).bind fun _ => forkChildUser_erases _ _ _

end Erase

/-! ### Copies into free blocks -/

/-- A section has memory at `a`, unless it is empty. -/
def Backs (a : ℕ) (sec : VmSection) : Prop := a ≠ 0 ∨ sec.size = 0

/-- The bytes of `B`, and those of the blocks at which the sections of `l` were put. -/
def claimed (B : Set ℕ) (l : List (ℕ × VmSection)) : Set ℕ :=
  {b | b ∈ B ∨ ∃ x ∈ l, x.1 ≠ 0 ∧ InBlock (x.1, pages x.2.size size4KB) b}

/-- Each section of `l` was copied to its place, and no byte of `B` has changed. -/
structure Copied (B : Set ℕ) (l : List (ℕ × VmSection)) (m m' : Bytes) : Prop where
  kept : ∀ b ∈ B, m' b = m b
  same : ∀ x ∈ l, ∀ i < x.2.size, m' (x.1 + i) = m (x.2.paddr + i)

/-- The sections of `l` have been put into blocks, from the state `s₀` on.  The bytes of `B`, which
were in use, and these blocks are in use; shared blocks are among `S`, and may be shared `k` more
times. -/
structure Copying (pool k : ℕ) (S : Multiset (ℕ × ℕ)) (B : Set ℕ) (s₀ : UserState)
    (l : List (ℕ × VmSection)) (s : UserState) : Prop where
  layout : SameLayout s₀.pm.memory s.pm.memory
  held : ∃ X S', Ledger s.pm.memory pool X S' ∧ S ≤ S' ∧ Multiset.card S' + k < 2 ^ 32 ∧
    ∀ b ∈ claimed B l, s₀.pm.InPool pool b → ∃ z ∈ X + S', InBlock z b
  copied : (∀ x ∈ l, Backs x.1 x.2) → Copied B l s₀.bytes s.bytes

section Copy

variable {pool k a n : ℕ} {S : Multiset (ℕ × ℕ)} {B : Set ℕ} {s₀ s t : UserState}
  {l : List (ℕ × VmSection)} {sec : VmSection} {m m₁ m₂ : Bytes}
  {E : PmStop → UserState → Prop}

theorem mem_claimed_snoc {b : ℕ} : b ∈ claimed B (l ++ [(a, sec)]) ↔
    b ∈ claimed B l ∨ a ≠ 0 ∧ InBlock (a, pages sec.size size4KB) b := by
  unfold claimed
  simp only [Set.mem_ofPred_eq, List.mem_append, List.mem_singleton, or_and_right, exists_or,
    exists_eq_left, or_assoc]

theorem size_le_pages (sec : VmSection) : sec.size ≤ pages sec.size size4KB * 4096 :=
  (pages_spec sec.size (show 0 < 4096 by norm_num)).1

/-- The bytes of a section that was put into a block. -/
theorem mem_claimed {x : ℕ × VmSection} (hx : x ∈ l) (hback : Backs x.1 x.2) {i : ℕ}
    (hi : i < x.2.size) : x.1 + i ∈ claimed B l := by
  refine Or.inr ⟨x, hx, ?_, Nat.le_add_right _ _, ?_⟩
  · exact hback.resolve_right (Nat.ne_of_gt (Nat.zero_lt_of_lt hi))
  · have hle := size_le_pages x.2
    dsimp only
    omega

/-- A write that leaves the bytes of `B` and of the blocks alone. -/
theorem Copied.of_kept (h : Copied B l m m₁) (hl : ∀ x ∈ l, Backs x.1 x.2)
    (hkept : ∀ b ∈ claimed B l, m₂ b = m₁ b) : Copied B l m m₂ := by
  refine ⟨fun b hb => (hkept b (Or.inl hb)).trans (h.kept b hb), fun x hx i hi => ?_⟩
  exact (hkept _ (mem_claimed hx (hl x hx) hi)).trans (h.same x hx i hi)

/-- One more section. -/
theorem Copied.snoc (h : Copied B l m m₁) (hl : ∀ x ∈ l, Backs x.1 x.2)
    (hsrc : ∀ i < sec.size, sec.paddr + i ∈ B) (hkept : ∀ b ∈ claimed B l, m₂ b = m₁ b)
    (hsame : ∀ i < sec.size, m₂ (a + i) = m₁ (sec.paddr + i)) :
    Copied B (l ++ [(a, sec)]) m m₂ := by
  have hold := h.of_kept hl hkept
  refine ⟨hold.kept, fun x hx i hi => ?_⟩
  rcases List.mem_append.mp hx with hx | hx
  · exact hold.same x hx i hi
  · rw [List.mem_singleton.mp hx] at hi ⊢
    exact (hsame i hi).trans (h.kept _ (hsrc i hi))

theorem forall_backs_snoc (h : ∀ x ∈ l ++ [(a, sec)], Backs x.1 x.2) :
    (∀ x ∈ l, Backs x.1 x.2) ∧ Backs a sec :=
  ⟨fun x hx => h x (List.mem_append_left _ hx),
    h (a, sec) (List.mem_append_right _ (List.mem_singleton_self _))⟩

/-- Only the allocator and the contents matter. -/
theorem Copying.of_same (h : Copying pool k S B s₀ l s) (hmem : t.pm.memory = s.pm.memory)
    (hbytes : t.bytes = s.bytes) : Copying pool k S B s₀ l t := by
  refine ⟨?_, ?_, ?_⟩
  · rw [hmem]
    exact h.layout
  · rw [hmem]
    exact h.held
  · rw [hbytes]
    exact h.copied

/-- A block for a section: it has no byte in use. -/
theorem Copying.alloc (h : Copying pool k S B s₀ l s) (sec : VmSection) :
    wp (onPm (allocPages (pages sec.size size4KB))) (fun a t =>
      t.pm.control = s.pm.control ∧ t.bytes = s.bytes ∧ SameLayout s₀.pm.memory t.pm.memory ∧
      (∃ X S', Ledger t.pm.memory pool X S' ∧ S ≤ S' ∧ Multiset.card S' + k < 2 ^ 32 ∧
        ∀ b ∈ claimed B (l ++ [(a, sec)]), s₀.pm.InPool pool b → ∃ z ∈ X + S', InBlock z b) ∧
      (Backs a sec → ∀ b ∈ claimed B l, ¬ InBlock (a, pages sec.size size4KB) b)) E s := by
  obtain ⟨X, S', hled, hle, hcard, hused⟩ := h.held
  have hzero : ∀ b ∈ claimed B (l ++ [(0, sec)]), s₀.pm.InPool pool b →
      ∃ z ∈ X + S', InBlock z b := by
    intro b hb
    exact hused b ((mem_claimed_snoc.mp hb).resolve_right fun hne => hne.1 rfl)
  rw [wp_onPm]
  by_cases hpages : pages sec.size size4KB = 0
  · rw [hpages]
    refine allocPages_zero ⟨rfl, rfl, h.layout, ⟨X, S', hled, hle, hcard, hzero⟩,
      fun _ b _ hb => ?_⟩
    exact absurd hb.2 (not_lt.mpr (by rw [Nat.zero_mul]; exact Nat.zero_le _))
  refine (allocPages_spec hled (Nat.pos_of_ne_zero hpages)).mono ?_ fun _ _ he => he
  rintro a s' (⟨rfl, rfl⟩ | ⟨ha, m', rfl, hlay, hled', hfresh⟩)
  · refine ⟨rfl, rfl, h.layout, ⟨X, S', hled, hle, hcard, hzero⟩, fun hback b _ hb => ?_⟩
    -- an empty section asks for no page
    have hsize := hback.resolve_left fun hne => hne rfl
    exact hpages (by rw [hsize]; rfl)
  · have hmem : (a, pages sec.size size4KB) ∈ (a, pages sec.size size4KB) ::ₘ X + S' :=
      Multiset.mem_add.mpr (Or.inl (Multiset.mem_cons_self _ _))
    obtain ⟨-, hge, -, -, hend, -⟩ := hled'.addr hmem
    have hff : m'.firstFreeAddr = s₀.pm.memory.firstFreeAddr :=
      hlay.firstFree.trans h.layout.firstFree
    rw [hff] at hge hend
    have hmore : ∀ z ∈ X + S', z ∈ (a, pages sec.size size4KB) ::ₘ X + S' := by
      intro z hz
      rw [Multiset.cons_add]
      exact Multiset.mem_cons_of_mem hz
    refine ⟨rfl, rfl, h.layout.trans hlay, ⟨_, S', hled', hle, hcard, fun b hb hpool => ?_⟩,
      fun _ b hb hin => ?_⟩
    · rcases mem_claimed_snoc.mp hb with hb | ⟨-, hin⟩
      · obtain ⟨z, hz, hzb⟩ := hused b hb hpool
        exact ⟨z, hmore z hz, hzb⟩
      · exact ⟨_, hmem, hin⟩
    · obtain ⟨hlo, hhi⟩ := hin
      dsimp only at hlo hhi
      obtain ⟨z, hz, hzb⟩ := hused b hb ⟨by omega, by omega⟩
      have heq := hled'.eq_of_page hmem (hmore z hz) ⟨hlo, hhi⟩ hzb
      exact hfresh _ (heq ▸ hz)

/-- A section is copied. -/
theorem Copying.copy (h : Copying pool k S B s₀ l s) (hsrc : ∀ i < sec.size, sec.paddr + i ∈ B) :
    wp (forkCopyUser sec) (fun a t => t.pm.control = s.pm.control ∧
      Copying pool k S B s₀ (l ++ [(a, sec)]) t ∧
      (Backs a sec → ∀ b ∈ claimed B l, ¬ InBlock (a, pages sec.size size4KB) b)) E s := by
  unfold forkCopyUser
  refine (h.alloc sec).bind ?_
  rintro a t ⟨hctl, hbytes, hlay, hheld, hfree⟩
  rw [wp_bind, wp_setBytes, wp_pure]
  refine ⟨hctl, ⟨hlay, hheld, fun hall => ?_⟩, hfree⟩
  obtain ⟨hl, hback⟩ := forall_backs_snoc hall
  have hle := size_le_pages sec
  have hread : ∀ i < sec.size, sec.paddr + i ∈ claimed B l := fun i hi => Or.inl (hsrc i hi)
  have hapart : ∀ b ∈ claimed B l, ¬ (a ≤ b ∧ b < a + sec.size) := by
    intro b hb hin
    refine hfree hback b hb ⟨hin.1, ?_⟩
    exact hin.2.trans_le (Nat.add_le_add_left hle a)
  obtain ⟨hkept, hsame⟩ := Bytes.copy_free (m := t.bytes) hread hapart
  rw [hbytes] at hkept hsame
  dsimp only
  rw [hbytes]
  exact (h.copied hl).snoc hl hsrc hkept hsame

/-- A section is shared or copied. -/
theorem Copying.share (h : Copying pool (k + 1) S B s₀ l s)
    (hsrc : ∀ i < sec.size, sec.paddr + i ∈ B)
    (hshare : reallocable s₀.pm.memory sec.paddr = true →
      (sec.paddr, pages sec.size size4KB) ∈ S) :
    wp (forkSharedUser sec) (fun a t => t.pm.control = s.pm.control ∧
      Copying pool k S B s₀ (l ++ [(a, sec)]) t) E s := by
  have hfewer : Copying pool k S B s₀ l s := by
    obtain ⟨X, S', hled, hle, hcard, hused⟩ := h.held
    exact ⟨h.layout, ⟨X, S', hled, hle, by omega, hused⟩, h.copied⟩
  unfold forkSharedUser
  rw [wp_bind, wp_get]
  refine wp_ite.mpr ⟨fun hre => ?_, fun _ => ?_⟩
  · obtain ⟨X, S', hled, hle, hcard, hused⟩ := h.held
    rw [h.layout.reallocable_eq] at hre
    have hmem := Multiset.mem_of_le hle (hshare hre)
    obtain ⟨m', hm', hlay, hled'⟩ := hled.realloc hmem (by omega)
    rw [wp_onPm]
    unfold reallocPages wp withMemory
    rw [hm']
    have hmore : ∀ z ∈ X + S', z ∈ X + (sec.paddr, pages sec.size size4KB) ::ₘ S' := by
      intro z hz
      rw [Multiset.add_cons]
      exact Multiset.mem_cons_of_mem hz
    refine ⟨rfl, h.layout.trans hlay, ⟨X, _, hled', ?_, ?_, fun b hb hpool => ?_⟩, fun hall => ?_⟩
    · exact hle.trans (Multiset.le_cons_self S' _)
    · rw [Multiset.card_cons]
      omega
    · rcases mem_claimed_snoc.mp hb with hb | ⟨-, hin⟩
      · obtain ⟨z, hz, hzb⟩ := hused b hb hpool
        exact ⟨z, hmore z hz, hzb⟩
      · exact ⟨_, hmore _ (Multiset.mem_add.mpr (Or.inr hmem)), hin⟩
    · obtain ⟨hl, -⟩ := forall_backs_snoc hall
      exact (h.copied hl).snoc hl hsrc (fun _ _ => rfl) fun _ _ => rfl
  · refine (hfewer.copy hsrc).mono ?_ fun _ _ he => he
    rintro a t ⟨hctl, hcopying, -⟩
    exact ⟨hctl, hcopying⟩

end Copy

/-! ### The sections -/

/-- The places of the sections of a child. -/
structure Places where
  code : ℕ
  data : ℕ
  rodata : ℕ
  bss : ℕ
  stack : ℕ

/-- The record of a child of `p` whose sections are at the places `a`. -/
def VmProc.settled (p : VmProc) (a : Places) (v : VmProc) : VmProc := { v with
  startVaddr := p.startVaddr, startPaddr := p.startPaddr
  endVaddr := p.endVaddr, endPaddr := p.endPaddr
  code := { p.code with paddr := a.code }
  data := { p.data with paddr := a.data }
  rodata := { p.rodata with paddr := a.rodata }
  bss := { p.bss with paddr := a.bss }
  stack := { p.stack with paddr := a.stack } }

/-- The sections of `p` that are copied as a whole, each with its place, up to the bss. -/
def Places.first (a : Places) (p : VmProc) : List (ℕ × VmSection) :=
  [(a.code, p.code), (a.data, p.data), (a.rodata, p.rodata)]

@[inherit_doc Places.first]
def Places.whole (a : Places) (p : VmProc) : List (ℕ × VmSection) := a.first p ++ [(a.bss, p.bss)]

section Sections

variable {pool k c child parent : ℕ} {S : Multiset (ℕ × ℕ)} {B : Set ℕ} {s₀ s t : UserState}
  {l : List (ℕ × VmSection)} {x y : PmState} {E : PmStop → UserState → Prop}

theorem control_updateVm (h : y.control = x.control) (c : ℕ) (f : VmProc → VmProc) :
    (y.updateVm c f).control = (x.updateVm c f).control := by
  simp only [PmState.control, PmState.updateVm, updateCpu, Control.mk.injEq] at h ⊢
  obtain ⟨hcpus, hrest⟩ := h
  rw [hcpus]
  exact ⟨rfl, hrest⟩

/-- Filling a field of the record of `c` with the address that `x` returns. -/
theorem wp_assignUser {x : UserPm ℕ} {next : UserPm Unit} {f : ℕ → VmProc → VmProc}
    {R : ℕ → UserState → Prop} {Q : Unit → UserState → Prop}
    (hx : wp x (fun a t => t.pm.control = s.pm.control ∧ R a t) E s)
    (hR : ∀ a t, R a t → R a { t with pm := t.pm.updateVm c (f a) })
    (hnext : ∀ a t, t.pm.control = (s.pm.updateVm c (f a)).control → R a t → wp next Q E t) :
    wp (do
      let a ← x
      onPm (modify (PmState.updateVm c (f a)))
      next) Q E s := by
  refine hx.bind ?_
  rintro a t ⟨hctl, hr⟩
  rw [wp_bind, wp_onPm, wp_modify]
  exact hnext a _ (control_updateVm hctl c (f a)) (hR a t hr)

/-- The sections of the child, the record of the child, and what the blocks of bss and stack are
apart from. -/
theorem forkSectionsUser_spec {p : VmProc} (hp : (s.pm.cpus parent).vm = p)
    (h : Copying pool 2 S B s [] s)
    (hsrc : ∀ sec ∈ p.sections, ∀ i < sec.size, sec.paddr + i ∈ B)
    (hshare : ∀ sec ∈ [p.code, p.rodata], reallocable s.pm.memory sec.paddr = true →
      (sec.paddr, pages sec.size size4KB) ∈ S) :
    wp (forkSectionsUser parent child) (fun _ t => ∃ a : Places,
      t.pm.control = (s.pm.updateVm child (p.settled a)).control ∧
      Copying pool 0 S B s (a.whole p) t ∧
      (Backs a.bss p.bss → ∀ b ∈ claimed B (a.first p),
        ¬ InBlock (a.bss, pages p.bss.size size4KB) b) ∧
      (Backs a.stack p.stack → ∀ b ∈ claimed B (a.whole p),
        ¬ InBlock (a.stack, pages p.stack.size size4KB) b)) E s := by
  simp only [VmProc.sections, List.forall_mem_cons, List.not_mem_nil, false_imp_iff, implies_true,
    and_true] at hsrc hshare
  obtain ⟨hcode, hdata, hrodata, hbss, -⟩ := hsrc
  obtain ⟨hshareCode, hshareRodata⟩ := hshare
  unfold forkSectionsUser
  rw [wp_bind, wp_get]
  dsimp only
  rw [hp, wp_bind, wp_onPm, wp_modify]
  have h₀ : Copying pool 2 S B s [] { s with pm := s.pm.updateVm child fun v => { v with
      startVaddr := p.startVaddr, startPaddr := p.startPaddr
      endVaddr := p.endVaddr, endPaddr := p.endPaddr } } := h.of_same rfl rfl
  refine wp_assignUser (h₀.share hcode hshareCode) (fun _ _ hr => hr.of_same rfl rfl) ?_
  intro code s₁ hctl₁ h₁
  refine wp_assignUser ((h₁.copy hdata).mono (fun _ _ hr => ⟨hr.1, hr.2.1⟩) fun _ _ he => he)
    (fun _ _ hr => hr.of_same rfl rfl) ?_
  intro data s₂ hctl₂ h₂
  refine wp_assignUser (h₂.share hrodata hshareRodata) (fun _ _ hr => hr.of_same rfl rfl) ?_
  intro rodata s₃ hctl₃ h₃
  refine wp_assignUser (h₃.copy hbss) (fun _ _ hr => ⟨hr.1.of_same rfl rfl, hr.2⟩) ?_
  rintro bss s₄ hctl₄ ⟨h₄, hfreeBss⟩
  refine (h₄.alloc p.stack).bind ?_
  rintro stack s₅ ⟨hctl₅, hbytes, hlay, hheld, hfreeStack⟩
  rw [wp_onPm, wp_modify]
  refine ⟨⟨code, data, rodata, bss, stack⟩, ?_, ⟨hlay, ?_, ?_⟩, hfreeBss, hfreeStack⟩
  · refine (control_updateVm hctl₅ child _).trans ?_
    refine (control_updateVm hctl₄ child _).trans ?_
    rw [updateVm_updateVm]
    refine (control_updateVm hctl₃ child _).trans ?_
    rw [updateVm_updateVm]
    refine (control_updateVm hctl₂ child _).trans ?_
    rw [updateVm_updateVm]
    refine (control_updateVm hctl₁ child _).trans ?_
    rw [updateVm_updateVm, updateVm_updateVm]
    rfl
  · obtain ⟨X, S', hled, hle, hcard, hused⟩ := hheld
    exact ⟨X, S', hled, hle, hcard, fun b hb => hused b (mem_claimed_snoc.mpr (Or.inl hb))⟩
  · intro hall
    have hcopied := h₄.copied hall
    rw [← hbytes] at hcopied
    exact hcopied

end Sections

/-! ### The other copies -/

/-- What `virt2phys` looks at in each record, and where the records are. -/
def PmState.outline (s : PmState) : (ℕ → List VmSection × ℕ) × ℕ :=
  (fun i => ((s.cpus i).vm.sections, (s.cpus i).vm.endVaddr), s.cpuinfoBase)

section Outline

variable {c parent child : ℕ}

instance {α : Type} {x : Pm α} [hx : IsWithin (Same PmState.frame) x] :
    IsWithin (Same PmState.outline) x :=
  ⟨hx.within.mono fun _ _ h => congrArg (fun k : Control =>
    (fun i => ((k.cpus i).vm.sections, (k.cpus i).vm.endVaddr), k.cpuinfoBase)) h⟩

instance {α : Type} {x : Pm α} [hx : IsWithin (Same PmState.quiet) x] :
    IsWithin (Same PmState.outline) x :=
  ⟨hx.within.mono fun _ _ h => congrArg (fun k : Control =>
    (fun i => ((k.cpus i).vm.sections, (k.cpus i).vm.endVaddr), k.cpuinfoBase)) h⟩

theorem outline_updateVm {s : PmState} {f : VmProc → VmProc}
    (hf : ∀ v, (f v).sections = v.sections ∧ (f v).endVaddr = v.endVaddr) :
    (s.updateVm c f).outline = s.outline := by
  refine Prod.ext (funext fun i => ?_) rfl
  by_cases hi : i = c
  · subst hi
    change (((s.updateVm i f).cpus i).vm.sections, ((s.updateVm i f).cpus i).vm.endVaddr) = _
    rw [updateVm_cpus, (hf _).1, (hf _).2]
    rfl
  · change (((s.updateVm c f).cpus i).vm.sections, ((s.updateVm c f).cpus i).vm.endVaddr) = _
    rw [show (s.updateVm c f).cpus i = s.cpus i from Function.update_of_ne hi _ _]
    rfl

instance : IsWithin (Same PmState.outline) (forkPages child) := by
  unfold forkPages
  refine ⟨Within.get.bind fun s => Within.ite ?_ ?_⟩
  all_goals
    refine IsWithin.within.bind fun a => Within.modify fun t => ?_
    exact outline_updateVm fun _ => ⟨rfl, rfl⟩

instance : IsWithin (Same PmState.outline) (forkFds parent child) := by
  unfold forkFds
  refine ⟨Within.get.bind fun s => Within.ite ?_ (Within.pure _)⟩
  refine Within.bind (Within.modify fun _ => rfl) fun _ => Within.forM fun i => ?_
  refine Within.get.bind fun t => Within.ite ?_ (Within.pure _)
  exact IsWithin.within.bind fun a => Within.modify fun _ => rfl

/-- What `virt2phys` depends on. -/
theorem virt2phys_congr {v w : VmProc} (hsec : v.sections = w.sections)
    (hend : v.endVaddr = w.endVaddr) (a : ℕ) : virt2phys v a = virt2phys w a := by
  simp only [VmProc.sections, List.cons.injEq, and_true] at hsec
  obtain ⟨hcode, hdata, hrodata, hbss, hstack⟩ := hsec
  unfold virt2phys
  rw [hcode, hdata, hrodata, hbss, hstack, hend]

end Outline

/-- The contents after a fork: of the sections first, which give `m₁`, then of the stack and of the
variable `cpuinfo`. -/
structure ForkWrites (B : Set ℕ) (p : VmProc) (a : Places) (args : ForkArgs) (info : ℕ)
    (m m' : Bytes) : Prop where
  writes : ∃ m₁ dst src x, ((∀ y ∈ a.whole p, Backs y.1 y.2) → Copied B (a.whole p) m m₁) ∧
    virt2phys (p.settled a p) args.regs.rsp = some dst ∧ virt2phys p args.regs.rsp = some src ∧
    virt2phys p args.cpuinfoVaddr = some x ∧
    m' = (m₁.copy dst src ((p.stack.vaddr + p.stack.size + 2 ^ 64 - args.regs.rsp) % 2 ^ 64)).store
      ((a.bss + (x + 2 ^ 64 - p.bss.paddr)) % 2 ^ 64) (littleEndian 8 info)
  bss : Backs a.bss p.bss → ∀ b ∈ claimed B (a.first p),
    ¬ InBlock (a.bss, pages p.bss.size size4KB) b
  stack : Backs a.stack p.stack → ∀ b ∈ claimed B (a.whole p),
    ¬ InBlock (a.stack, pages p.stack.size size4KB) b

section Whole

variable {pool c child parent : ℕ} {S : Multiset (ℕ × ℕ)} {B : Set ℕ} {s t : UserState}
  {p v : VmProc} {a : Places} {args : ForkArgs} {E : PmStop → UserState → Prop}

/-- The stack is copied. -/
theorem forkStackUser_spec (rsp : ℕ) :
    wp (forkStackUser parent child rsp) (fun _ t => t.pm = s.pm ∧ ∃ dst src,
      virt2phys (s.pm.cpus child).vm rsp = some dst ∧
      virt2phys (s.pm.cpus parent).vm rsp = some src ∧
      t.bytes = s.bytes.copy dst src (((s.pm.cpus parent).vm.stack.vaddr +
        (s.pm.cpus parent).vm.stack.size + 2 ^ 64 - rsp) % 2 ^ 64)) (fun _ _ => True) s := by
  unfold forkStackUser
  rw [wp_bind, wp_get, wp_bind, wp_onPm]
  refine wp_translate (fun dst hdst => ?_) fun _ => trivial
  rw [wp_bind, wp_onPm]
  refine wp_translate (fun src hsrc => ?_) fun _ => trivial
  refine wp_ite.mpr ⟨fun _ => trivial, fun _ => wp_ite.mpr ⟨fun _ => trivial, fun _ => ?_⟩⟩
  rw [wp_bind, wp_onPm]
  refine wp_writeUser (fun _ => ?_) fun _ => trivial
  rw [wp_setBytes]
  exact ⟨rfl, dst, src, hdst, hsrc, rfl⟩

/-- The registers and `cpuinfo` are set. -/
theorem forkRegsUser_spec (hne : parent ≠ child) :
    wp (forkRegsUser parent child args) (fun _ t => t.pm.outline = s.pm.outline ∧ ∃ x,
      virt2phys (s.pm.cpus parent).vm args.cpuinfoVaddr = some x ∧
      t.bytes = s.bytes.store (((s.pm.cpus child).vm.bss.paddr +
        (x + 2 ^ 64 - (s.pm.cpus parent).vm.bss.paddr)) % 2 ^ 64)
          (littleEndian 8 (s.pm.infoAddr child))) (fun _ _ => True) s := by
  have hother : (s.pm.updateVm child fun v => { v with regs := args.regs }).cpus parent =
      s.pm.cpus parent := Function.update_of_ne hne _ _
  unfold forkRegsUser
  rw [wp_bind, wp_onPm, wp_modify, wp_bind, wp_get, wp_bind, wp_onPm]
  dsimp only
  rw [hother, updateVm_cpus]
  refine wp_translate (fun x hx => ?_) fun _ => trivial
  rw [wp_bind, wp_onPm]
  refine wp_writeUser (fun _ => ?_) fun _ => trivial
  rw [wp_bind, wp_setBytes, wp_onPm, wp_modify]
  refine ⟨?_, x, hx, rfl⟩
  dsimp only
  rw [outline_updateVm (by exact fun _ => ⟨rfl, rfl⟩),
    outline_updateVm (by exact fun _ => ⟨rfl, rfl⟩)]

/-- All that a fork writes. -/
theorem forkChildUser_spec (hne : parent ≠ child) (hp : (s.pm.cpus parent).vm = p)
    (h : Copying pool 2 S B s [] s)
    (hsrc : ∀ sec ∈ p.sections, ∀ i < sec.size, sec.paddr + i ∈ B)
    (hshare : ∀ sec ∈ [p.code, p.rodata], reallocable s.pm.memory sec.paddr = true →
      (sec.paddr, pages sec.size size4KB) ∈ S) :
    wp (forkChildUser parent child args) (fun _ t => ∃ a : Places,
      (t.pm.cpus child).vm.sections = (p.settled a p).sections ∧
      ForkWrites B p a args (s.pm.infoAddr child) s.bytes t.bytes) (fun _ _ => True) s := by
  unfold forkChildUser
  refine (forkSectionsUser_spec hp h hsrc hshare).bind ?_
  rintro - s₁ ⟨a, hctl, hcopying, hbss, hstack⟩
  have hchild : (s₁.pm.cpus child).vm = p.settled a (s.pm.cpus child).vm := by
    have hcpus : s₁.pm.cpus = (s.pm.updateVm child (p.settled a)).cpus := congrArg Control.cpus hctl
    rw [hcpus, updateVm_cpus]
  have hparent : (s₁.pm.cpus parent).vm = p := by
    have hcpus : s₁.pm.cpus = (s.pm.updateVm child (p.settled a)).cpus := congrArg Control.cpus hctl
    rw [hcpus, show (s.pm.updateVm child (p.settled a)).cpus parent = s.pm.cpus parent from
      Function.update_of_ne hne _ _, hp]
  have hbase : s₁.pm.cpuinfoBase = s.pm.cpuinfoBase := congrArg Control.cpuinfoBase hctl
  refine (forkStackUser_spec args.regs.rsp).bind ?_
  rintro - s₂ ⟨hpm, dst, src, hdst, hsrc', hbytes⟩
  rw [hchild] at hdst
  have hdst' : virt2phys (p.settled a p) args.regs.rsp = some dst := hdst
  rw [hparent] at hsrc' hbytes
  -- the steps that leave user memory alone
  have hkeep : ∀ {α : Type} (x : Pm α) [hx : IsWithin (Same PmState.outline) x] (u : UserState),
      wp (onPm x) (fun _ w => w.pm.outline = u.pm.outline ∧ w.bytes = u.bytes)
      (fun _ _ => True) u := by
    intro α x hx u
    rw [wp_onPm]
    exact wp.of_same (f := PmState.outline) (fun _ w hw => ⟨hw, rfl⟩) fun _ _ _ => trivial
  refine (hkeep (forkPages child) s₂).bind ?_
  rintro - s₃ ⟨hout₃, hbytes₃⟩
  refine (hkeep (eptPmap child) s₃).bind ?_
  rintro - s₄ ⟨hout₄, hbytes₄⟩
  refine (hkeep (forkFds parent child) s₄).bind ?_
  rintro - s₅ ⟨hout₅, hbytes₅⟩
  have hout : s₅.pm.outline = s₁.pm.outline := by
    rw [hout₅, hout₄, hout₃, hpm]
  have hrec : ∀ i, (s₅.pm.cpus i).vm.sections = (s₁.pm.cpus i).vm.sections ∧
      (s₅.pm.cpus i).vm.endVaddr = (s₁.pm.cpus i).vm.endVaddr :=
    fun i => Prod.mk.inj (congrFun (congrArg Prod.fst hout) i)
  refine (forkRegsUser_spec hne).bind ?_
  rintro - s₆ ⟨hout₆, x, hx, hbytes₆⟩
  rw [wp_bind, wp_get, wp_pure]
  have hend := Prod.mk.inj (congrFun (congrArg Prod.fst hout₆) child)
  have hpsec := (hrec parent).1
  rw [hparent] at hpsec
  rw [virt2phys_congr hpsec (by rw [(hrec parent).2, hparent])] at hx
  refine ⟨a, ?_, ⟨s₁.bytes, dst, src, x, hcopying.copied, hdst', hsrc', hx, ?_⟩, hbss, hstack⟩
  · rw [hend.1, (hrec child).1, hchild]
    rfl
  · have hcsec := (hrec child).1
    rw [hchild] at hcsec
    simp only [VmProc.sections, List.cons.injEq, and_true] at hcsec hpsec
    obtain ⟨-, -, -, hcbss, -⟩ := hcsec
    obtain ⟨-, -, -, hpbss, -⟩ := hpsec
    have hinfo : s₅.pm.infoAddr child = s.pm.infoAddr child := by
      have hbase₅ : s₅.pm.cpuinfoBase = s₁.pm.cpuinfoBase := congrArg Prod.snd hout
      unfold PmState.infoAddr
      rw [hbase₅, hbase]
    rw [hbytes₆, hcbss, hpbss, hinfo, hbytes₅, hbytes₄, hbytes₃, hbytes]
    rfl

end Whole

/-! ### What the child sees -/

/-- The memory of a child, whose record is `v`, after a fork of `p`: `m` are the contents before the
fork, `m'` those after it.  The bytes of `B` have not changed. -/
structure Duplicated (B : Set ℕ) (p v : VmProc) (args : ForkArgs) (info : ℕ) (m m' : Bytes) :
    Prop where
  kept : ∀ b ∈ B, m' b = m b
  code : ∀ i < p.code.size, m' (v.code.paddr + i) = m (p.code.paddr + i)
  data : ∀ i < p.data.size, m' (v.data.paddr + i) = m (p.data.paddr + i)
  rodata : ∀ i < p.rodata.size, m' (v.rodata.paddr + i) = m (p.rodata.paddr + i)
  bss : ∀ i < p.bss.size,
    p.bss.vaddr + i < args.cpuinfoVaddr ∨ args.cpuinfoVaddr + 8 ≤ p.bss.vaddr + i →
    m' (v.bss.paddr + i) = m (p.bss.paddr + i)
  stack : ∀ i < p.stack.size, args.regs.rsp ≤ p.stack.vaddr + i →
    m' (v.stack.paddr + i) = m (p.stack.paddr + i)
  cpuinfo : m'.load (v.bss.paddr + (args.cpuinfoVaddr - p.bss.vaddr)) 8 = littleEndian 8 info

/-- The bytes that are in use: those outside of the pool, and those of the blocks that are
recorded. -/
def PmState.inUse (pool : ℕ) (s : PmState) : Set ℕ :=
  {b | s.InPool pool b → ∃ z ∈ s.recordedBlocks, InBlock z b}

section Duplicate

variable {B : Set ℕ} {p v w : VmProc} {a : Places} {args : ForkArgs} {info : ℕ} {m m' : Bytes}

theorem Duplicated.congr (h : Duplicated B p v args info m m') (hsec : w.sections = v.sections) :
    Duplicated B p w args info m m' := by
  simp only [VmProc.sections, List.cons.injEq, and_true] at hsec
  obtain ⟨hcode, hdata, hrodata, hbss, hstack⟩ := hsec
  obtain ⟨kept, code, data, rodata, bss, stack, cpuinfo⟩ := h
  rw [← hcode] at code
  rw [← hdata] at data
  rw [← hrodata] at rodata
  rw [← hbss] at bss cpuinfo
  rw [← hstack] at stack
  exact ⟨kept, code, data, rodata, bss, stack, cpuinfo⟩

/-- The place of the stack pointer, of the variable `cpuinfo`, and the length of the copy. -/
theorem ForkWrites.exact (h : ForkWrites B p a args info m m') (hready : p.ForkReady args)
    (hbss : a.bss + p.bss.size < 2 ^ 64) (hstack : a.stack + p.stack.size < 2 ^ 64) :
    ∃ m₁, ((∀ y ∈ a.whole p, Backs y.1 y.2) → Copied B (a.whole p) m m₁) ∧
      m' = (m₁.copy (a.stack + (args.regs.rsp - p.stack.vaddr))
        (p.stack.paddr + (args.regs.rsp - p.stack.vaddr))
        (p.stack.size - (args.regs.rsp - p.stack.vaddr))).store
          (a.bss + (args.cpuinfoVaddr - p.bss.vaddr)) (littleEndian 8 info) := by
  obtain ⟨m₁, dst, src, x, hcopied, hdst, hsrc, hx, rfl⟩ := h.writes
  obtain ⟨hlow, hhigh⟩ := hready.stack
  obtain ⟨hreach, hend⟩ := hready.reach
  obtain ⟨hinfo, hinfo', hbelow⟩ := hready.cpuinfo
  obtain ⟨-, hps, hpb⟩ := hready.memory
  have hdst' := virt2phys_stack (v := p.settled a p) hready.order hlow hreach
    (show a.stack + (args.regs.rsp - p.stack.vaddr) < 2 ^ 64 by omega)
  have hsrc' := virt2phys_stack hready.order hlow hreach (by omega)
  have hx' := virt2phys_bss ⟨hready.order.1, hready.order.2.1⟩ hinfo hbelow (by omega)
  obtain rfl : a.stack + (args.regs.rsp - p.stack.vaddr) = dst :=
    Option.some.inj (hdst'.symm.trans hdst)
  obtain rfl := Option.some.inj (hsrc'.symm.trans hsrc)
  obtain rfl := Option.some.inj (hx'.symm.trans hx)
  have hlen : (p.stack.vaddr + p.stack.size + 2 ^ 64 - args.regs.rsp) % 2 ^ 64 =
      p.stack.size - (args.regs.rsp - p.stack.vaddr) := by omega
  have hptr : (a.bss + (p.bss.paddr + (args.cpuinfoVaddr - p.bss.vaddr) + 2 ^ 64 - p.bss.paddr)) %
      2 ^ 64 = a.bss + (args.cpuinfoVaddr - p.bss.vaddr) := by omega
  rw [hlen, hptr]
  exact ⟨m₁, hcopied, rfl⟩

/-- The copy of the stack leaves the other copies alone. -/
theorem ForkWrites.stack_copied (h : ForkWrites B p a args info m m') (hready : p.ForkReady args)
    (hsrc : ∀ i < p.stack.size, p.stack.paddr + i ∈ B)
    (hwhole : ∀ y ∈ a.whole p, Backs y.1 y.2) (hback : Backs a.stack p.stack)
    (hbss : a.bss + p.bss.size < 2 ^ 64) (hstack : a.stack + p.stack.size < 2 ^ 64) :
    ∃ m₂, Copied B (a.whole p) m m₂ ∧
      (∀ i < p.stack.size, args.regs.rsp ≤ p.stack.vaddr + i →
        m₂ (a.stack + i) = m (p.stack.paddr + i)) ∧
      m' = m₂.store (a.bss + (args.cpuinfoVaddr - p.bss.vaddr)) (littleEndian 8 info) := by
  obtain ⟨m₁, hcopied, rfl⟩ := h.exact hready hbss hstack
  have hfree := h.stack hback
  have hsize := size_le_pages p.stack
  obtain ⟨hlow, hhigh⟩ := hready.stack
  obtain ⟨k, hk⟩ : ∃ k, k = args.regs.rsp - p.stack.vaddr := ⟨_, rfl⟩
  rw [← hk]
  have hread : ∀ i < p.stack.size - k, p.stack.paddr + k + i ∈ claimed B (a.whole p) := by
    intro i hi
    have hmem := hsrc (k + i) (by omega)
    rw [← Nat.add_assoc] at hmem
    exact Or.inl hmem
  have hapart : ∀ b ∈ claimed B (a.whole p),
      ¬ (a.stack + k ≤ b ∧ b < a.stack + k + (p.stack.size - k)) := by
    intro b hb hin
    refine hfree b hb ⟨(Nat.le_add_right _ _).trans hin.1, hin.2.trans_le ?_⟩
    dsimp only
    omega
  obtain ⟨hkept, hsame⟩ := Bytes.copy_free (m := m₁) hread hapart
  refine ⟨_, (hcopied hwhole).of_kept hwhole hkept, fun i hi hfrom => ?_, rfl⟩
  have hcopy := hsame (i - k) (by omega)
  rw [show a.stack + k + (i - k) = a.stack + i by omega,
    show p.stack.paddr + k + (i - k) = p.stack.paddr + i by omega] at hcopy
  exact hcopy.trans ((hcopied hwhole).kept _ (hsrc i hi))

/-- Each write goes to bytes that nothing else uses, so no copy is lost. -/
theorem ForkWrites.duplicated (h : ForkWrites B p a args info m m') (hready : p.ForkReady args)
    (hsrc : ∀ sec ∈ p.sections, ∀ i < sec.size, sec.paddr + i ∈ B)
    (hback : ∀ sec ∈ (p.settled a p).sections, Backs sec.paddr sec)
    (hbss : a.bss + p.bss.size < 2 ^ 64) (hstack : a.stack + p.stack.size < 2 ^ 64) :
    Duplicated B p (p.settled a p) args info m m' := by
  simp only [VmProc.sections, VmProc.settled, List.forall_mem_cons, List.not_mem_nil,
    false_imp_iff, implies_true, and_true] at hsrc hback
  obtain ⟨hcode, hdata, hrodata, hbackBss, hbackStack⟩ := hback
  have hwhole : ∀ y ∈ a.whole p, Backs y.1 y.2 := by
    simp only [Places.whole, Places.first, List.cons_append, List.nil_append, List.forall_mem_cons,
      List.not_mem_nil, false_imp_iff, implies_true, and_true]
    exact ⟨hcode, hdata, hrodata, hbackBss⟩
  obtain ⟨m₂, hcopied, hcopiedStack, rfl⟩ :=
    h.stack_copied hready hsrc.2.2.2.2 hwhole hbackStack hbss hstack
  obtain ⟨hinfo, hinfo', -⟩ := hready.cpuinfo
  have hsize := size_le_pages p.bss
  obtain ⟨o, ho⟩ : ∃ o, o = args.cpuinfoVaddr - p.bss.vaddr := ⟨_, rfl⟩
  rw [← ho]
  -- the variable lies in the bss of the child
  have hstore : ∀ b, ¬ (a.bss + o ≤ b ∧ b < a.bss + o + 8) →
      m₂.store (a.bss + o) (littleEndian 8 info) b = m₂ b := by
    intro b hb
    refine Bytes.store_of_disjoint ?_
    rw [length_littleEndian]
    omega
  have hfirst : ∀ b ∈ claimed B (a.first p),
      m₂.store (a.bss + o) (littleEndian 8 info) b = m₂ b := by
    intro b hb
    refine hstore b fun hin => h.bss hbackBss b hb ?_
    refine ⟨(Nat.le_add_right _ _).trans hin.1, hin.2.trans_le ?_⟩
    dsimp only
    omega
  have hsection : ∀ x ∈ a.first p, Backs x.1 x.2 → ∀ i < x.2.size,
      m₂.store (a.bss + o) (littleEndian 8 info) (x.1 + i) = m (x.2.paddr + i) := by
    intro x hx hxback i hi
    rw [hfirst _ (mem_claimed hx hxback hi)]
    exact hcopied.same x (List.mem_append_left _ hx) i hi
  have hmemBss : (a.bss, p.bss) ∈ a.whole p := List.mem_append_right _ (List.mem_singleton_self _)
  refine ⟨fun b hb => ?_, ?_, ?_, ?_, fun i hi hout => ?_, fun i hi hfrom => ?_, ?_⟩
  · rw [hfirst b (Or.inl hb)]
    exact hcopied.kept b hb
  · exact hsection (a.code, p.code) (by simp [Places.first]) hcode
  · exact hsection (a.data, p.data) (by simp [Places.first]) hdata
  · exact hsection (a.rodata, p.rodata) (by simp [Places.first]) hrodata
  · change m₂.store (a.bss + o) (littleEndian 8 info) (a.bss + i) = _
    rw [hstore _ (by omega)]
    exact hcopied.same _ hmemBss i hi
  · change m₂.store (a.bss + o) (littleEndian 8 info) (a.stack + i) = _
    have hne : ¬ (a.bss + o ≤ a.stack + i ∧ a.stack + i < a.bss + o + 8) := by
      intro hin
      -- the bss is apart from the stack
      have hmem : a.bss + (a.stack + i - a.bss) ∈ claimed B (a.whole p) :=
        mem_claimed hmemBss hbackBss (show a.stack + i - a.bss < p.bss.size by omega)
      rw [Nat.add_sub_cancel' (by omega)] at hmem
      have hpages := size_le_pages p.stack
      refine h.stack hbackStack _ hmem ⟨Nat.le_add_right _ _, ?_⟩
      dsimp only
      omega
    rw [hstore _ hne]
    exact hcopiedStack i hi hfrom
  · rw [← ho]
    have hload := Bytes.load_store (m := m₂) (a := a.bss + o) (l := littleEndian 8 info)
    rw [length_littleEndian] at hload
    exact hload

end Duplicate

section Run

variable {pool c : ℕ} {maps : ℕ → View} {files : List Fs.FileHeader} {evs : List DeviceEvent}
  {s₀ s : PmState} {args : ForkArgs} {m : Bytes} {r : ℤ} {u : UserState}

/-- As `wp_localFork`, with the contents. -/
theorem wp_localForkUser {x : UserState} {Q : ℤ → UserState → Prop} {E : PmStop → UserState → Prop}
    (hm : x.pm.machine.Sound) (hc : c < x.pm.ncpus) (hnone : Q (-1) x)
    (hchild : ∀ child, alwaysBusy ≤ child → child < x.pm.ncpus → (x.pm.cpus child).hasVm = false →
      (∀ j, alwaysBusy ≤ j → j < child → (x.pm.cpus j).hasVm = true) →
      wp (forkChildUser c child args) Q E { x with pm := x.pm.adopt c child }) :
    wp (localForkUser c args) Q E x := by
  have hncpus : x.pm.ncpus ≤ maxCpus := hm.ncpus_le
  unfold localForkUser
  rw [show getCpuInfo c = some c from if_neg (by omega)]
  dsimp only
  rw [wp_bind, wp_get, wp_bind, wp_onPm]
  refine (findFreeVm_spec fun hlt => absurd hm.ncpus_le (not_le.mpr hlt)).mono ?_ fun _ _ he => he
  rintro r s' ⟨rfl, hsome, -⟩
  cases r with
  | none => exact hnone
  | some child =>
    obtain ⟨hbusy, hlt, hfree, hfirst⟩ := hsome child rfl
    dsimp only
    rw [wp_bind, wp_onPm, wp_modify, hm.cpuid_eq hc, wp_bind, wp_onPm]
    refine wp_derefCpu (fun _ => ?_) fun hbig => absurd hbig (by omega)
    rw [wp_bind, wp_onPm, wp_modify]
    exact hchild child hbusy hlt hfree hfirst

/-- The bytes of the sections of a live VM are in use. -/
theorem PmState.Accounted.section_inUse {B : ℕ} (h : s.Accounted pool B maps)
    (hok : s.allocFailed = false) (hc : c ∈ s.live) {sec : VmSection}
    (hsec : sec ∈ (s.cpus c).vm.sections) {i : ℕ} (hi : i < sec.size) :
    sec.paddr + i ∈ s.inUse pool := by
  intro _
  have hne := h.books.account.backed hok c hc sec hsec (Nat.zero_lt_of_lt hi)
  refine ⟨_, section_recorded hc hsec hne, Nat.le_add_right _ _, ?_⟩
  have hle := size_le_pages sec
  dsimp only
  omega

/-- Before the first copy. -/
theorem PmState.Accounted.copying {B child : ℕ} (h : s.Accounted pool B maps)
    (hcard : s.live.card ≤ maxCpus) : Copying pool 2 (s.shared s.live) (s.inUse pool)
      ⟨s.adopt c child, m⟩ [] ⟨s.adopt c child, m⟩ := by
  refine ⟨.refl _, ⟨s.exclusiveBlocks, s.shared s.live, h.ledger, le_rfl, ?_, ?_⟩, fun _ =>
    ⟨fun _ _ => rfl, fun x hx => absurd hx List.not_mem_nil⟩⟩
  · have hle := card_shared s.live s
    have hmax : maxCpus = 255 := rfl
    omega
  · rintro b (hb | ⟨x, hx, -⟩) hpool
    · exact hb hpool
    · exact absurd hx List.not_mem_nil

/-- What a fork writes, if it is not refused: the child gets the first CPU that is free. -/
theorem PmState.Accounted.forkUser_writes {B : ℕ} (h : s.Accounted pool B maps)
    (hm : s.machine.Sound) (hlt : c < s.ncpus) (hc : c ∈ s.live ∨ c = initId)
    (hsrc : ∀ sec ∈ (s.cpus c).vm.sections, ∀ i < sec.size, sec.paddr + i ∈ s.inUse pool) :
    wp (localForkUser c args) (fun r t => r ≠ -1 → ∃ child a, alwaysBusy ≤ child ∧
      (s.cpus child).hasVm = false ∧
      (∀ j, alwaysBusy ≤ j → j < child → (s.cpus j).hasVm = true) ∧
      (t.pm.cpus child).vm.sections = ((s.cpus c).vm.settled a (s.cpus c).vm).sections ∧
      ForkWrites (s.inUse pool) (s.cpus c).vm a args (s.infoAddr child) m t.bytes)
      (fun _ _ => True) ⟨s, m⟩ := by
  have hvm : c ∈ s.live ∨ c < alwaysBusy := hc.imp_right fun heq => by rw [heq]; decide
  refine wp_localForkUser hm hlt (fun hne => absurd rfl hne) ?_
  intro child hbusy hchild hfree hfirst
  have hf := (h.forker hc).forkable hm (fun d hd => (h.live d hd).2) h.idle hvm hbusy hchild hfree
  have hrec : ((s.adopt c child).cpus c).vm = (s.cpus c).vm := by rw [adopt_other c s hf.ne]
  refine (forkChildUser_spec hf.ne hrec (h.copying hf.card) hsrc ?_).mono ?_ fun _ _ he => he
  · intro sec hsec hre
    obtain ⟨hpaddr, hle⟩ := (h.forker hc).shared sec hsec hre
    exact Multiset.mem_of_le hle (mem_blockAt hpaddr)
  · rintro - t ⟨a, hsections, hwrites⟩ -
    exact ⟨child, a, hbusy, hfree, hfirst, hsections, hwrites⟩

/-- When PM is idle, a fork of INIT succeeds with any contents. -/
theorem PmState.Idle.forkUser (h : s.Idle pool args) (hroom : ForkRoom s (s.descriptors initId))
    (m : Bytes) : ∃ r u, localForkUser initId args ⟨s, m⟩ = .ok r u ∧ r ≠ -1 ∧
      u.pm.allocFailed = false := by
  obtain ⟨maps, hacc⟩ := h.accounted
  have hlow : initId ∈ s.live ∨ initId < alwaysBusy := Or.inr (by decide)
  have hfds : FdsReady s (s.descriptors initId) := by
    intro i _ hchar
    rw [hacc.init_descriptors] at hchar
    exact absurd hchar (by decide)
  have hspec := localFork_books (P := True) hacc.books h.machine (fun d hd => (hacc.live d hd).2)
    hacc.idle h.ready.init hlow (hacc.forker (Or.inr rfl)) hroom
    (fun _ => ⟨h.ready.ready, h.ready.pages⟩) fun _ => hfds
  obtain ⟨r, t, ht, hcase, hleft⟩ := wp.returns trivial hspec
    (localFork_reserve hacc.books.account h.machine (fun d hd => (hacc.live d hd).2) hacc.idle
      h.ready.init hlow (hacc.forker (Or.inr rfl)) h.ready.pages h.reserve)
  obtain ⟨m', hm'⟩ := (localForkUser_erases initId args).ok (s := ⟨s, m⟩) ht
  refine ⟨r, _, hm', ?_, hleft.ok⟩
  rcases hcase with ⟨-, -, hfull⟩ | ⟨child, -, -, -, rfl, -⟩
  · exact absurd ((h.ready.hasVm _).mp (hfull alwaysBusy le_rfl h.cpu)) (lt_irrefl _)
  · omega

/-- In every run, a fork for which no allocation has failed gives the child the memory of its
parent: code, data, rodata and bss, the stack from the stack pointer on, and in the variable
`cpuinfo` the address of its own record.  Nothing in use changes.  The sections of INIT, which was
loaded before PM started, are outside of the pool. -/
theorem fork_copies_of_run (hfresh : s₀.Fresh pool) (hfiles : RegularFiles files)
    (hrun : Run (orderedStep files) s₀ evs s) (hlt : c < s.ncpus)
    (horder : DeviceOrder files s (.pm ⟨c, .fork args⟩)) (hready : (s.cpus c).vm.ForkReady args)
    (hinit : c = initId → ∀ sec ∈ (s.cpus c).vm.sections, ∀ i < sec.size,
      ¬ s.InPool pool (sec.paddr + i))
    (hfork : localForkUser c args ⟨s, m⟩ = .ok r u) (hr : r ≠ -1)
    (hok : u.pm.allocFailed = false) :
    ∃ child : ℕ, r = child ∧ (s.cpus child).hasVm = false ∧ Duplicated (s.inUse pool) (s.cpus c).vm
      (u.pm.cpus child).vm args (s.infoAddr child) m u.bytes := by
  obtain ⟨maps, hinv⟩ := hfresh.run hfiles hrun
  have hacc := hinv.accounted
  obtain ⟨hc, hroom⟩ := horder
  have hvm : c ∈ s.live ∨ c < alwaysBusy := hc.imp_right fun heq => by rw [heq]; decide
  -- PM's own books, without the contents
  have hpm : localFork c args s = .ok r u.pm := by
    have herase := localForkUser_erases c args ⟨s, m⟩
    rw [hfork] at herase
    exact herase.symm
  have hresult := (localFork_books (P := False) hacc.books hinv.machine
    (fun d hd => (hacc.live d hd).2) hacc.idle hlt hvm (hacc.forker hc) hroom False.elim
    False.elim).ok hpm
  rcases hresult with ⟨rfl, -⟩ | ⟨child, hrange, hfree, hfirst, rfl, hforked, -⟩
  · exact absurd rfl hr
  have hsok : s.allocFailed = false := by
    by_contra hfail
    exact Bool.false_ne_true (hok.symm.trans (hforked.failed (Bool.of_not_eq_false hfail)))
  have hsrc : ∀ sec ∈ (s.cpus c).vm.sections, ∀ i < sec.size, sec.paddr + i ∈ s.inUse pool := by
    intro sec hsec i hi
    rcases hc with hc | hc
    · exact hacc.section_inUse hsok hc hsec hi
    · exact fun hpool => absurd hpool (hinit hc sec hsec i hi)
  obtain ⟨d, a, hbusy, hdfree, hdfirst, hsections, hwrites⟩ :=
    (hacc.forkUser_writes hinv.machine hlt hc hsrc).ok hfork hr
  -- both levels take the first CPU that is free
  obtain rfl : d = child := by
    rcases lt_trichotomy d child with hlow | heq | hhigh
    · exact absurd (hdfree.symm.trans (hfirst d hbusy hlow)) Bool.false_ne_true
    · exact heq
    · exact absurd (hfree.symm.trans (hdfirst child hrange.1 hhigh)) Bool.false_ne_true
  obtain ⟨ts, os, -, hbooks'⟩ := hforked.books
  have hmem : d ∈ insert d s.live := Finset.mem_insert_self _ _
  have hbacked := hbooks'.account.backed hok d hmem
  have hpool : ∀ sec ∈ ((s.cpus c).vm.settled a (s.cpus c).vm).sections, 0 < sec.size →
      sec.InPool := by
    intro sec hsec hpos
    rw [← hsections] at hsec
    exact hbooks'.account.section_inPool hmem hsec (hbacked sec hsec hpos)
  refine ⟨d, rfl, hfree, Duplicated.congr ?_ hsections⟩
  have hbssSize : 0 < (s.cpus c).vm.bss.size := by
    have hinfo := hready.cpuinfo
    omega
  have hstackSize : 0 < (s.cpus c).vm.stack.size := by
    have hrsp := hready.stack
    omega
  have hbss := (hpool { (s.cpus c).vm.bss with paddr := a.bss }
    (by simp [VmProc.sections, VmProc.settled]) hbssSize).2
  have hstack := (hpool { (s.cpus c).vm.stack with paddr := a.stack }
    (by simp [VmProc.sections, VmProc.settled]) hstackSize).2
  refine hwrites.duplicated hready hsrc (fun sec hsec => ?_) ?_ ?_
  · rcases Nat.eq_zero_or_pos sec.size with h0 | hpos
    · exact Or.inr h0
    · exact Or.inl (hpool sec hsec hpos).1
  · exact hbss.trans_lt (by norm_num)
  · exact hstack.trans_lt (by norm_num)

/-- INIT forks its first child. -/
theorem fork_copies_of_run_init : ∃ (m : MemoryState) (r : ℤ) (u : UserState),
    localForkUser initId bootArgs ⟨bootPm m, UInt8.ofNat⟩ = .ok r u ∧
    ∃ child : ℕ, r = child ∧ ((bootPm m).cpus child).hasVm = false ∧
      Duplicated ((bootPm m).inUse 776224) ((bootPm m).cpus initId).vm (u.pm.cpus child).vm bootArgs
        ((bootPm m).infoAddr child) UInt8.ofNat u.bytes := by
  obtain ⟨m, s, hfresh, hff, hrun, -⟩ := bootPm_devices (k := 1) (by decide)
  have hcost : forkCost ((bootPm m).cpus initId).vm < 776224 := by
    rw [show forkCost ((bootPm m).cpus initId).vm = 105963 from bootVm_cost]
    norm_num
  have hidle := hfresh.idle (bootPm_initReady m) (show 3 < 8 by decide) hcost rfl
  cases hrun with
  | cons hstep hrest =>
    have horder := hstep.1
    obtain ⟨r, u, hfork, hr, hok⟩ := hidle.forkUser horder.2 UInt8.ofNat
    refine ⟨m, r, u, hfork, fork_copies_of_run hfresh regularFiles_nil (.nil _) hidle.ready.init
      horder hidle.ready.ready (fun _ sec hsec i hi hpool => ?_) hfork hr hok⟩
    -- INIT was loaded below the pool
    have hend : ∀ sec ∈ bootVm.sections, sec.paddr + sec.size ≤ 0x802000 := by decide
    have hlow : m.firstFreeAddr ≤ sec.paddr + i := hpool.1
    have hbelow := hend sec hsec
    omega

end Run

end Savannah
