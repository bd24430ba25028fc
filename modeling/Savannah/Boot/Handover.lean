import Savannah.Boot.Memory
import Savannah.Memory.Allocation
import Savannah.Memory.Ledger

/-!
# The handover of memory from the boot loader to the process manager

The boot loader allocates by moving one pointer upwards (`boot/stage2/memory.c`): `malloc`,
`malloc_align`, `calloc` and `calloc_align`.  At the end it passes the pointer and the size of the
memory to PM (`set_vm_args`), whose `memory_init` puts its node array and its pool behind the
pointer.

`HandedOver` says that `memory_init` panics or that the blocks of the boot loader, the array and
the pages of the pool do not overlap and fit into the memory.  There are two ways to miss this, both
when less than a page is left: the address behind the array is rounded up to a page without a new
check, so that the size of the pool wraps; and with no byte left the array has no entry for the
first block.
-/

namespace Savannah.Stage2

open Foundation

/-! ### The calls of the boot loader -/

/-- A call of the allocator. -/
inductive HeapCall where
  | malloc (size : ℕ)
  | mallocAlign (size alignment : ℕ)
  | calloc (nmemb size : ℕ)
  | callocAlign (nmemb size alignment : ℕ)
  deriving DecidableEq, Repr

namespace HeapCall

def exec : HeapCall → Heap → Except (Stop Panic) (ℕ × Heap)
  | malloc size => Heap.malloc size
  | mallocAlign size alignment => Heap.mallocAlign size alignment
  | calloc nmemb size => Heap.calloc nmemb size
  | callocAlign nmemb size alignment => Heap.callocAlign nmemb size alignment

/-- The number of bytes that are asked for. -/
def bytes : HeapCall → ℕ
  | malloc size | mallocAlign size _ => size
  | calloc nmemb size | callocAlign nmemb size _ => nmemb * size

end HeapCall

/-- The step of a call that succeeds, with the address it returns; neither the size nor the end of
the block overflows. -/
def Served (h : Heap) (c : HeapCall × ℕ) (h' : Heap) : Prop :=
  c.1.exec h = .ok (c.2, h') ∧ c.2 ≠ 0 ∧ c.2 + c.1.bytes < 2 ^ 64

/-- The block that a call hands out: its address and its size. -/
def block (c : HeapCall × ℕ) : ℕ × ℕ := (c.2, c.1.bytes)

/-! ### Disjoint blocks -/

section Heap

variable {h h' : Heap} {c : HeapCall × ℕ} {cs : List (HeapCall × ℕ)} {a b k : ℕ}

theorem align_spec (hb : 0 < b) (hfit : a + b ≤ 2 ^ 64) :
    a ≤ align a b ∧ align a b < a + b := by
  have hsum : (a + (b - 1)) % 2 ^ 64 = a + (b - 1) := Nat.mod_eq_of_lt (by omega)
  have hand : (a + (b - 1)) &&& (b - 1) ≤ b - 1 := Nat.and_le_right
  unfold align
  dsimp only
  rw [if_neg hb.ne', hsum]
  omega

/-- Aligning to 0 gives address 0. -/
theorem align_zero (a : ℕ) : align a 0 = 0 := by
  have hand : ∀ x : ℕ, x % 2 ^ 64 &&& (2 ^ 64 - 1) = x % 2 ^ 64 := fun x => by
    rw [Nat.and_two_pow_sub_one_eq_mod, Nat.mod_mod]
  unfold align
  dsimp only
  rw [if_pos rfl, hand, Nat.sub_self]

/-- The block `b` lies inside the memory, between the old and the new value of the pointer. -/
structure Moved (h : Heap) (b : ℕ × ℕ) (h' : Heap) : Prop where
  size : h'.memorySize = h.memorySize
  inside : b.1 + b.2 ≤ h.memorySize
  above : h.firstFreeAddr ≤ h.memorySize + 15 → h.firstFreeAddr ≤ b.1
  below : b.1 + b.2 ≤ h'.firstFreeAddr
  pointer : h'.firstFreeAddr ≤ h.memorySize + 15

theorem bump_moved {size : ℕ} (hm : h.memorySize < 2 ^ 43) (hok : h.bump size = (a, h'))
    (ha : a ≠ 0)
    (hover : a + size < 2 ^ 64) : Moved h (a, size) h' ∧ a = h.firstFreeAddr := by
  unfold Heap.bump at hok
  split at hok
  · exact absurd (Prod.mk.inj hok).1.symm ha
  · rename_i hfit
    obtain ⟨rfl, rfl⟩ := Prod.mk.inj hok
    rw [Nat.mod_eq_of_lt hover] at hfit ⊢
    obtain ⟨h₁, h₂⟩ := align_spec (a := h.firstFreeAddr + size) (b := 16) (by norm_num) (by omega)
    exact ⟨⟨rfl, not_lt.mp hfit, fun _ => le_rfl, h₁, by dsimp only; omega⟩, rfl⟩

/-- The same behind an aligned pointer.  Aligning to 0 would give address 0, which counts as a
failure. -/
theorem bump_aligned_moved {size alignment : ℕ} (hm : h.memorySize < 2 ^ 43)
    (hal : ¬ alignment ≥ h.memorySize)
    (hok : Heap.bump size { h with firstFreeAddr := align h.firstFreeAddr alignment } = (a, h'))
    (ha : a ≠ 0) (hover : a + size < 2 ^ 64) : Moved h (a, size) h' := by
  obtain ⟨hmoved, heq⟩ := bump_moved (by exact hm) hok ha hover
  refine ⟨hmoved.size, hmoved.inside, fun hff => ?_, hmoved.below, hmoved.pointer⟩
  dsimp only at heq ⊢
  rcases Nat.eq_zero_or_pos alignment with rfl | hpos
  · exact absurd (heq.trans (align_zero _)) ha
  · rw [heq]
    exact (align_spec hpos (by omega)).1

/-- A call that succeeds moves the pointer over its block. -/
theorem Served.moved (hs : Served h c h') (hm : h.memorySize < 2 ^ 43) : Moved h (block c) h' := by
  obtain ⟨hok, ha, hover⟩ := hs
  obtain ⟨call, a⟩ := c
  unfold block
  dsimp only at hok ha hover ⊢
  have hnull : ¬ (Except.ok (0, h) : Except (Stop Panic) (ℕ × Heap)) = .ok (a, h') :=
    fun heq => ha (Prod.mk.inj (Except.ok.inj heq)).1.symm
  cases call with
  | malloc size =>
    simp only [HeapCall.exec, Heap.malloc] at hok
    split_ifs at hok
    · exact absurd hok hnull
    · exact (bump_moved hm (Except.ok.inj hok) ha hover).1
  | mallocAlign size alignment =>
    simp only [HeapCall.exec, Heap.mallocAlign] at hok
    split_ifs at hok with h₀ h₁ h₂
    · exact absurd hok hnull
    · exact absurd hok hnull
    · exact bump_aligned_moved hm h₂ (Except.ok.inj hok) ha hover
  | calloc nmemb size =>
    dsimp only [HeapCall.bytes] at hover ⊢
    have hsize : nmemb * size % 2 ^ 64 = nmemb * size := Nat.mod_eq_of_lt (by omega)
    simp only [HeapCall.exec, Heap.calloc, hsize] at hok
    split_ifs at hok
    · exact absurd hok hnull
    · exact (bump_moved hm (Except.ok.inj hok) ha hover).1
  | callocAlign nmemb size alignment =>
    dsimp only [HeapCall.bytes] at hover ⊢
    have hsize : nmemb * size % 2 ^ 64 = nmemb * size := Nat.mod_eq_of_lt (by omega)
    simp only [HeapCall.exec, Heap.callocAlign, hsize] at hok
    split_ifs at hok with h₀ h₁ h₂
    · exact absurd hok hnull
    · exact absurd hok hnull
    · exact bump_aligned_moved hm h₂ (Except.ok.inj hok) ha hover

/-- The blocks of a run follow each other between the first and the last value of the pointer. -/
theorem served_run (hrun : Run Served h cs h') (hm : h.memorySize < 2 ^ 43)
    (hff : h.firstFreeAddr ≤ h.memorySize + 15) :
    h'.memorySize = h.memorySize ∧ h.firstFreeAddr ≤ h'.firstFreeAddr ∧
      ((cs.map block).Pairwise fun b b' => b.1 + b.2 ≤ b'.1) ∧
      ∀ b ∈ cs.map block, h.firstFreeAddr ≤ b.1 ∧ b.1 + b.2 ≤ h'.firstFreeAddr := by
  induction hrun with
  | nil h => exact ⟨rfl, le_rfl, List.Pairwise.nil, fun b hb => absurd hb List.not_mem_nil⟩
  | @cons h h₁ h' c cs hstep _ ih =>
    have hmoved := hstep.moved hm
    have habove := hmoved.above hff
    have hbelow := hmoved.below
    obtain ⟨hsize, hmono, hpair, hall⟩ := ih (hmoved.size ▸ hm) (hmoved.size ▸ hmoved.pointer)
    refine ⟨hsize.trans hmoved.size, by omega, ?_, fun b hb => ?_⟩
    · exact List.Pairwise.cons (fun b hb => hbelow.trans (hall b hb).1) hpair
    · rcases List.mem_cons.mp hb with rfl | hb
      · exact ⟨habove, hbelow.trans hmono⟩
      · exact ⟨by have := (hall b hb).1; omega, (hall b hb).2⟩

/-- All blocks that the boot loader has handed out lie below the pointer and follow each other. -/
theorem served_blocks (hrun : Run Served h cs h') (hm : h.memorySize < 2 ^ 43) :
    h'.memorySize = h.memorySize ∧ ((cs.map block).Pairwise fun b b' => b.1 + b.2 ≤ b'.1) ∧
      ∀ b ∈ cs.map block, b.1 + b.2 ≤ h'.firstFreeAddr := by
  cases hrun with
  | nil => exact ⟨rfl, List.Pairwise.nil, fun b hb => absurd hb List.not_mem_nil⟩
  | cons hstep hrest =>
    -- the first block is inside the memory, even if the pointer was not
    have hmoved := hstep.moved hm
    have hbelow := hmoved.below
    obtain ⟨hsize, hmono, hpair, hall⟩ :=
      served_run hrest (hmoved.size ▸ hm) (hmoved.size ▸ hmoved.pointer)
    refine ⟨hsize.trans hmoved.size, ?_, fun b hb => ?_⟩
    · exact List.Pairwise.cons (fun b hb => hbelow.trans (hall b hb).1) hpair
    · rcases List.mem_cons.mp hb with rfl | hb
      · exact hbelow.trans hmono
      · exact (hall b hb).2

end Heap

/-! ### `memory_init` of the process manager -/

/-- The number of pages of the pool that `memory_init` leaves: those of its only block, as
`alloc_mem_pages` compares them. -/
def poolPages (t : MemoryState) : ℕ :=
  match t.blist with
  | some i => toSize (t.blockNodeArray i).bPages
  | none => 0

/-- Two memory areas, given by address and size, do not overlap. -/
def Apart (x y : ℕ × ℕ) : Prop := x.1 + x.2 ≤ y.1 ∨ y.1 + y.2 ≤ x.1

/-- The node array, with 32 bytes for each entry, and the pool. -/
def arrayArea (t : MemoryState) : ℕ × ℕ := (t.blockNodeArrayAddr, t.allNodes * 32)

@[inherit_doc arrayArea]
def poolArea (t : MemoryState) : ℕ × ℕ := (t.firstFreeAddr, poolPages t * 4096)

/-- The state `t` of PM's allocator shares the memory of `memSize` bytes with the blocks of the boot
loader. -/
structure Shares (blocks : List (ℕ × ℕ)) (memSize : ℕ) (t : MemoryState) : Prop where
  blocks_apart : blocks.Pairwise Apart
  array_apart : ∀ b ∈ blocks, Apart b (arrayArea t)
  pool_apart : ∀ b ∈ blocks, Apart b (poolArea t)
  array_pool : Apart (arrayArea t) (poolArea t)
  entries : poolPages t ≤ t.allNodes
  below : t.firstFreeAddr + poolPages t * 4096 ≤ memSize
  /-- Every page that `alloc_mem_pages` returns, after any safe calls, is a page of the pool. -/
  returned : ∀ cs s n r s', Run safeStep t cs s → allocMemPages n s = .ok (r, s') → r ≠ 0 →
    t.firstFreeAddr ≤ r ∧ r % 4096 = 0 ∧ r + n * 4096 ≤ t.firstFreeAddr + poolPages t * 4096

/-- `memory_init` panics, or the memory is shared. -/
def HandedOver (blocks : List (ℕ × ℕ)) (mem : ℕ → BlockNode) (lastUsedAddr memSize : ℕ) : Prop :=
  match Savannah.memoryInit mem lastUsedAddr memSize with
  | .ok t => Shares blocks memSize t
  | .error (.panic _) => True
  | .error _ => False

/-- The size of the node array. -/
def arraySize (lastUsedAddr memSize : ℕ) : ℕ := pages (memSize - lastUsedAddr) 4096 * 32

/-- There is room: unless the array does not fit at all, some memory is left, and the address behind
the array, rounded up to a page, is still inside. -/
def Room (lastUsedAddr memSize : ℕ) : Prop :=
  lastUsedAddr + arraySize lastUsedAddr memSize ≤ memSize →
    lastUsedAddr < memSize ∧ (0 < lastUsedAddr →
      alignPage (lastUsedAddr + arraySize lastUsedAddr memSize) ≤ memSize)

section Init

variable {mem : ℕ → BlockNode} {last memSize : ℕ} {t : MemoryState}

/-- The variables after `memory_init`. -/
theorem memoryInit_fields (h : Savannah.memoryInit mem last memSize = .ok t)
    (hsize : memSize < 2 ^ 43) :
    last ≤ memSize ∧ last + arraySize last memSize ≤ memSize ∧ t.blockNodeArrayAddr = last ∧
      t.allNodes = pages (memSize - last) 4096 ∧
      t.firstFreeAddr = alignPage (last + arraySize last memSize) ∧
      poolPages t = toSize (int32 ((memSize + 2 ^ 64 - t.firstFreeAddr) % 2 ^ 64 / 4096 : ℕ)) := by
  obtain ⟨hle, s₀, s₁, hff₀, hmem₀, hfree₀, hnode, hlist⟩ := memoryInit_ok h
  obtain ⟨n, hn, hroom, hall, -, hff, hfree, -⟩ := initBlockNode_ok hnode
  have haddr := initBlockNode_addr hnode
  obtain ⟨i, -, rfl⟩ := initBlockList_ok hlist
  have hn' : n = pages (memSize - last) 4096 := by
    rw [hn, hfree₀, pages]
    simp only [ne_eq, gt_iff_lt, Nat.pos_iff_ne_zero]
  have hbound : n * 4096 < memSize - last + 4096 := by
    rw [hn']
    exact (pages_spec (memSize - last) (by norm_num)).2
  clear hn
  rw [hff₀, hmem₀, Nat.mod_eq_of_lt (by omega)] at hroom
  rw [hff₀, Nat.mod_eq_of_lt (by omega)] at hff
  unfold arraySize
  rw [← hn']
  refine ⟨hle, by omega, haddr.trans hff₀, hall, hff, ?_⟩
  unfold poolPages
  dsimp only [MemoryState.setNode]
  rw [Function.update_self, hfree, hmem₀]

/-- `memory_init` panics when the array does not fit. -/
theorem memoryInit_not_fits (mem : ℕ → BlockNode) (hsize : memSize < 2 ^ 43)
    (hfit : ¬ last + arraySize last memSize ≤ memSize) :
    ∃ p, Savannah.memoryInit mem last memSize = .error (.panic p) := by
  cases h : Savannah.memoryInit mem last memSize with
  | ok t => exact absurd (memoryInit_fields h hsize).2.1 hfit
  | error e =>
    unfold Savannah.memoryInit initBlockNode at h
    split at h
    · exact ⟨_, by cases h; rfl⟩
    · rename_i hle
      rw [arraySize, pages, Nat.add_comm] at hfit
      simp only [bind, Except.bind, ne_eq, ← Nat.pos_iff_ne_zero, gt_iff_lt] at h hfit
      rw [Nat.mod_eq_of_lt (by split_ifs <;> omega), if_pos (not_le.mp hfit)] at h
      exact ⟨_, by cases h; rfl⟩

/-- When the array fits, `memory_init` goes on with `init_block_list`. -/
theorem memoryInit_fits (mem : ℕ → BlockNode) (hsize : memSize < 2 ^ 43)
    (hfit : last + arraySize last memSize ≤ memSize) :
    ∃ s, Savannah.memoryInit mem last memSize = initBlockList s ∧
      s.allNodes = pages (memSize - last) 4096 ∧ s.firstFreeAddr % 4096 = 0 ∧
      s.blockNodeArrayLastIdx = int32 (pages (memSize - last) 4096) ∧
      s.blockNodeArrayAddr = last := by
  have hn : (memSize - last) / 4096 + (if (memSize - last) % 4096 ≠ 0 then 1 else 0) =
      pages (memSize - last) 4096 := by
    rw [pages]
    simp only [ne_eq, gt_iff_lt, Nat.pos_iff_ne_zero]
  unfold arraySize at hfit
  unfold Savannah.memoryInit initBlockNode
  rw [if_neg (by omega)]
  simp only [bind, Except.bind, hn]
  rw [Nat.mod_eq_of_lt (by omega), if_neg (by omega)]
  exact ⟨_, rfl, rfl, Nat.mul_mod_left _ _, rfl, rfl⟩

/-- `init_block_list` panics when the number of entries is a negative `int` or the array lies at
address 0. -/
theorem initBlockList_panics {s : MemoryState} (hal : s.firstFreeAddr % 4096 = 0)
    (hpos : 0 < s.allNodes) (hbad : s.blockNodeArrayLastIdx < 0 ∨ s.blockNodeArrayAddr = 0) :
    ∃ p, initBlockList s = .error (.panic p) := by
  have hzero : int32 ((0 : ℕ) : ℤ) = 0 := int32_of_lt (by norm_num)
  unfold initBlockList allocBlockNode blockIndex
  simp only [hal, ne_eq, not_true_eq_false, if_false, lt_irrefl, Nat.sub_self, Nat.zero_div, hzero,
    bind, Except.bind, gt_iff_lt]
  by_cases hidx : s.blockNodeArrayLastIdx < 0
  · simp only [hidx, if_true]
    exact ⟨_, rfl⟩
  · have hin : (0 : ℤ) ≤ 0 ∧ (0 : ℤ) < s.allNodes := ⟨le_rfl, by exact_mod_cast hpos⟩
    have haddr : s.blockNodeArrayAddr = 0 := hbad.resolve_left hidx
    simp only [hidx, if_false, hin, and_self, if_true, Int.toNat_zero, haddr]
    by_cases href : 0 < (s.blockNodeArray 0).bRef
    · simp only [href, if_true]
      exact ⟨_, rfl⟩
    · simp only [href, if_false, Nat.zero_mul, Nat.add_zero, if_true]
      exact ⟨_, rfl⟩

/-- Without an entry `init_block_list` leaves the array. -/
theorem initBlockList_outside {s : MemoryState} (hal : s.firstFreeAddr % 4096 = 0)
    (hnone : s.allNodes = 0) (hidx : s.blockNodeArrayLastIdx = 0) :
    initBlockList s = .error (.outOfBounds 0) := by
  have hzero : int32 ((0 : ℕ) : ℤ) = 0 := int32_of_lt (by norm_num)
  unfold initBlockList allocBlockNode blockIndex
  simp only [hal, ne_eq, not_true_eq_false, if_false, lt_irrefl, Nat.sub_self, Nat.zero_div, hzero,
    bind, Except.bind, gt_iff_lt]
  simp only [hidx, hnone, Nat.cast_zero, lt_irrefl, and_false, if_false]

/-- The pool behind a successful `memory_init`, if its first address is inside the memory. -/
theorem poolPages_eq (h : Savannah.memoryInit mem last memSize = .ok t) (hsize : memSize < 2 ^ 43)
    (hff : t.firstFreeAddr ≤ memSize) : poolPages t = (memSize - t.firstFreeAddr) / 4096 := by
  have hfresh := memoryInit_fresh h hsize hff
  unfold poolPages
  rw [hfresh.blist]
  dsimp only
  rw [hfresh.node]
  exact toSize_natCast (by omega)

/-- The pages that `alloc_mem_pages` returns belong to the pool. -/
theorem returned_of_init (h : Savannah.memoryInit mem last memSize = .ok t)
    (hsize : memSize < 2 ^ 43)
    (hff : t.firstFreeAddr ≤ memSize) {cs : List MemoryCall} {s s' : MemoryState} {n r : ℕ}
    (hrun : Run safeStep t cs s) (hr : allocMemPages n s = .ok (r, s')) (hne : r ≠ 0) :
    t.firstFreeAddr ≤ r ∧ r % 4096 = 0 ∧ r + n * 4096 ≤ t.firstFreeAddr + poolPages t * 4096 := by
  rw [poolPages_eq h hsize hff]
  by_cases hpage : t.firstFreeAddr + 4096 ≤ memSize
  · obtain ⟨hlay, L, hinv⟩ := (memoryInit_inv h hsize hpage).run hrun
    obtain ⟨S, hled⟩ := hinv.exists_ledger
    have hn : 0 < n := by
      refine Nat.pos_of_ne_zero ?_
      rintro rfl
      exact hne (Prod.mk.inj (Except.ok.inj hr)).1.symm
    rcases hled.alloc hn with hfail | ⟨a, m', hok, -, hlay', hled', -⟩
    · rw [hfail] at hr
      exact absurd (Prod.mk.inj (Except.ok.inj hr)).1.symm hne
    · rw [hok] at hr
      obtain ⟨rfl, rfl⟩ := Prod.mk.inj (Except.ok.inj hr)
      obtain ⟨-, h₁, -, h₂, h₃, -⟩ :=
        hled'.addr (Multiset.mem_add.mpr (Or.inl (Multiset.mem_cons_self _ _)))
      rw [hlay'.firstFree, hlay.firstFree] at h₁ h₃
      exact ⟨h₁, h₂, h₃⟩
  · -- a pool without pages
    have hfresh := memoryInit_fresh h hsize hff
    rw [Nat.div_eq_of_lt (by omega)] at hfresh
    obtain rfl : s = t := hrun.invariant (I := fun s => s = t)
      (fun s c u hstep hs => (FreshPool.step_empty (hs ▸ hfresh) hstep.2).trans hs) rfl
    rw [hfresh.allocMemPages_empty] at hr
    exact absurd (Prod.mk.inj (Except.ok.inj hr)).1.symm hne

end Init

/-! ### The handover -/

section Handover

variable {mem : ℕ → BlockNode} {lastByte kb : ℕ} {cs : List (HeapCall × ℕ)} {h : Heap}

/-- The memory is shared exactly if the pool begins inside the memory. -/
theorem shares_iff {t : MemoryState} {h₀ : Heap} (hrun : Run Served h₀ cs h)
    (hsize : h.memorySize < 2 ^ 43) (hsize₀ : h₀.memorySize < 2 ^ 43)
    (hinit : Savannah.memoryInit mem h.firstFreeAddr h.memorySize = .ok t) :
    Shares (cs.map block) h.memorySize t ↔ t.firstFreeAddr ≤ h.memorySize := by
  refine ⟨fun hs => (Nat.le_add_right _ _).trans hs.below, fun hff => ?_⟩
  obtain ⟨-, hpair, hbelow⟩ := served_blocks hrun hsize₀
  obtain ⟨-, hfit, haddr, hall, hpool, -⟩ := memoryInit_fields hinit hsize
  have hfirst : h.firstFreeAddr + arraySize h.firstFreeAddr h.memorySize ≤ t.firstFreeAddr := by
    rw [hpool]
    exact (alignPage_spec (by omega)).1
  have hfirst' : t.blockNodeArrayAddr + t.allNodes * 32 ≤ t.firstFreeAddr := by
    rw [haddr, hall]
    exact hfirst
  have hfresh := memoryInit_fresh hinit hsize hff
  have hpages := poolPages_eq hinit hsize hff
  refine ⟨hpair.imp fun hle => Or.inl hle, fun b hb => Or.inl ?_, fun b hb => Or.inl ?_,
    Or.inl hfirst', ?_, ?_, ?_⟩
  · exact (hbelow b hb).trans haddr.ge
  · exact (hbelow b hb).trans ((Nat.le_add_right _ _).trans hfirst)
  · rw [hpages]
    exact hfresh.pool_le
  · rw [hpages]
    have := Nat.div_mul_le_self (h.memorySize - t.firstFreeAddr) 4096
    omega
  · intro cs s n r s' hrun' hr hne
    exact returned_of_init hinit hsize hff hrun' hr hne

/-- The outcome when the array fits, given when the memory is shared. -/
theorem handedOver_of_fits {blocks : List (ℕ × ℕ)} {last memSize : ℕ} (hsize : memSize < 2 ^ 43)
    (hfit : last + arraySize last memSize ≤ memSize)
    (hshares : ∀ t, Savannah.memoryInit mem last memSize = .ok t →
      (Shares blocks memSize t ↔ t.firstFreeAddr ≤ memSize)) :
    HandedOver blocks mem last memSize ↔ last < memSize ∧
      (0 < last → alignPage (last + arraySize last memSize) ≤ memSize) := by
  obtain ⟨s, hs, hnodes, hal, hidx, haddr⟩ := memoryInit_fits mem hsize hfit
  obtain ⟨hlow, hhigh⟩ := pages_spec (memSize - last) (show 0 < 4096 by norm_num)
  unfold arraySize at hfit ⊢
  rcases Nat.eq_or_lt_of_le (show last ≤ memSize by omega) with heq | hlt
  · -- no byte is left for the array
    have hzero : pages (memSize - last) 4096 = 0 := by rw [heq, Nat.sub_self]; rfl
    rw [hzero] at hnodes hidx
    rw [Nat.cast_zero, int32_of_mem (by norm_num) (by norm_num)] at hidx
    refine iff_of_false ?_ fun hr => absurd heq hr.1.ne
    unfold HandedOver
    rw [hs, initBlockList_outside hal hnodes hidx]
    exact id
  generalize hn : pages (memSize - last) 4096 = n at *
  by_cases hbad : s.blockNodeArrayLastIdx < 0 ∨ s.blockNodeArrayAddr = 0
  · obtain ⟨p, hp⟩ := initBlockList_panics hal (by omega) hbad
    refine iff_of_true ?_ ⟨hlt, fun hpos => ?_⟩
    · unfold HandedOver
      rw [hs, hp]
      trivial
    · -- so many entries that they are a negative `int`: there is plenty of room
      have hmany : ¬ n < 2 ^ 31 := fun hlt' => by
        rw [hidx, int32_of_lt hlt', haddr] at hbad
        omega
      have := (alignPage_spec (a := last + n * 32) (by omega)).2.1
      omega
  · push Not at hbad
    have hlt' : n < 2 ^ 31 := by
      refine lt_of_le_of_ne (by omega) fun heq => ?_
      rw [hidx, heq, Nat.cast_pow, Nat.cast_ofNat, int32_two_pow] at hbad
      exact absurd hbad.1 (by norm_num)
    have hn' : n = (memSize - last) / 4096 + (if (memSize - last) % 4096 ≠ 0 then 1 else 0) := by
      rw [← hn, pages]
      simp only [ne_eq, gt_iff_lt, Nat.pos_iff_ne_zero]
    have hpos : 0 < last := Nat.pos_of_ne_zero (haddr ▸ hbad.2)
    obtain ⟨t, ht, hff⟩ := memoryInit_returns mem hpos hlt.le hn' (by omega) hlt' (by omega) hsize
    have hiff := hshares t ht
    unfold HandedOver
    rw [ht]
    dsimp only
    rw [hiff, hff]
    exact ⟨fun hle => ⟨hlt, fun _ => hle⟩, fun hr => hr.2 hpos⟩

/-- The handover works exactly if there is room, for memories below 8TB. -/
theorem handedOver_iff (hsize : (Heap.init lastByte kb).memorySize < 2 ^ 43)
    (hrun : Run Served (Heap.init lastByte kb) cs h) :
    HandedOver (cs.map block) mem h.firstFreeAddr h.memorySize ↔
      Room h.firstFreeAddr h.memorySize := by
  have hm : h.memorySize < 2 ^ 43 := by
    rw [(served_blocks hrun hsize).1]
    exact hsize
  by_cases hfit : h.firstFreeAddr + arraySize h.firstFreeAddr h.memorySize ≤ h.memorySize
  · rw [handedOver_of_fits hm hfit fun t ht => shares_iff hrun hm hsize ht]
    exact ⟨fun hr _ => hr, fun hr => hr hfit⟩
  · obtain ⟨p, hp⟩ := memoryInit_not_fits mem hm hfit
    refine iff_of_true ?_ fun hcon => absurd hcon hfit
    unfold HandedOver
    rw [hp]
    trivial

/-- One block of 256 bytes in a memory of 64KB: the node array and the pool follow it. -/
theorem handedOver_iff_64KB : ∃ h, Run Served (Heap.init 0x5000 64) [(.malloc 256, 0x5000)] h ∧
    h.firstFreeAddr + arraySize h.firstFreeAddr h.memorySize ≤ h.memorySize ∧
    Room h.firstFreeAddr h.memorySize ∧
    HandedOver [(0x5000, 256)] (fun _ => default) h.firstFreeAddr h.memorySize := by
  have hrun : Run Served (Heap.init 0x5000 64) [(.malloc 256, 0x5000)] ⟨65536, 0x5100⟩ :=
    .cons ⟨by decide, by decide, by decide⟩ (.nil _)
  have hroom : Room 0x5100 65536 := fun _ => ⟨by decide, fun _ => by decide⟩
  have hiff : HandedOver [(0x5000, 256)] (fun _ => default) 0x5100 65536 ↔ Room 0x5100 65536 :=
    handedOver_iff (by decide) hrun
  exact ⟨_, hrun, by decide, hroom, hiff.mpr hroom⟩

/-- The same block in a memory of 21KB: the pool begins behind the end of the memory, and its size
has wrapped. -/
theorem not_handedOver_21KB : ∃ h, Run Served (Heap.init 0x5000 21) [(.malloc 256, 0x5000)] h ∧
    ∃ t, Savannah.memoryInit (fun _ => default) h.firstFreeAddr h.memorySize = .ok t ∧
      h.memorySize = 0x5400 ∧ t.firstFreeAddr = 0x6000 ∧ poolPages t = 2 ^ 64 - 1 ∧
      ¬ HandedOver [(0x5000, 256)] (fun _ => default) h.firstFreeAddr h.memorySize := by
  have hrun : Run Served (Heap.init 0x5000 21) [(.malloc 256, 0x5000)] ⟨0x5400, 0x5100⟩ :=
    .cons ⟨by decide +kernel, by decide, by decide⟩ (.nil _)
  obtain ⟨t, ht, hff⟩ : ∃ t, Savannah.memoryInit (fun _ => default) 0x5100 0x5400 = .ok t ∧
      t.firstFreeAddr = alignPage (0x5100 + 1 * 32) :=
    memoryInit_returns _ (by norm_num) (by norm_num) (by norm_num) (by norm_num) (by norm_num)
      (by norm_num) (by norm_num)
  have hff' : t.firstFreeAddr = 0x6000 := hff.trans (by decide)
  refine ⟨_, hrun, t, ht, rfl, hff', ?_, fun hcon => ?_⟩
  · rw [(memoryInit_fields ht (by norm_num)).2.2.2.2.2, hff']
    decide +kernel
  · unfold HandedOver at hcon
    rw [ht] at hcon
    have hbelow := hcon.below
    rw [hff'] at hbelow
    dsimp only at hbelow
    omega

end Handover

end Savannah.Stage2
