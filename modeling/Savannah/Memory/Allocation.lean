import Savannah.Memory.Invariant

/-!
# Soundness and completeness of allocation

`alloc_mem_pages (n)` fails only when no `n` contiguous pages of the pool are free, and otherwise
returns the lowest address where such a run starts, without touching the live blocks.  Completeness
rests on the coalescing part of the invariant: a run of free pages lies inside one free block, so
that a search over the blocks finds it.

A page is free when no node with a positive count covers it; this reads the node array only, not the
abstract block list.
-/

namespace Savannah

open Foundation MemoryState

namespace MemoryState

/-- The entry `i` is the node of a block with references. -/
def LiveNode (s : MemoryState) (i : ℕ) : Prop :=
  i < s.allNodes ∧ 0 < (s.blockNodeArray i).bRef

/-- The address `addr` lies in the block of the node `i`. -/
def NodeHas (s : MemoryState) (i addr : ℕ) : Prop :=
  (s.blockNodeArray i).bStartAddr ≤ addr ∧
    (addr : ℤ) < (s.blockNodeArray i).bStartAddr + (s.blockNodeArray i).bPages * 4096

/-- `addr` is the address of a page of the pool, which ends at `memSize`, in no live block. -/
def FreePageAt (s : MemoryState) (memSize addr : ℕ) : Prop :=
  s.firstFreeAddr ≤ addr ∧ addr % 4096 = 0 ∧ addr + 4096 ≤ memSize ∧
    ∀ i, s.LiveNode i → ¬ s.NodeHas i addr

/-- `n` contiguous free pages start at `addr`. -/
def FreeRunAt (s : MemoryState) (memSize addr n : ℕ) : Prop :=
  ∀ k < n, s.FreePageAt memSize (addr + k * 4096)

end MemoryState

/-! ### Free pages of the array and of the block list -/

section Correspondence

variable {s : MemoryState} {pool memSize n : ℕ} {L : List Block}

/-- The nodes in use are the live blocks. -/
theorem MemoryInv.liveNode_iff (h : MemoryInv s pool L) {i : ℕ} :
    s.LiveNode i ↔ ∃ b, Live L b ∧ b.start = i := by
  constructor
  · rintro ⟨hi, href⟩
    obtain ⟨b, hb, hbi, -⟩ := h.exists_live hi href.ne'
    exact ⟨b, hb, hbi⟩
  · rintro ⟨b, hb, rfl⟩
    refine ⟨(h.start_lt hb.1).trans_le h.layout.pool_le, ?_⟩
    rw [h.rep.ref b hb.1]
    exact hb.2

/-- An address of the pool lies in the block of a node iff its page does. -/
theorem MemoryInv.nodeHas_iff (h : MemoryInv s pool L) {b : Block} (hb : b ∈ L) {addr : ℕ}
    (haddr : s.firstFreeAddr ≤ addr) :
    s.NodeHas b.start addr ↔ b.Has ((addr - s.firstFreeAddr) / 4096) := by
  unfold NodeHas Block.Has Block.stop
  rw [h.rep.addr b hb, h.rep.pages b hb]
  omega

/-- The free pages are those of the list. -/
theorem MemoryInv.freePageAt_iff (h : MemoryInv s pool L)
    (hpool : pool = (memSize - s.firstFreeAddr) / 4096) {p : ℕ} :
    s.FreePageAt memSize (s.firstFreeAddr + p * 4096) ↔ p < pool ∧ FreePage L p := by
  have haligned := h.layout.aligned
  have hpos := h.layout.pool_pos
  have hpage : (s.firstFreeAddr + p * 4096 - s.firstFreeAddr) / 4096 = p := by omega
  have hin : p < pool ↔ s.firstFreeAddr + p * 4096 + 4096 ≤ memSize := by omega
  constructor
  · rintro ⟨-, -, hstop, hfree⟩
    refine ⟨hin.mpr hstop, (freePage_iff h.tiles p.zero_le (hin.mpr hstop)).mpr ?_⟩
    rintro ⟨b, hb, hbp⟩
    refine hfree b.start (h.liveNode_iff.mpr ⟨b, hb, rfl⟩) ?_
    rwa [h.nodeHas_iff hb.1 (by omega), hpage]
  · rintro ⟨hp, hfree⟩
    refine ⟨by omega, by omega, hin.mp hp, fun i hi hhas => ?_⟩
    obtain ⟨b, hb, rfl⟩ := h.liveNode_iff.mp hi
    rw [h.nodeHas_iff hb.1 (by omega), hpage] at hhas
    exact (freePage_iff h.tiles p.zero_le hp).mp hfree ⟨b, hb, hhas⟩

/-- The free runs are those of the list. -/
theorem MemoryInv.freeRunAt_iff (h : MemoryInv s pool L)
    (hpool : pool = (memSize - s.firstFreeAddr) / 4096) (hn : 0 < n) {addr : ℕ} :
    s.FreeRunAt memSize addr n ↔ ∃ p, addr = s.firstFreeAddr + p * 4096 ∧ FreeRun L p n := by
  have haligned := h.layout.aligned
  have hshift : ∀ p k, s.firstFreeAddr + p * 4096 + k * 4096 =
      s.firstFreeAddr + (p + k) * 4096 := fun p k => by ring
  constructor
  · intro hrun
    obtain ⟨hlo, hal, -⟩ := hrun 0 hn
    obtain ⟨p, rfl⟩ : ∃ p, addr = s.firstFreeAddr + p * 4096 :=
      ⟨(addr - s.firstFreeAddr) / 4096, by omega⟩
    refine ⟨p, rfl, fun k hk => ?_⟩
    have hfree := hrun k hk
    rw [hshift, h.freePageAt_iff hpool] at hfree
    exact hfree.2
  · rintro ⟨p, rfl, hrun⟩ k hk
    rw [hshift, h.freePageAt_iff hpool]
    obtain ⟨b, hb, hfree, hbp⟩ := hrun k hk
    exact ⟨hbp.2.trans_le (h.tiles.mem hb).2.2, b, hb, hfree, hbp⟩

/-- A live block of both lists has the same node data before and after. -/
theorem MemoryInv.node_congr {s' : MemoryState} {L' : List Block} (h : MemoryInv s pool L)
    (h' : MemoryInv s' pool L') (hff : s'.firstFreeAddr = s.firstFreeAddr) {b : Block}
    (hb : b ∈ L) (hb' : b ∈ L') :
    (s'.blockNodeArray b.start).bStartAddr = (s.blockNodeArray b.start).bStartAddr ∧
      (s'.blockNodeArray b.start).bPages = (s.blockNodeArray b.start).bPages ∧
      (s'.blockNodeArray b.start).bRef = (s.blockNodeArray b.start).bRef := by
  rw [h.rep.addr b hb, h'.rep.addr b hb', h.rep.pages b hb, h'.rep.pages b hb', h.rep.ref b hb,
    h'.rep.ref b hb', hff]
  exact ⟨rfl, rfl, rfl⟩

end Correspondence

/-- What the specification of `alloc_mem_pages` promises of the result `r` and the state `s'`. -/
structure AllocSpec (memSize n : ℕ) (s : MemoryState) (r : ℕ) (s' : MemoryState) : Prop where
  fails_iff : r = 0 ↔ n = 0 ∨ ¬ ∃ a, s.FreeRunAt memSize a n
  free : r ≠ 0 → s.FreeRunAt memSize r n
  lowest : r ≠ 0 → ∀ a, s.FreeRunAt memSize a n → r ≤ a
  inside : r ≠ 0 → s.firstFreeAddr ≤ r ∧ r + n * 4096 ≤ memSize
  disjoint : r ≠ 0 → ∀ i, s.LiveNode i → ∀ addr, r ≤ addr → addr < r + n * 4096 →
    ¬ s.NodeHas i addr
  keeps : ∀ i, s.LiveNode i → s'.LiveNode i ∧
    (s'.blockNodeArray i).bStartAddr = (s.blockNodeArray i).bStartAddr ∧
    (s'.blockNodeArray i).bPages = (s.blockNodeArray i).bPages ∧
    (s'.blockNodeArray i).bRef = (s.blockNodeArray i).bRef

/-- A call that fails and changes nothing meets the specification if no run is free. -/
theorem AllocSpec.failed {memSize n : ℕ} {s : MemoryState}
    (h : n = 0 ∨ ¬ ∃ a, s.FreeRunAt memSize a n) : AllocSpec memSize n s 0 s :=
  ⟨⟨fun _ => h, fun _ => rfl⟩, fun h => absurd rfl h, fun h => absurd rfl h, fun h => absurd rfl h,
    fun h => absurd rfl h, fun _ hi => ⟨hi, rfl, rfl, rfl⟩⟩

/-- `alloc_mem_pages` meets its specification in every state with the invariant. -/
theorem MemoryInv.allocSpec {s : MemoryState} {pool memSize : ℕ} {L : List Block}
    (h : MemoryInv s pool L) (hpool : pool = (memSize - s.firstFreeAddr) / 4096) (n : ℕ) :
    ∃ r s', allocMemPages n s = .ok (r, s') ∧ AllocSpec memSize n s r s' := by
  rcases Nat.eq_zero_or_pos n with rfl | hn
  · exact ⟨0, s, rfl, .failed (Or.inl rfl)⟩
  rcases allocMemPages_eq h hn with ⟨hnone, hs⟩ | ⟨a, L', s', hsome, hs, hlay, h'⟩
  · refine ⟨0, s, hs, .failed (Or.inr ?_)⟩
    rintro ⟨addr, hrun⟩
    obtain ⟨p, -, hp⟩ := (h.freeRunAt_iff hpool hn).mp hrun
    exact (allocate_eq_none_iff h.tiles h.coalesced hn).mp hnone ⟨p, hp⟩
  · obtain ⟨hfree, hlow⟩ := allocate_lowest h.tiles h.coalesced hn hsome
    have hrun := (h.freeRunAt_iff hpool hn).mpr ⟨a, rfl, hfree⟩
    have hpos : s.firstFreeAddr + a * 4096 ≠ 0 := by
      have := h.layout.firstFree_pos
      omega
    refine ⟨_, s', hs, ⟨⟨fun h0 => absurd h0 hpos, ?_⟩, fun _ => hrun, fun _ => ?_, fun _ => ?_,
      fun _ => ?_, fun i hi => ?_⟩⟩
    · rintro (h0 | hnone)
      · omega
      · exact absurd ⟨_, hrun⟩ hnone
    · intro addr haddr
      obtain ⟨p, rfl, hp⟩ := (h.freeRunAt_iff hpool hn).mp haddr
      have := hlow p hp
      omega
    · have hlast := (hrun (n - 1) (by omega)).2.2.1
      exact ⟨by omega, by omega⟩
    · intro i hi addr hlo hhi hhas
      -- the page of the address is one of the free pages of the run
      have hpage := (hrun ((addr - (s.firstFreeAddr + a * 4096)) / 4096) (by omega)).2.2.2 i hi
      obtain ⟨b, hb, rfl⟩ := h.liveNode_iff.mp hi
      rw [h.nodeHas_iff hb.1 (by omega)] at hhas hpage
      refine hpage ?_
      have hsame : (s.firstFreeAddr + a * 4096 +
          (addr - (s.firstFreeAddr + a * 4096)) / 4096 * 4096 - s.firstFreeAddr) / 4096 =
          (addr - s.firstFreeAddr) / 4096 := by omega
      rwa [hsame]
    · obtain ⟨b, hb, rfl⟩ := h.liveNode_iff.mp hi
      have hb' := (allocate_live hsome).mpr (Or.inl hb)
      exact ⟨h'.liveNode_iff.mpr ⟨b, hb', rfl⟩,
        h.node_congr h' hlay.firstFree hb.1 hb'.1⟩

/-! ### A pool without pages -/

section Empty

variable {s s' : MemoryState} {c : MemoryCall} {memSize n : ℕ}

/-- Without pages the list is one empty block, which no request fits. -/
theorem FreshPool.allocMemPages_empty (h : FreshPool s 0) (n : ℕ) :
    allocMemPages n s = .ok (0, s) := by
  unfold allocMemPages
  split
  · rfl
  · rename_i hn
    rw [h.blist, allocLoop, h.node]
    have hsize : toSize ((0 : ℕ) : ℤ) = 0 := toSize_natCast (by norm_num)
    dsimp only
    rw [if_pos (Or.inr (by rw [hsize]; omega)), allocLoop]

/-- No call changes a pool without pages. -/
theorem FreshPool.step_empty (h : FreshPool s 0) (hstep : memoryStep s c s') : s' = s := by
  obtain ⟨r, hr⟩ := hstep
  have hdead : ∀ {paddr i}, blockIndex s paddr = .ok i → (s.blockNodeArray i).bRef = 0 :=
    fun hi => h.ref _ (blockIndex_lt hi)
  cases c with
  | alloc n =>
    rw [MemoryCall.exec, h.allocMemPages_empty] at hr
    injection hr with hr
    injection hr with _ hr
    exact hr.symm
  | realloc paddr =>
    cases hi : blockIndex s paddr with
    | error e => simp [MemoryCall.exec, reallocMemBlock, hi, bind, Except.bind] at hr
    | ok i => simp [MemoryCall.exec, reallocMemBlock, hi, bind, Except.bind, hdead hi] at hr
  | free paddr =>
    cases hi : blockIndex s paddr with
    | error e => simp [MemoryCall.exec, freeMemPages, hi, bind, Except.bind, Except.map] at hr
    | ok i =>
      simp [MemoryCall.exec, freeMemPages, hi, bind, Except.bind, Except.map, hdead hi] at hr

/-- The specification for an empty pool. -/
theorem FreshPool.allocSpec_empty (h : FreshPool s 0) (hsize : memSize < s.firstFreeAddr + 4096)
    (n : ℕ) : ∃ r s', allocMemPages n s = .ok (r, s') ∧ AllocSpec memSize n s r s' := by
  refine ⟨0, s, h.allocMemPages_empty n, .failed ?_⟩
  rcases Nat.eq_zero_or_pos n with hn | hn
  · exact Or.inl hn
  · refine Or.inr ?_
    rintro ⟨a, ha⟩
    obtain ⟨h₁, -, h₂, -⟩ := ha 0 hn
    omega

end Empty

/-! ### The main result -/

section Result

variable {mem : ℕ → BlockNode} {last memSize : ℕ} {s₀ s : MemoryState} {cs : List MemoryCall}

/-- In every state that safe calls reach from `memory_init`, `alloc_mem_pages` finds the lowest run
of free pages, whatever the request. -/
theorem allocSpec_of_run (hinit : memoryInit mem last memSize = .ok s₀) (hsize : memSize < 2 ^ 43)
    (hpool : s₀.firstFreeAddr ≤ memSize) (hrun : Run safeStep s₀ cs s) (n : ℕ) :
    ∃ r s', allocMemPages n s = .ok (r, s') ∧ AllocSpec memSize n s r s' := by
  by_cases hpage : s₀.firstFreeAddr + 4096 ≤ memSize
  · obtain ⟨hlay, L, hinv⟩ := (memoryInit_inv hinit hsize hpage).run hrun
    exact hinv.allocSpec (by rw [hlay.firstFree]) n
  · have hfresh := memoryInit_fresh hinit hsize hpool
    rw [Nat.div_eq_of_lt (by omega)] at hfresh
    obtain rfl : s = s₀ := hrun.invariant (I := fun s => s = s₀)
      (fun s c t hstep hs => (FreshPool.step_empty (hs ▸ hfresh) hstep.2).trans hs) rfl
    exact hfresh.allocSpec_empty (by omega) n

theorem allocSpec_of_run_alloc : ∃ s₀ s,
    memoryInit (fun _ => default) 4096 16384 = .ok s₀ ∧ Run safeStep s₀ [.alloc 1] s ∧
      ∃ r s', allocMemPages 1 s = .ok (r, s') ∧ AllocSpec 16384 1 s r s' := by
  obtain ⟨s₀, hinit, hff, hinv⟩ := memoryInit_two
  obtain ⟨s, hstep, -⟩ := alloc_two hinv
  have hrun : Run safeStep s₀ [.alloc 1] s := .cons ⟨trivial, _, hstep⟩ (.nil s)
  exact ⟨s₀, s, hinit, hrun, allocSpec_of_run hinit (by norm_num) (by rw [hff]; norm_num) hrun 1⟩

/-- After the count of a block has wrapped, both pages of the pool are free but in separate blocks,
and a request for two pages fails. -/
theorem allocSpec_wrapped : ∃ s₀ s, memoryInit (fun _ => default) 4096 16384 = .ok s₀ ∧
    Run memoryStep s₀ (.alloc 1 :: List.replicate (2 ^ 32 - 1) (.realloc 8192)) s ∧
    s.FreeRunAt 16384 8192 2 ∧ allocMemPages 2 s = .ok (0, s) ∧
    ¬ ∃ r s', allocMemPages 2 s = .ok (r, s') ∧ AllocSpec 16384 2 s r s' := by
  obtain ⟨s₀, s, hinit, -, hrun, hff, hpos, hblist, hnode₀, hnode₁, href⟩ := exists_wrapped
  have hfree : s.FreeRunAt 16384 8192 2 := by
    intro k hk
    refine ⟨by omega, by omega, by omega, fun i hi => ?_⟩
    exact absurd (href i hi.1) hi.2.ne'
  have hone : toSize 1 < 2 := by decide
  have halloc : allocMemPages 2 s = .ok (0, s) := by
    obtain ⟨m, hm⟩ : ∃ m, s.allNodes = m + 1 := ⟨s.allNodes - 1, by omega⟩
    rw [allocMemPages, if_neg (by norm_num), hblist, hm, allocLoop, hnode₀]
    dsimp only
    rw [if_pos (Or.inr hone), allocLoop, hnode₁]
    dsimp only
    rw [if_pos (Or.inr hone), allocLoop]
  refine ⟨s₀, s, hinit, hrun, hfree, halloc, ?_⟩
  rintro ⟨r, s', hr, hspec⟩
  rw [halloc] at hr
  injection hr with hr
  injection hr with hr _
  rcases hspec.fails_iff.mp hr.symm with h | h
  · exact absurd h (by norm_num)
  · exact h ⟨8192, hfree⟩

end Result

end Savannah
