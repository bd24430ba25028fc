import Savannah.Memory.Refinement

/-!
# The representation invariant of the page allocator

`BlockListInv s memSize nodes` spells out what the functions of `vms/pm/memory.c` rely on: the nodes
reached from `blist` along `next` are `nodes`, in increasing address order and linked both ways;
each is the array entry of its own block; the blocks are non-empty, touch, and cover the pool; no
two neighbours are free; every entry off the list has `b_ref = 0`.

`memory_init` establishes it (`memoryInit_inv`) and every call keeps it, with two exceptions that
`MemoryCall.Safe` excludes: the reference count of a block is a `uint32_t` that `realloc_mem_block`
increments without a check, and the bound on the block index lets through an index outside the
array.
-/

namespace Savannah

open Foundation MemoryState

/-- The invariant of the block list of a pool that ends at `memSize`. -/
structure BlockListInv (s : MemoryState) (memSize : ℕ) (nodes : List ℕ) : Prop where
  head : s.blist = nodes.head?
  next : ∀ k i, nodes[k]? = some i → (s.blockNodeArray i).next = nodes[k + 1]?
  preHead : ∀ i, nodes.head? = some i → (s.blockNodeArray i).pre = none
  pre : ∀ k i, nodes[k + 1]? = some i → (s.blockNodeArray i).pre = nodes[k]?
  own : ∀ i ∈ nodes, i < s.allNodes ∧
    (s.blockNodeArray i).bStartAddr = s.firstFreeAddr + i * 4096
  sorted : nodes.Pairwise fun i j =>
    (s.blockNodeArray i).bStartAddr < (s.blockNodeArray j).bStartAddr
  pages_pos : ∀ i ∈ nodes, 0 < (s.blockNodeArray i).bPages
  contiguous : nodes.IsChain fun i j =>
    (s.blockNodeArray i).bStartAddr + (s.blockNodeArray i).bPages * 4096 =
      ((s.blockNodeArray j).bStartAddr : ℤ)
  first : nodes.head?.map (fun i => (s.blockNodeArray i).bStartAddr) = some s.firstFreeAddr
  covers : (nodes.map fun i => (s.blockNodeArray i).bPages).sum =
    ((memSize - s.firstFreeAddr) / 4096 : ℕ)
  coalesced : nodes.IsChain fun i j =>
    ¬ ((s.blockNodeArray i).bRef = 0 ∧ (s.blockNodeArray j).bRef = 0)
  stale : ∀ i < s.allNodes, i ∉ nodes → (s.blockNodeArray i).bRef = 0

/-! ### The abstract invariant implies the concrete one -/

section Concrete

variable {s : MemoryState} {pool memSize : ℕ} {L : List Block}

/-- The invariant in the words of the array. -/
theorem MemoryInv.blockListInv (h : MemoryInv s pool L)
    (hpool : pool = (memSize - s.firstFreeAddr) / 4096) :
    BlockListInv s memSize (L.map Block.start) := by
  have hlinks := h.rep.links
  have hne : L ≠ [] := by
    rintro rfl
    exact h.layout.pool_pos.ne h.tiles
  obtain ⟨b₀, L₀, hcons⟩ := List.exists_cons_of_ne_nil hne
  have hb₀ : b₀ ∈ L := hcons ▸ List.mem_cons_self
  constructor
  · exact h.rep.blist
  · exact fun k i hk => hlinks.next_getElem? hk
  · intro i hi
    rw [hcons] at hlinks hi
    obtain rfl : b₀.start = i := by simpa using hi
    exact hlinks.1
  · exact fun k i hk => hlinks.pre_getElem? hk
  · intro i hi
    obtain ⟨b, hb, rfl⟩ := List.mem_map.mp hi
    exact ⟨(h.start_lt hb).trans_le h.layout.pool_le, h.rep.addr b hb⟩
  · rw [List.pairwise_map]
    refine h.tiles.pairwise.imp_of_mem fun {b c} hb hc hbc => ?_
    have hpos := (h.tiles.mem hb).2.1
    rw [h.rep.addr b hb, h.rep.addr c hc]
    simp only [Block.stop] at hbc
    omega
  · intro i hi
    obtain ⟨b, hb, rfl⟩ := List.mem_map.mp hi
    have hpos := (h.tiles.mem hb).2.1
    rw [h.rep.pages b hb]
    exact_mod_cast hpos
  · rw [List.isChain_map]
    refine h.tiles.isChain.imp_of_mem_imp fun b c hb hc hbc => ?_
    rw [h.rep.addr b hb, h.rep.addr c hc, h.rep.pages b hb, ← hbc]
    simp only [Block.stop]
    push_cast
    ring
  · have hstart : b₀.start = 0 := by
      have htiles := h.tiles
      rw [hcons] at htiles
      exact htiles.1
    have haddr := h.rep.addr b₀ hb₀
    rw [hcons, List.map_cons, List.head?_cons, Option.map_some, haddr, hstart, Nat.zero_mul,
      Nat.add_zero]
  · have hmap : (L.map fun b => (s.blockNodeArray b.start).bPages) =
        L.map fun b => (b.pages : ℤ) := List.map_congr_left fun b hb => h.rep.pages b hb
    have hsum := h.tiles.sum_pages
    rw [Nat.zero_add] at hsum
    rw [List.map_map, ← hpool, ← hsum, Nat.cast_list_sum, List.map_map]
    exact congrArg List.sum hmap
  · rw [List.isChain_map]
    refine h.coalesced.imp_of_mem_imp fun b c hb hc hbc => ?_
    rw [h.rep.ref b hb, h.rep.ref c hc]
    exact hbc
  · exact h.rep.stale

end Concrete

/-! ### Initialisation -/

section Init

variable {mem : ℕ → BlockNode} {last memSize : ℕ} {s t : MemoryState}

/-- The variables after `init_block_node`. -/
theorem initBlockNode_ok (h : initBlockNode s = .ok t) :
    ∃ n, n = s.availableFreeMemory / 4096 + (if s.availableFreeMemory % 4096 ≠ 0 then 1 else 0) ∧
      (n * 32 + s.firstFreeAddr) % 2 ^ 64 ≤ s.availableMemory ∧ t.allNodes = n ∧
      t.blockNodeArrayLastIdx = int32 n ∧
      t.firstFreeAddr = alignPage ((s.firstFreeAddr + n * 32) % 2 ^ 64) ∧
      t.availableFreeMemory = (s.availableMemory + 2 ^ 64 - t.firstFreeAddr) % 2 ^ 64 ∧
      ∀ i : ℕ, (i : ℤ) < int32 n → (t.blockNodeArray i).bRef = 0 := by
  unfold initBlockNode at h
  generalize hn : s.availableFreeMemory / 4096 +
    (if s.availableFreeMemory % 4096 ≠ 0 then 1 else 0) = n at h ⊢
  dsimp only at h
  split at h
  · cases h
  · rename_i hroom
    injection h with h
    subst h
    dsimp only
    refine ⟨n, rfl, not_lt.mp hroom, rfl, rfl, rfl, rfl, fun i hi => ?_⟩
    rw [if_pos hi]

/-- The node array lies where the pool began. -/
theorem initBlockNode_addr (h : initBlockNode s = .ok t) :
    t.blockNodeArrayAddr = s.firstFreeAddr := by
  unfold initBlockNode at h
  generalize s.availableFreeMemory / 4096 +
    (if s.availableFreeMemory % 4096 ≠ 0 then 1 else 0) = n at h
  dsimp only at h
  split at h
  · cases h
  · injection h with h
    subst h
    rfl

/-- `init_block_list` makes one free block of the whole pool. -/
theorem initBlockList_ok (h : initBlockList s = .ok t) :
    ∃ i, blockIndex s s.firstFreeAddr = .ok i ∧
      t = { s.setNode i fun _ =>
              ⟨s.firstFreeAddr, int32 (s.availableFreeMemory / 4096 : ℕ), 0, none, none⟩ with
            blist := some i } := by
  unfold initBlockList allocBlockNode at h
  simp only [bind, Except.bind] at h
  split at h
  · cases h
  · rename_i i hi
    split at h
    · cases h
    · injection h with h
      refine ⟨i, ?_, h.symm⟩
      split at hi
      · cases hi
      · rename_i j hj
        split at hi
        · cases hi
        · injection hi with hi
          rw [hj, hi]

/-- `memory_init` in two steps. -/
theorem memoryInit_ok (h : memoryInit mem last memSize = .ok t) :
    last ≤ memSize ∧ ∃ s₀ s₁, s₀.firstFreeAddr = last ∧ s₀.availableMemory = memSize ∧
      s₀.availableFreeMemory = memSize - last ∧ initBlockNode s₀ = .ok s₁ ∧
      initBlockList s₁ = .ok t := by
  unfold memoryInit at h
  split at h
  · cases h
  · rename_i hle
    simp only [bind, Except.bind] at h
    split at h
    · cases h
    · rename_i s₁ hs₁
      exact ⟨not_lt.mp hle, _, s₁, rfl, rfl, rfl, hs₁, h⟩

/-- The address of the pool selects the first entry, provided the array is not empty and its length
is a positive `int`. -/
theorem blockIndex_firstFree {i : ℕ} (h : blockIndex s s.firstFreeAddr = .ok i) :
    i = 0 ∧ 0 ≤ s.blockNodeArrayLastIdx := by
  unfold blockIndex at h
  split at h
  · cases h
  · split at h
    · cases h
    · simp only [Nat.sub_self, Nat.zero_div] at h
      have hzero : int32 ((0 : ℕ) : ℤ) = 0 := int32_of_lt (by norm_num)
      rw [hzero] at h
      split at h
      · cases h
      · rename_i hidx
        split at h
        · injection h with h
          exact ⟨h.symm, not_lt.mp hidx⟩
        · cases h

/-- The sizes that `init_block_node` computes: the node array fits behind the allocated memory, and
it has an entry for every page that is left. -/
private theorem layout_bounds {n ff : ℕ} (hle : last ≤ memSize) (hsize : memSize < 2 ^ 43)
    (hn : n = (memSize - last) / 4096 + (if (memSize - last) % 4096 ≠ 0 then 1 else 0))
    (hff : ff = alignPage ((last + n * 32) % 2 ^ 64)) :
    n ≤ 2 ^ 31 ∧ ff % 4096 = 0 ∧ (0 < n → 0 < ff) ∧ (memSize - ff) / 4096 ≤ n := by
  have hn_le : n ≤ 2 ^ 31 ∧ (memSize - last) / 4096 ≤ n := by
    split at hn <;> omega
  rw [Nat.mod_eq_of_lt (by omega)] at hff
  obtain ⟨h₁, -, h₂⟩ := alignPage_spec (a := last + n * 32) (by omega)
  rw [← hff] at h₁ h₂
  have hmono : (memSize - ff) / 4096 ≤ (memSize - last) / 4096 :=
    Nat.div_le_div_right (by omega)
  exact ⟨hn_le.1, h₂, by omega, hmono.trans hn_le.2⟩

/-- The state that a successful `memory_init` leaves: one free block with all the pages of the pool,
and no references anywhere. -/
structure FreshPool (t : MemoryState) (pool : ℕ) : Prop where
  blist : t.blist = some 0
  node : t.blockNodeArray 0 = ⟨t.firstFreeAddr, pool, 0, none, none⟩
  ref : ∀ i < t.allNodes, (t.blockNodeArray i).bRef = 0
  lastIdx : t.blockNodeArrayLastIdx = t.allNodes
  allNodes_lt : t.allNodes < 2 ^ 31
  pool_le : pool ≤ t.allNodes
  aligned : t.firstFreeAddr % 4096 = 0
  firstFree_pos : 0 < pool → 0 < t.firstFreeAddr

/-- `memory_init` leaves one free block. -/
theorem memoryInit_fresh (h : memoryInit mem last memSize = .ok t) (hsize : memSize < 2 ^ 43)
    (hff_le : t.firstFreeAddr ≤ memSize) :
    FreshPool t ((memSize - t.firstFreeAddr) / 4096) := by
  obtain ⟨hle, s₀, s₁, hff₀, hmem₀, hfree₀, hnode, hlist⟩ := memoryInit_ok h
  obtain ⟨n, hn, -, hall, hidx, hff, hfree, hclear⟩ := initBlockNode_ok hnode
  obtain ⟨i, hi, rfl⟩ := initBlockList_ok hlist
  obtain ⟨rfl, hpos⟩ := blockIndex_firstFree hi
  clear h hlist hnode hi
  dsimp only [setNode] at hff_le ⊢
  rw [hfree₀] at hn
  rw [hmem₀] at hfree
  rw [hff₀] at hff
  obtain ⟨hn_le, haligned, hff_pos, hpool_le⟩ := layout_bounds hle hsize hn hff
  have hn_lt : n < 2 ^ 31 := by
    refine lt_of_le_of_ne hn_le fun heq => ?_
    rw [hidx, heq, Nat.cast_pow, Nat.cast_ofNat, int32_two_pow] at hpos
    norm_num at hpos
  have hint : int32 n = n := int32_of_lt hn_lt
  have hfree' : s₁.availableFreeMemory = memSize - s₁.firstFreeAddr := by omega
  clear hfree hff hn
  generalize hpool : (memSize - s₁.firstFreeAddr) / 4096 = pool at hpool_le ⊢
  have hpages : int32 (s₁.availableFreeMemory / 4096 : ℕ) = pool := by
    rw [hfree', hpool]
    exact int32_of_lt (hpool_le.trans_lt hn_lt)
  rw [hpages]
  rw [hall.symm] at hn_lt hpool_le
  refine ⟨rfl, by dsimp only; rw [Function.update_self], fun i hi => ?_,
    by rw [hidx, hall, hint], hn_lt, hpool_le, haligned,
    fun h => hff_pos (hall ▸ h.trans_le hpool_le)⟩
  dsimp only at hi ⊢
  rcases eq_or_ne i 0 with rfl | hi0
  · rw [Function.update_self]
  · rw [Function.update_of_ne hi0]
    exact hclear i (by rw [hint, ← hall]; exact_mod_cast hi)

/-- After a successful `memory_init` that leaves at least one page, the pool is one free block. -/
theorem memoryInit_inv (h : memoryInit mem last memSize = .ok t) (hsize : memSize < 2 ^ 43)
    (hpage : t.firstFreeAddr + 4096 ≤ memSize) :
    MemoryInv t ((memSize - t.firstFreeAddr) / 4096)
      [⟨0, (memSize - t.firstFreeAddr) / 4096, 0⟩] := by
  have hfresh := memoryInit_fresh h hsize (by omega)
  have hstop := Nat.div_mul_le_self (memSize - t.firstFreeAddr) 4096
  have hpos : 0 < (memSize - t.firstFreeAddr) / 4096 := Nat.div_pos (by omega) (by norm_num)
  generalize (memSize - t.firstFreeAddr) / 4096 = pool at *
  have hnode := hfresh.node
  constructor
  · exact ⟨hfresh.lastIdx, hfresh.allNodes_lt, hpos, hfresh.pool_le, hfresh.aligned,
      hfresh.firstFree_pos hpos, by omega⟩
  · refine ⟨hfresh.blist, ⟨?_, ?_, trivial⟩, ?_, ?_, ?_, fun i hi _ => hfresh.ref i hi⟩
    · dsimp only
      rw [hnode]
    · dsimp only
      rw [hnode]
      rfl
    all_goals
      intro b hb
      obtain rfl := List.mem_singleton.mp hb
      dsimp only
      rw [hnode]
    dsimp only
    omega
  · exact ⟨rfl, hpos, by simp [Block.stop]⟩
  · exact List.isChain_singleton _
  · simp

/-- `memory_init` returns when the node array fits and does not lie at address 0. -/
theorem memoryInit_returns {n : ℕ} (mem : ℕ → BlockNode) (hlast : 0 < last) (hle : last ≤ memSize)
    (hn : n = (memSize - last) / 4096 + (if (memSize - last) % 4096 ≠ 0 then 1 else 0))
    (hpos : 0 < n) (hlt : n < 2 ^ 31) (hroom : n * 32 + last ≤ memSize) (hsize : memSize < 2 ^ 43) :
    ∃ t, memoryInit mem last memSize = .ok t ∧ t.firstFreeAddr = alignPage (last + n * 32) := by
  have hmod : ∀ x, x ≤ memSize → x % 2 ^ 64 = x := fun x hx => Nat.mod_eq_of_lt (by omega)
  have haligned := (alignPage_spec (a := last + n * 32) (by omega)).2.2
  have hint : int32 n = n := int32_of_lt hlt
  have hzero : int32 ((0 : ℕ) : ℤ) = 0 := int32_of_lt (by norm_num)
  have hmod₁ := hmod (n * 32 + last) hroom
  have hmod₂ := hmod (last + n * 32) (by omega)
  unfold memoryInit initBlockNode
  simp only [bind, Except.bind, if_neg (not_lt.mpr hle), ← hn, hmod₁, hmod₂, hint,
    if_neg (not_lt.mpr hroom), initBlockList, allocBlockNode, blockIndex, haligned, Nat.sub_self,
    Nat.zero_div, hzero]
  have hidx : ¬ (0 : ℤ) > n := by omega
  have hin : (0 : ℤ) ≤ 0 ∧ (0 : ℤ) < n := by omega
  have hcast : ((0 : ℕ) : ℤ) < n := by omega
  simp only [ne_eq, not_true_eq_false, if_false, lt_irrefl, hidx, hin, and_self, if_true,
    Int.toNat_zero, hcast, Nat.zero_mul, Nat.add_zero, hlast.ne']
  exact ⟨_, rfl, rfl⟩

end Init

/-! ### The calls -/

/-- The address passes the checks although its index lies outside the array: the index is an `int`
and may be negative, and it is compared with the number of entries by `>`. -/
def MemoryState.Outside (s : MemoryState) (paddr : ℕ) : Prop :=
  paddr % 4096 = 0 ∧ s.firstFreeAddr ≤ paddr ∧
    (int32 ((paddr - s.firstFreeAddr) / 4096 : ℕ) < 0 ∨
      int32 ((paddr - s.firstFreeAddr) / 4096 : ℕ) = s.blockNodeArrayLastIdx)

/-- The condition under which a call keeps the invariant: its address does not select an entry
outside the array, and `realloc_mem_block` does not overflow a reference count. -/
def MemoryCall.Safe (s : MemoryState) : MemoryCall → Prop
  | alloc _ => True
  | realloc paddr => ¬ s.Outside paddr ∧
      ∀ i, blockIndex s paddr = .ok i → (s.blockNodeArray i).bRef ≠ 2 ^ 32 - 1
  | free paddr => ¬ s.Outside paddr

/-- The panics of a call whose argument is not the address of a live block. -/
def MemoryPanic.IsRejection (p : MemoryPanic) : Prop :=
  p = .notAligned ∨ p = .underRange ∨ p = .overArray ∨ p = .reallocFree ∨ p = .freeFree

section Calls

variable {s s' s₀ : MemoryState} {pool memSize : ℕ} {L : List Block} {c : MemoryCall}

/-- An address either selects an entry or is refused. -/
theorem PoolLayout.blockIndex_cases (h : PoolLayout s pool) {paddr : ℕ} (hout : ¬ s.Outside paddr) :
    (∃ i, blockIndex s paddr = .ok i) ∨
      ∃ p, MemoryPanic.IsRejection p ∧ blockIndex s paddr = .error (.panic p) := by
  unfold blockIndex
  split
  · exact Or.inr ⟨_, Or.inl rfl, rfl⟩
  · rename_i haligned
    split
    · exact Or.inr ⟨_, Or.inr (Or.inl rfl), rfl⟩
    · rename_i hrange
      dsimp only
      split
      · exact Or.inr ⟨_, Or.inr (Or.inr (Or.inl rfl)), rfl⟩
      · rename_i hidx
        split
        · exact Or.inl ⟨_, rfl⟩
        · rename_i hin
          refine absurd ⟨not_not.mp haligned, not_lt.mp hrange, ?_⟩ hout
          have hlast := h.lastIdx
          omega

/-- What a safe call does: it returns and keeps the invariant, or it refuses its argument. -/
theorem MemoryInv.exec (h : MemoryInv s pool L) (hsafe : c.Safe s) :
    (∃ r s' L', c.exec s = .ok (r, s') ∧ SameLayout s s' ∧ MemoryInv s' pool L') ∨
      ∃ p, MemoryPanic.IsRejection p ∧ c.exec s = .error (.panic p) := by
  cases c with
  | alloc n =>
    refine Or.inl ?_
    rcases Nat.eq_zero_or_pos n with rfl | hn
    · exact ⟨0, s, L, rfl, .refl s, h⟩
    · rcases allocMemPages_eq h hn with ⟨-, hnone⟩ | ⟨a, L', s', -, hsome, hlay, hinv⟩
      · exact ⟨0, s, L, hnone, .refl s, h⟩
      · exact ⟨_, s', L', hsome, hlay, hinv⟩
  | realloc paddr =>
    obtain ⟨hout, hmax⟩ := hsafe
    rcases h.layout.blockIndex_cases hout with ⟨i, hi⟩ | ⟨p, hp, hi⟩
    · by_cases hlive : (s.blockNodeArray i).bRef = 0
      · refine Or.inr ⟨.reallocFree, by simp [MemoryPanic.IsRejection], ?_⟩
        simp only [MemoryCall.exec, reallocMemBlock, hi, bind, Except.bind, hlive, if_true]
      · obtain ⟨s', hs', hlay, hinv⟩ := reallocMemBlock_eq h hi hlive (hmax i hi)
        exact Or.inl ⟨paddr, s', _, hs', hlay, hinv⟩
    · exact Or.inr ⟨p, hp, by simp only [MemoryCall.exec, reallocMemBlock, hi, bind, Except.bind]⟩
  | free paddr =>
    rcases h.layout.blockIndex_cases hsafe with ⟨i, hi⟩ | ⟨p, hp, hi⟩
    · by_cases hlive : (s.blockNodeArray i).bRef = 0
      · refine Or.inr ⟨.freeFree, by simp [MemoryPanic.IsRejection], ?_⟩
        simp only [MemoryCall.exec, freeMemPages, hi, bind, Except.bind, hlive, if_true]
        rfl
      · obtain ⟨s', hs', hlay, hinv⟩ := freeMemPages_eq h hi hlive
        exact Or.inl ⟨0, s', _, by simp only [MemoryCall.exec, hs']; rfl, hlay, hinv⟩
    · refine Or.inr ⟨p, hp, ?_⟩
      simp only [MemoryCall.exec, freeMemPages, hi, bind, Except.bind]
      rfl

/-- One safe step keeps the invariant. -/
theorem MemoryInv.step (h : MemoryInv s pool L) (hsafe : c.Safe s) (hstep : memoryStep s c s') :
    SameLayout s s' ∧ ∃ L', MemoryInv s' pool L' := by
  obtain ⟨r, hr⟩ := hstep
  rcases h.exec hsafe with ⟨r', t, L', ht, hlay, hinv⟩ | ⟨p, -, hp⟩
  · rw [hr] at ht
    injection ht with ht
    injection ht with _ ht
    subst ht
    exact ⟨hlay, L', hinv⟩
  · rw [hr] at hp
    cases hp

/-- The steps of the allocator that meet the condition. -/
abbrev safeStep : MemoryState → MemoryCall → MemoryState → Prop :=
  guarded memoryStep fun s c => c.Safe s

/-- Every safe run keeps the invariant. -/
theorem MemoryInv.run {cs : List MemoryCall} (h : MemoryInv s₀ pool L)
    (hrun : Run safeStep s₀ cs s) : SameLayout s₀ s ∧ ∃ L', MemoryInv s pool L' := by
  refine hrun.invariant (I := fun s => SameLayout s₀ s ∧ ∃ L', MemoryInv s pool L') ?_
    ⟨.refl s₀, L, h⟩
  rintro s c t ⟨hsafe, hstep⟩ ⟨hlay, L', hinv⟩
  obtain ⟨hlay', L'', hinv'⟩ := hinv.step hsafe hstep
  exact ⟨hlay.trans hlay', L'', hinv'⟩

end Calls

/-! ### The main result -/

section Result

variable {mem : ℕ → BlockNode} {last memSize : ℕ} {s₀ s : MemoryState} {cs : List MemoryCall}

/-- In every run of safe calls from `memory_init`, the block list keeps its invariant, and no safe
call finds an entry already allocated or the list corrupted. -/
theorem blockListInv_of_run (hinit : memoryInit mem last memSize = .ok s₀)
    (hsize : memSize < 2 ^ 43) (hpage : s₀.firstFreeAddr + 4096 ≤ memSize)
    (hrun : Run safeStep s₀ cs s) :
    s.firstFreeAddr = s₀.firstFreeAddr ∧ (∃ nodes, BlockListInv s memSize nodes) ∧
      ∀ c : MemoryCall, c.Safe s →
        c.exec s ≠ .error (.panic .alreadyAllocated) ∧ c.exec s ≠ .error (.panic .corruptedHead) ∧
          c.exec s ≠ .error (.panic .corruptedPre) ∧ c.exec s ≠ .error (.panic .corruptedNext) := by
  obtain ⟨hlay, L, hinv⟩ := (memoryInit_inv hinit hsize hpage).run hrun
  refine ⟨hlay.firstFree, ⟨_, hinv.blockListInv (by rw [hlay.firstFree])⟩, fun c hc => ?_⟩
  rcases hinv.exec hc with ⟨r, t, L', ht, -⟩ | ⟨p, hp, herr⟩
  · rw [ht]
    simp
  · rw [herr]
    rcases hp with rfl | rfl | rfl | rfl | rfl <;> simp

/-- A pool of two pages behind one page of allocated memory. -/
theorem memoryInit_two : ∃ s₀, memoryInit (fun _ => default) 4096 16384 = .ok s₀ ∧
    s₀.firstFreeAddr = 8192 ∧ MemoryInv s₀ 2 [⟨0, 2, 0⟩] := by
  obtain ⟨s₀, hinit, hff⟩ := memoryInit_returns (n := 3) (fun _ => default)
    (show 0 < 4096 by norm_num) (show 4096 ≤ 16384 by norm_num) (by norm_num) (by norm_num)
    (by norm_num) (by norm_num) (by norm_num)
  have hff' : s₀.firstFreeAddr = 8192 := hff
  have hinv := memoryInit_inv hinit (by norm_num) (by rw [hff']; norm_num)
  rw [hff'] at hinv
  exact ⟨s₀, hinit, hff', hinv⟩

/-- The first `alloc_mem_pages (1)` in the pool of two pages. -/
theorem alloc_two (hinv : MemoryInv s₀ 2 [⟨0, 2, 0⟩]) :
    ∃ s, allocMemPages 1 s₀ = .ok (s₀.firstFreeAddr, s) ∧ SameLayout s₀ s ∧
      MemoryInv s 2 [⟨0, 1, 1⟩, ⟨1, 1, 0⟩] := by
  rcases allocMemPages_eq hinv (n := 1) (by norm_num) with ⟨hnone, -⟩ | ⟨a, L, s,
    hsome, hs, hlay, h⟩
  · exact absurd hnone (by decide)
  · have hL : allocate 1 [⟨0, 2, 0⟩] = some (0, [⟨0, 1, 1⟩, ⟨1, 1, 0⟩]) := by decide
    cases hL.symm.trans hsome
    exact ⟨s, by simpa using hs, hlay, h⟩

theorem blockListInv_of_run_alloc : ∃ s₀ s,
    memoryInit (fun _ => default) 4096 16384 = .ok s₀ ∧ Run safeStep s₀ [.alloc 1] s ∧
      ∃ nodes, BlockListInv s 16384 nodes := by
  obtain ⟨s₀, hinit, hff, hinv⟩ := memoryInit_two
  obtain ⟨s, hstep, -⟩ := alloc_two hinv
  have hrun : Run safeStep s₀ [.alloc 1] s := .cons ⟨trivial, _, hstep⟩ (.nil s)
  exact ⟨s₀, s, hinit, hrun,
    (blockListInv_of_run hinit (by norm_num) (by rw [hff]; norm_num) hrun).2.1⟩

/-! ### The reference count wraps -/

/-- `k` calls of `realloc_mem_block` for the first block add `k` references, up to the largest
`uint32_t`. -/
theorem reallocs_run {pool n r k : ℕ} {L : List Block} (h : MemoryInv s pool (⟨0, n, r⟩ :: L))
    (hr : 0 < r) (hk : r + k < 2 ^ 32) :
    ∃ t, Run memoryStep s (List.replicate k (.realloc s.firstFreeAddr)) t ∧ SameLayout s t ∧
      MemoryInv t pool (⟨0, n, r + k⟩ :: L) := by
  induction k generalizing s r with
  | zero => exact ⟨s, .nil s, .refl s, h⟩
  | succ k ih =>
    have hidx : blockIndex s s.firstFreeAddr = .ok 0 := by
      simpa using h.blockIndex_pool h.layout.pool_pos
    have href : (s.blockNodeArray 0).bRef = r := h.rep.ref ⟨0, n, r⟩ List.mem_cons_self
    obtain ⟨t, ht, hlay, hinv⟩ := reallocMemBlock_eq h hidx (by omega) (by omega)
    have hshare : share 0 (⟨0, n, r⟩ :: L) = ⟨0, n, r + 1⟩ :: L := by
      have hnd := h.tiles.nodup_starts
      rw [List.map_cons, List.nodup_cons] at hnd
      exact share_append (A := []) (by simp) hnd.1 rfl
    rw [hshare] at hinv
    obtain ⟨u, hrun, hlay', hinv'⟩ := ih hinv (by omega) (by omega)
    refine ⟨u, .cons ⟨_, ht⟩ ?_, hlay.trans hlay', ?_⟩
    · rw [← hlay.firstFree]
      exact hrun
    · rwa [show r + (k + 1) = r + 1 + k by omega]

/-- After one `alloc_mem_pages` and `2 ^ 32 - 1` calls of `realloc_mem_block`, the count of the
block is `0` again: both blocks of the list are free. -/
theorem exists_wrapped : ∃ s₀ s, memoryInit (fun _ => default) 4096 16384 = .ok s₀ ∧
    s₀.firstFreeAddr = 8192 ∧
    Run memoryStep s₀ (.alloc 1 :: List.replicate (2 ^ 32 - 1) (.realloc 8192)) s ∧
    s.firstFreeAddr = 8192 ∧ 0 < s.allNodes ∧ s.blist = some 0 ∧
    s.blockNodeArray 0 = ⟨8192, 1, 0, some 1, none⟩ ∧
    s.blockNodeArray 1 = ⟨12288, 1, 0, none, some 0⟩ ∧
    ∀ i < s.allNodes, (s.blockNodeArray i).bRef = 0 := by
  obtain ⟨s₀, hinit, hff, hinv⟩ := memoryInit_two
  obtain ⟨s₁, hstep, hlay₁, hinv₁⟩ := alloc_two hinv
  obtain ⟨s₂, hrun, hlay₂, hinv₂⟩ := reallocs_run (k := 2 ^ 32 - 2) hinv₁ (by norm_num)
    (by norm_num)
  rw [hlay₁.firstFree, hff] at hrun
  have hlay := hlay₁.trans hlay₂
  have hff₂ : s₂.firstFreeAddr = 8192 := hlay.firstFree.trans hff
  have hcount : 1 + (2 ^ 32 - 2) = 2 ^ 32 - 1 := by norm_num
  rw [hcount] at hinv₂
  have hb₀ : (⟨0, 1, 2 ^ 32 - 1⟩ : Block) ∈ [⟨0, 1, 2 ^ 32 - 1⟩, (⟨1, 1, 0⟩ : Block)] := by simp
  have hb₁ : (⟨1, 1, 0⟩ : Block) ∈ [⟨0, 1, 2 ^ 32 - 1⟩, (⟨1, 1, 0⟩ : Block)] := by simp
  have href := hinv₂.rep.ref _ hb₀
  dsimp only at href
  -- the last call wraps the count
  have hlast : memoryStep s₂ (.realloc 8192)
      (s₂.setNode 0 fun b => { b with bRef := (b.bRef + 1) % 2 ^ 32 }) := by
    have hidx : blockIndex s₂ 8192 = .ok 0 := by
      simpa [hff₂] using hinv₂.blockIndex_pool hinv₂.layout.pool_pos
    refine ⟨8192, ?_⟩
    simp only [MemoryCall.exec, reallocMemBlock, hidx, bind, Except.bind, href]
    rfl
  have hrep := hinv₂.rep
  obtain ⟨hpre₀, hnext₀, hpre₁, hnext₁, -⟩ := hrep.links
  have hnode₀ : s₂.blockNodeArray 0 = ⟨8192, 1, 2 ^ 32 - 1, some 1, none⟩ := by
    exact BlockNode.ext ((hrep.addr _ hb₀).trans (by rw [hff₂]; norm_num)) (hrep.pages _ hb₀)
      href hnext₀ hpre₀
  have hnode₁ : s₂.blockNodeArray 1 = ⟨12288, 1, 0, none, some 0⟩ := by
    exact BlockNode.ext ((hrep.addr _ hb₁).trans (by rw [hff₂]; norm_num)) (hrep.pages _ hb₁)
      (hrep.ref _ hb₁) hnext₁ hpre₁
  have hsplit : List.replicate (2 ^ 32 - 1) (MemoryCall.realloc 8192) =
      List.replicate (2 ^ 32 - 2) (.realloc 8192) ++ [.realloc 8192] := by
    rw [← List.replicate_succ', show 2 ^ 32 - 2 + 1 = 2 ^ 32 - 1 by norm_num]
  refine ⟨s₀, s₂.setNode 0 fun b => { b with bRef := (b.bRef + 1) % 2 ^ 32 }, hinit, hff,
    .cons ⟨_, hstep⟩ ?_, hff₂, hinv₂.layout.pool_pos.trans_le hinv₂.layout.pool_le,
    hrep.blist, ?_, ?_,
    ?_⟩
  · rw [hsplit]
    exact hrun.snoc hlast
  · rw [setNode_self, hnode₀]
    norm_num
  · rw [setNode_ne (by norm_num), hnode₁]
  · intro i hi
    rw [setNode_node]
    split
    · rw [href]
      norm_num
    · by_cases hi₁ : i = 1
      · rw [hi₁, hnode₁]
      · exact hrep.stale i hi (by simp; omega)

/-- The counts are `uint32_t`: a run of calls none of which panics makes two neighbouring blocks
free. -/
theorem blockListInv_wrapped : ∃ s₀ s, memoryInit (fun _ => default) 4096 16384 = .ok s₀ ∧
    (16384 : ℕ) < 2 ^ 43 ∧ s₀.firstFreeAddr + 4096 ≤ 16384 ∧
    Run memoryStep s₀ (.alloc 1 :: List.replicate (2 ^ 32 - 1) (.realloc 8192)) s ∧
    ¬ ∃ nodes, BlockListInv s 16384 nodes := by
  obtain ⟨s₀, s, hinit, hff, hrun, -, -, hblist, hnode₀, hnode₁, -⟩ := exists_wrapped
  refine ⟨s₀, s, hinit, by norm_num, by rw [hff]; norm_num, hrun, ?_⟩
  rintro ⟨nodes, hinv⟩
  have hhead := hinv.head
  rw [hblist] at hhead
  -- the list starts with the entries 0 and 1
  obtain ⟨nodes, rfl⟩ : ∃ l, nodes = 0 :: l :=
    ⟨nodes.tail, List.eq_cons_of_mem_head? hhead.symm⟩
  have hnext := hinv.next 0 0 rfl
  rw [hnode₀] at hnext
  have hsecond : nodes.head? = some 1 := by
    rw [List.head?_eq_getElem?]
    exact hnext.symm
  obtain ⟨nodes, rfl⟩ : ∃ l, nodes = 1 :: l := ⟨nodes.tail, List.eq_cons_of_mem_head? hsecond⟩
  have hco := (List.isChain_cons_cons.mp hinv.coalesced).1
  rw [hnode₀, hnode₁] at hco
  exact hco ⟨rfl, rfl⟩

end Result

end Savannah
