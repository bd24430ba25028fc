import Savannah.Memory.Invariant
import Savannah.Foundation.Holders

/-!
# Ownership of allocated blocks

`Ledger m pool X S`: the blocks that the allocator has handed out are held by `X` and `S`, each
holder naming a block by its address and its number of pages.  The blocks in `X` have this one
holder; those in `S` may have several, which `realloc_mem_block` and `free_mem_pages` count.

Each allocator function changes the ledger by one entry.
-/

namespace Savannah

open Foundation MemoryState

/-- The address of the page `i` of the pool. -/
def MemoryState.pageAddr (m : MemoryState) (i : ℕ) : ℕ := m.firstFreeAddr + i * 4096

/-- Pages have distinct addresses. -/
theorem MemoryState.pageAddr_injective (m : MemoryState) : Function.Injective m.pageAddr := by
  intro i j h
  unfold pageAddr at h
  omega

theorem MemoryState.SameLayout.pageAddr {m m' : MemoryState} (h : SameLayout m m') :
    m'.pageAddr = m.pageAddr := by
  funext i
  rw [MemoryState.pageAddr, MemoryState.pageAddr, h.firstFree]

/-- The page at `a` starts no block in use. -/
def MemoryState.Unused (m : MemoryState) (a : ℕ) : Prop :=
  ∀ i < m.allNodes, m.pageAddr i = a → (m.blockNodeArray i).bRef = 0

/-- The holders of the allocated blocks: exclusive ones in `X`, shared ones in `S`. -/
structure Ledger (m : MemoryState) (pool : ℕ) (X S : Multiset (ℕ × ℕ)) : Prop where
  held : ∃ L, MemoryInv m pool L ∧ Held m.pageAddr L (X + S)
  nodup : X.Nodup
  disjoint : ∀ x ∈ X, x ∉ S

/-- In every state of the allocator the blocks handed out have some holders. -/
theorem MemoryInv.exists_ledger {m : MemoryState} {pool : ℕ} {L : List Block}
    (h : MemoryInv m pool L) : ∃ S, Ledger m pool 0 S := by
  obtain ⟨S, hS⟩ := exists_held m.pageAddr_injective h.tiles.nodup_starts
  refine ⟨S, ⟨L, h, ?_⟩, Multiset.nodup_zero, fun x hx => absurd hx (Multiset.notMem_zero x)⟩
  rw [Multiset.zero_add]
  exact hS

namespace Ledger

variable {m : MemoryState} {pool a n k : ℕ} {X S : Multiset (ℕ × ℕ)}

/-- A holder names pages of the pool, which has no page at address 0. -/
theorem addr (h : Ledger m pool X S) (hx : (a, n) ∈ X + S) :
    0 < n ∧ m.firstFreeAddr ≤ a ∧ 0 < a ∧ a % 4096 = 0 ∧
      a + n * 4096 ≤ m.firstFreeAddr + pool * 4096 ∧ m.firstFreeAddr + pool * 4096 < 2 ^ 43 := by
  obtain ⟨L, hinv, hheld⟩ := h.held
  obtain ⟨b, hb, heq⟩ := hheld.live _ hx
  obtain ⟨rfl, rfl⟩ := Prod.mk.inj heq
  have hpos := (hinv.tiles.mem hb.1).2.1
  have hle := hinv.pages_le hb.1
  have hal := hinv.layout.aligned
  have hff := hinv.layout.firstFree_pos
  have hstop := hinv.layout.stop_lt
  unfold pageAddr
  refine ⟨hpos, by omega, by omega, by omega, ?_, hstop⟩
  have hmul : (b.start + b.pages) * 4096 ≤ pool * 4096 := Nat.mul_le_mul_right _ hle
  omega

/-- Two holders with a common page name the same block. -/
theorem eq_of_page (h : Ledger m pool X S) {x y : ℕ × ℕ} (hx : x ∈ X + S) (hy : y ∈ X + S) {t : ℕ}
    (htx : x.1 ≤ t ∧ t < x.1 + x.2 * 4096) (hty : y.1 ≤ t ∧ t < y.1 + y.2 * 4096) : x = y := by
  obtain ⟨L, hinv, hheld⟩ := h.held
  obtain ⟨b, hb, rfl⟩ := hheld.live _ hx
  obtain ⟨c, hc, rfl⟩ := hheld.live _ hy
  dsimp only [pageAddr] at htx hty
  have hbc : b = c := hinv.tiles.eq_of_has (p := (t - m.firstFreeAddr) / 4096) hb.1 hc.1
    ⟨by omega, by simp only [Block.stop]; omega⟩ ⟨by omega, by simp only [Block.stop]; omega⟩
  rw [hbc]

/-- An address belongs to one block. -/
theorem eq_of_addr (h : Ledger m pool X S) (hx : (a, n) ∈ X + S) (hy : (a, k) ∈ X + S) :
    n = k := by
  have hn := (h.addr hx).1
  have hk := (h.addr hy).1
  have heq := h.eq_of_page hx hy (t := a) ⟨le_rfl, by dsimp only; omega⟩
    ⟨le_rfl, by dsimp only; omega⟩
  exact (Prod.mk.inj heq).2

/-- The node of a block, and the number of its holders. -/
theorem node (h : Ledger m pool X S) (hx : (a, n) ∈ X + S) :
    ∃ L b, MemoryInv m pool L ∧ Held m.pageAddr L (X + S) ∧ Live L b ∧ a = m.pageAddr b.start ∧
      n = b.pages ∧ blockIndex m a = .ok b.start ∧
      (m.blockNodeArray b.start).bRef = (X + S).count (a, n) := by
  obtain ⟨L, hinv, hheld⟩ := h.held
  obtain ⟨b, hb, heq⟩ := hheld.live _ hx
  obtain ⟨rfl, rfl⟩ := Prod.mk.inj heq
  exact ⟨L, b, hinv, hheld, hb, rfl, rfl, hinv.blockIndex_pool (hinv.start_lt hb.1),
    by rw [hinv.rep.ref b hb.1, hheld.ref b hb]⟩

/-- The reference count of a block is the number of its holders; an entry that starts no live block
has none. -/
theorem bRef (h : Ledger m pool X S) {i : ℕ} (hi : i < m.allNodes) :
    ∃ k, (m.blockNodeArray i).bRef = (X + S).count (m.pageAddr i, k) ∧
      ∀ j, (m.pageAddr i, j) ∈ X + S → j = k := by
  obtain ⟨L, hinv, hheld⟩ := h.held
  by_cases hlive : (m.blockNodeArray i).bRef = 0
  · refine ⟨0, ?_, fun j hj => ?_⟩
    · rw [hlive, eq_comm, Multiset.count_eq_zero]
      exact fun hmem => absurd (h.addr hmem).1 (lt_irrefl 0)
    · obtain ⟨-, b, -, -, hb, ha, -, -, href⟩ := h.node hj
      obtain rfl := m.pageAddr_injective ha
      rw [hlive] at href
      exact absurd hj (Multiset.count_eq_zero.mp href.symm)
  · obtain ⟨b, hb, rfl, href⟩ := hinv.exists_live hi hlive
    refine ⟨b.pages, by rw [href, hheld.ref b hb], fun j hj => ?_⟩
    exact h.eq_of_addr hj (hheld.count_pos hb)

/-- The same, for the holders that name the address. -/
theorem bRef_eq (h : Ledger m pool X S) {i : ℕ} (hi : i < m.allNodes) :
    (m.blockNodeArray i).bRef = (X + S).countP fun x => x.1 = m.pageAddr i := by
  obtain ⟨k, hcount, huniq⟩ := h.bRef hi
  rw [hcount]
  refine Multiset.countP_congr rfl fun x hx => propext ?_
  constructor
  · intro heq
    rw [← heq]
  · intro heq
    rw [← heq, ← huniq x.2 (by rw [← heq]; exact hx)]

/-- A block with one holder has no page in common with what is held besides. -/
theorem alone (h : Ledger m pool X S) {x y : ℕ × ℕ} (hx : x ∈ X) (hy : y ∈ (X + S).erase x) {t : ℕ}
    (htx : x.1 ≤ t ∧ t < x.1 + x.2 * 4096) : ¬ (y.1 ≤ t ∧ t < y.1 + y.2 * 4096) := by
  intro hty
  have hmem : x ∈ X + S := Multiset.mem_add.mpr (Or.inl hx)
  obtain rfl := h.eq_of_page hmem (Multiset.mem_of_mem_erase hy) htx hty
  rw [Multiset.erase_add_left_pos S hx] at hy
  rcases Multiset.mem_add.mp hy with hy | hy
  · exact h.nodup.notMem_erase hy
  · exact h.disjoint _ hx hy

/-- If nobody holds anything, the pool is one free block. -/
theorem free_pool (h : Ledger m pool 0 0) : MemoryInv m pool [⟨0, pool, 0⟩] := by
  obtain ⟨L, hinv, hheld⟩ := h.held
  have hone : Tiles 0 [⟨0, pool, 0⟩] pool := ⟨rfl, hinv.layout.pool_pos, Nat.zero_add pool⟩
  have hL : L = [⟨0, pool, 0⟩] := by
    refine Coalesced.eq_of_live hinv.tiles hone hinv.coalesced (List.isChain_singleton _)
      fun b => ?_
    refine iff_of_false (fun hb => ?_) fun hb => ?_
    · exact absurd (hheld.count_pos hb) (Multiset.notMem_zero _)
    · obtain rfl := List.mem_singleton.mp hb.1
      exact absurd hb.2 (lt_irrefl 0)
  rw [← hL]
  exact hinv

/-- Then it can be allocated in one piece. -/
theorem alloc_pool (h : Ledger m pool 0 0) :
    ∃ m', allocMemPages pool m = .ok (m.firstFreeAddr, m') := by
  have hone := h.free_pool
  rcases allocMemPages_eq hone hone.layout.pool_pos with ⟨hfull, -⟩ | ⟨a, L, m', hsome, hm', -, -⟩
  · simp [allocate] at hfull
  · have ha : a = 0 := by
      simp only [allocate, lt_irrefl, or_self, if_false, if_true, Option.some.injEq,
        Prod.mk.injEq] at hsome
      exact hsome.1.symm
    rw [ha, Nat.zero_mul, Nat.add_zero] at hm'
    exact ⟨m', hm'⟩

/-- Blocks with one holder may be counted among those with several. -/
theorem share {Y : Multiset (ℕ × ℕ)} (h : Ledger m pool (Y + X) S) : Ledger m pool X (Y + S) := by
  obtain ⟨L, hinv, hheld⟩ := h.held
  obtain ⟨-, hnodup, hdisj⟩ := Multiset.nodup_add.mp h.nodup
  refine ⟨⟨L, hinv, ?_⟩, hnodup, fun x hx hmem => ?_⟩
  · rwa [← add_assoc, add_comm X Y]
  · rcases Multiset.mem_add.mp hmem with hY | hS
    · exact Multiset.disjoint_left.mp hdisj hY hx
    · exact h.disjoint x (Multiset.mem_add.mpr (Or.inr hx)) hS

/-! ### The allocator functions -/

/-- Allocation adds an exclusive holder of a new block, or fails for lack of room. -/
theorem alloc (h : Ledger m pool X S) (hn : 0 < n) :
    allocMemPages n m = .ok (0, m) ∨
      ∃ a m', allocMemPages n m = .ok (a, m') ∧ a ≠ 0 ∧ SameLayout m m' ∧
        Ledger m' pool ((a, n) ::ₘ X) S ∧ ∀ k, (a, k) ∉ X + S := by
  obtain ⟨L, hinv, hheld⟩ := h.held
  rcases allocMemPages_eq hinv hn with ⟨-, hnone⟩ | ⟨i, L', m', hsome, hm', hlay, hinv'⟩
  · exact Or.inl hnone
  · obtain ⟨hheld', hfresh⟩ := hheld.allocate m.pageAddr_injective hinv.tiles hsome
    have hff := hinv.layout.firstFree_pos
    refine Or.inr ⟨m.pageAddr i, m', hm', ?_, hlay, ⟨⟨L', hinv', ?_⟩, ?_, ?_⟩, hfresh⟩
    · unfold pageAddr
      omega
    · rw [hlay.pageAddr, Multiset.cons_add]
      exact hheld'
    · exact Multiset.nodup_cons.mpr ⟨fun hmem => hfresh n (Multiset.mem_add.mpr (Or.inl hmem)),
        h.nodup⟩
    · intro x hx
      rcases Multiset.mem_cons.mp hx with rfl | hx
      · exact fun hmem => hfresh n (Multiset.mem_add.mpr (Or.inr hmem))
      · exact h.disjoint x hx

/-- One more holder of a shared block. -/
theorem realloc (h : Ledger m pool X S) (hx : (a, n) ∈ S) (hcard : Multiset.card S < 2 ^ 32 - 1) :
    ∃ m', reallocMemBlock a m = .ok (a, m') ∧ SameLayout m m' ∧
      Ledger m' pool X ((a, n) ::ₘ S) := by
  have hmem : (a, n) ∈ X + S := Multiset.mem_add.mpr (Or.inr hx)
  obtain ⟨L, b, hinv, hheld, hb, ha, rfl, hidx, href⟩ := h.node hmem
  have hcount : (X + S).count (a, b.pages) = S.count (a, b.pages) := by
    rw [Multiset.count_add, Multiset.count_eq_zero.mpr fun hX => h.disjoint _ hX hx, zero_add]
  have hpos : 0 < S.count (a, b.pages) := Multiset.count_pos.mpr hx
  have hle := Multiset.count_le_card (a, b.pages) S
  obtain ⟨m', hm', hlay, hinv'⟩ := reallocMemBlock_eq hinv hidx (by omega) (by omega)
  refine ⟨m', hm', hlay, ⟨⟨_, hinv', ?_⟩, h.nodup, fun x hxX hxS => ?_⟩⟩
  · rw [hlay.pageAddr, Multiset.add_cons, ha]
    exact hheld.share m.pageAddr_injective hinv.tiles hb
  · rcases Multiset.mem_cons.mp hxS with rfl | hxS
    · exact h.disjoint _ hxX hx
    · exact h.disjoint x hxX hxS

/-- Freeing removes a holder. -/
private theorem free (h : Ledger m pool X S) (hx : (a, n) ∈ X + S) :
    ∃ m' L, freeMemPages a m = .ok m' ∧ SameLayout m m' ∧ MemoryInv m' pool L ∧
      Held m'.pageAddr L ((X + S).erase (a, n)) := by
  obtain ⟨L, b, hinv, hheld, hb, ha, rfl, hidx, href⟩ := h.node hx
  have hpos : 0 < (X + S).count (a, b.pages) := Multiset.count_pos.mpr hx
  obtain ⟨m', hm', hlay, hinv'⟩ := freeMemPages_eq hinv hidx (by omega)
  refine ⟨m', _, hm', hlay, hinv', ?_⟩
  rw [hlay.pageAddr, ha]
  exact hheld.release m.pageAddr_injective hinv.tiles hb

/-- Freeing a block of one holder. -/
theorem freeExclusive (h : Ledger m pool X S) (hx : (a, n) ∈ X) :
    ∃ m', freeMemPages a m = .ok m' ∧ SameLayout m m' ∧ Ledger m' pool (X.erase (a, n)) S := by
  obtain ⟨m', L, hm', hlay, hinv, hheld⟩ := h.free (Multiset.mem_add.mpr (Or.inl hx))
  refine ⟨m', hm', hlay, ⟨⟨L, hinv, ?_⟩, h.nodup.erase _, fun x hxX => ?_⟩⟩
  · rw [← Multiset.erase_add_left_pos S hx]
    exact hheld
  · exact h.disjoint x (Multiset.mem_of_mem_erase hxX)

/-- Freeing a shared block once. -/
theorem freeShared (h : Ledger m pool X S) (hx : (a, n) ∈ S) :
    ∃ m', freeMemPages a m = .ok m' ∧ SameLayout m m' ∧ Ledger m' pool X (S.erase (a, n)) := by
  obtain ⟨m', L, hm', hlay, hinv, hheld⟩ := h.free (Multiset.mem_add.mpr (Or.inr hx))
  refine ⟨m', hm', hlay, ⟨⟨L, hinv, ?_⟩, h.nodup, fun x hxX hxS => ?_⟩⟩
  · rw [← Multiset.erase_add_right_pos X hx]
    exact hheld
  · exact h.disjoint x hxX (Multiset.mem_of_mem_erase hxS)

/-- Nobody holds what its only holder has freed. -/
theorem unused {m' : MemoryState} (h : Ledger m pool X S) (hx : (a, n) ∈ X)
    (h' : Ledger m' pool (X.erase (a, n)) S) : m'.Unused a := by
  intro i hi haddr
  rw [h'.bRef_eq hi, Multiset.countP_eq_zero]
  intro y hy heq
  have hmem : y ∈ (X + S).erase (a, n) := by
    rwa [Multiset.erase_add_left_pos S hx]
  have hn := (h.addr (Multiset.mem_add.mpr (Or.inl hx))).1
  have hy' := (h.addr (a := y.1) (n := y.2) (Multiset.mem_of_mem_erase hmem)).1
  have hya : y.1 = a := heq.trans haddr
  exact h.alone hx hmem (t := a) ⟨le_rfl, by dsimp only; omega⟩ ⟨hya.le, by omega⟩

end Ledger

/-- After `memory_init` nobody holds anything. -/
theorem ledger_of_init {mem : ℕ → BlockNode} {last memSize : ℕ} {m : MemoryState}
    (h : memoryInit mem last memSize = .ok m) (hsize : memSize < 2 ^ 43)
    (hpage : m.firstFreeAddr + 4096 ≤ memSize) :
    Ledger m ((memSize - m.firstFreeAddr) / 4096) 0 0 := by
  refine ⟨⟨_, memoryInit_inv h hsize hpage, held_empty fun b hb => ?_⟩, Multiset.nodup_zero,
    fun x hx => absurd hx (Multiset.notMem_zero x)⟩
  obtain rfl := List.mem_singleton.mp hb.1
  exact absurd hb.2 (lt_irrefl 0)

end Savannah
