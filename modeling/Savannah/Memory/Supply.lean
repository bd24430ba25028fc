import Savannah.Memory.Ledger

/-!
# Which pages the allocator hands out next

`nextPages n m` are the pages that `n` requests for one page get from the allocator, one after the
other.

`OpenEnd m pool k`: the pages from `k` on are free and the others are not, as in a pool from which
nothing was released.  In such a state the next request gets the pages from `k` on, so that a run of
PM can be followed without looking at the allocator.

`MemoryState.Room m pool n`: some free block has more than `n` pages.  Releasing pages keeps the
room, and a request uses up at most what it asks for.
-/

namespace Savannah

open Foundation MemoryState

/-! ### Single pages -/

/-- The pages that `n` requests for one page get. -/
def nextPages : ℕ → MemoryState → List ℕ
  | 0, _ => []
  | n + 1, m =>
    match allocMemPages 1 m with
    | .ok (a, m') => a :: nextPages n m'
    | .error _ => []

/-- The allocator after `n` requests for one page. -/
def afterPages : ℕ → MemoryState → MemoryState
  | 0, m => m
  | n + 1, m =>
    match allocMemPages 1 m with
    | .ok (_, m') => afterPages n m'
    | .error _ => m

/-- The next `n` requests for one page get one. -/
def MemoryState.HasPages (n : ℕ) (m : MemoryState) : Prop := 0 ∉ nextPages n m

instance (n : ℕ) (m : MemoryState) : Decidable (m.HasPages n) := inferInstanceAs (Decidable (¬ _))

/-- Requests one after the other. -/
theorem nextPages_add (n k : ℕ) (m : MemoryState) :
    nextPages (n + k) m = nextPages n m ++ nextPages k (afterPages n m) := by
  induction n generalizing m with
  | zero => rw [Nat.zero_add, nextPages, afterPages, List.nil_append]
  | succ n ih =>
    rw [Nat.add_right_comm, nextPages, nextPages, afterPages]
    cases hm : allocMemPages 1 m with
    | ok r => exact congrArg (List.cons r.1) (ih r.2)
    | error e =>
      cases k with
      | zero => rfl
      | succ k =>
        dsimp only
        rw [nextPages, hm]
        rfl

/-- What remains after `n` pages. -/
theorem MemoryState.HasPages.after {n k : ℕ} {m : MemoryState} (h : m.HasPages (n + k)) :
    (afterPages n m).HasPages k := fun hmem => by
  refine h ?_
  rw [nextPages_add]
  exact List.mem_append_right _ hmem

theorem MemoryState.HasPages.of_le {n k : ℕ} {m : MemoryState} (h : m.HasPages k) (hle : n ≤ k) :
    m.HasPages n := fun hmem => by
  refine h ?_
  rw [← Nat.add_sub_cancel' hle, nextPages_add]
  exact List.mem_append_left _ hmem

/-- One more page. -/
theorem nextPages_snoc {n a : ℕ} {m m' : MemoryState}
    (h : allocMemPages 1 (afterPages n m) = .ok (a, m')) :
    nextPages (n + 1) m = nextPages n m ++ [a] ∧ afterPages (n + 1) m = m' := by
  induction n generalizing m with
  | zero =>
    simp only [afterPages] at h
    simp only [nextPages, afterPages, h, List.nil_append, and_self]
  | succ n ih =>
    rw [afterPages] at h
    rw [nextPages, afterPages, nextPages]
    cases halloc : allocMemPages 1 m with
    | error e =>
      simp only [halloc] at h
      cases h
    | ok r =>
      obtain ⟨b, m₁⟩ := r
      simp only [halloc] at h ⊢
      obtain ⟨hnext, hafter⟩ := ih h
      rw [hnext, hafter]
      exact ⟨rfl, rfl⟩

/-! ### A pool that is free from some page on -/

/-- The pages below `k` are allocated and those from `k` on are free. -/
def OpenEnd (m : MemoryState) (pool k : ℕ) : Prop :=
  k < pool ∧ ∃ A, (∀ b ∈ A, 0 < b.ref) ∧ MemoryInv m pool (A ++ [⟨k, pool - k, 0⟩])

section OpenEnd

variable {m m' : MemoryState} {pool k n : ℕ}

/-- First fit passes over the allocated blocks. -/
theorem allocate_openEnd {A : List Block} (hA : ∀ b ∈ A, 0 < b.ref) {p : ℕ} (hn : n < p) :
    allocate n (A ++ [⟨k, p, 0⟩]) = some (k, A ++ [⟨k, n, 1⟩, ⟨k + n, p - n, 0⟩]) := by
  induction A with
  | nil => exact allocate_cons_cut rfl hn
  | cons b A ih =>
    obtain ⟨hb, hA⟩ := List.forall_mem_cons.mp hA
    rw [List.cons_append, allocate_cons_skip (Or.inl hb), ih hA]
    rfl

/-- The next request gets the first free pages. -/
theorem OpenEnd.alloc (h : OpenEnd m pool k) (hn : 0 < n) (hroom : k + n < pool) :
    ∃ m', allocMemPages n m = .ok (m.pageAddr k, m') ∧ m.pageAddr k ≠ 0 ∧ SameLayout m m' ∧
      OpenEnd m' pool (k + n) := by
  obtain ⟨-, A, hA, hinv⟩ := h
  have halloc := allocate_openEnd (k := k) hA (show n < pool - k by omega)
  have hff := hinv.layout.firstFree_pos
  rcases allocMemPages_eq hinv hn with ⟨hnone, -⟩ | ⟨a, L', m', hsome, hm', hlay, hinv'⟩
  · rw [halloc] at hnone
    cases hnone
  rw [halloc] at hsome
  obtain ⟨rfl, rfl⟩ := Prod.mk.inj (Option.some.inj hsome)
  refine ⟨m', hm', ?_, hlay, hroom, A ++ [⟨k, n, 1⟩], fun b hb => ?_, ?_⟩
  · unfold pageAddr
    omega
  · rcases List.mem_append.mp hb with hb | hb
    · exact hA b hb
    · rw [List.mem_singleton.mp hb]
      exact Nat.one_pos
  · rwa [List.append_assoc, List.singleton_append, show pool - (k + n) = pool - k - n by omega]

/-- After `memory_init` everything is free. -/
theorem openEnd_of_init {mem : ℕ → BlockNode} {last memSize : ℕ}
    (h : memoryInit mem last memSize = .ok m) (hsize : memSize < 2 ^ 43)
    (hpage : m.firstFreeAddr + 4096 ≤ memSize) :
    OpenEnd m ((memSize - m.firstFreeAddr) / 4096) 0 := by
  refine ⟨Nat.div_pos (by omega) (by norm_num), [], fun b hb => absurd hb List.not_mem_nil, ?_⟩
  exact memoryInit_inv h hsize hpage

/-- An open end gives pages in order. -/
theorem OpenEnd.nextPages_eq (h : OpenEnd m pool k) (hroom : k + n < pool) :
    nextPages n m = (List.range n).map fun i => m.pageAddr (k + i) := by
  induction n generalizing m k with
  | zero => rfl
  | succ n ih =>
    obtain ⟨m', hm', -, hlay, hopen⟩ := h.alloc Nat.one_pos (by omega)
    rw [nextPages, hm']
    dsimp only
    rw [ih hopen (by omega), List.range_succ_eq_map, List.map_cons, List.map_map]
    refine List.cons_eq_cons.mpr ⟨rfl, List.map_congr_left fun i _ => ?_⟩
    rw [hlay.pageAddr, Function.comp_apply, Nat.succ_eq_add_one, Nat.add_assoc, Nat.add_comm 1 i]

/-- An open end has its pages. -/
theorem OpenEnd.hasPages (h : OpenEnd m pool k) (hroom : k + n < pool) : m.HasPages n := by
  obtain ⟨-, A, -, hinv⟩ := id h
  have hff := hinv.layout.firstFree_pos
  intro hmem
  rw [h.nextPages_eq hroom] at hmem
  obtain ⟨i, -, hzero⟩ := List.mem_map.mp hmem
  unfold pageAddr at hzero
  omega

/-- After `memory_init` with room for the array of nodes and a page, the pool is empty. -/
theorem memoryInit_open {last memSize first : ℕ} (n : ℕ) (hlast : 0 < last) (hle : last ≤ memSize)
    (hn : n = (memSize - last) / 4096 + (if (memSize - last) % 4096 ≠ 0 then 1 else 0))
    (hpos : 0 < n) (hlt : n < 2 ^ 31) (hroom : n * 32 + last ≤ memSize) (hsize : memSize < 2 ^ 43)
    (hfirst : alignPage (last + n * 32) = first) (hpage : first + 4096 ≤ memSize) :
    ∃ m, memoryInit (fun _ => default) last memSize = .ok m ∧ m.firstFreeAddr = first ∧
      OpenEnd m ((memSize - first) / 4096) 0 ∧ Ledger m ((memSize - first) / 4096) 0 0 := by
  obtain ⟨m, hm, hff⟩ := memoryInit_returns (fun _ => default) hlast hle hn hpos hlt hroom hsize
  obtain rfl := hff.trans hfirst
  exact ⟨m, hm, rfl, openEnd_of_init hm hsize hpage, ledger_of_init hm hsize hpage⟩

/-- A machine with 1GB of memory, of which the first page is in use. -/
theorem memoryInit_1GB : ∃ m, memoryInit (fun _ => default) 4096 (2 ^ 30) = .ok m ∧
    m.firstFreeAddr = 0x801000 ∧ OpenEnd m 260095 0 ∧ Ledger m 260095 0 0 :=
  memoryInit_open 262143 (by norm_num) (by norm_num) (by norm_num) (by norm_num) (by norm_num)
    (by norm_num) (by norm_num) rfl (by norm_num)

end OpenEnd

/-! ### Room in a pool with released blocks -/

/-- Some free block has more than `n` pages. -/
def MemoryState.Room (m : MemoryState) (pool n : ℕ) : Prop := ∃ L, MemoryInv m pool L ∧ HasRoom n L

namespace MemoryState.Room

variable {m m' : MemoryState} {pool n k a : ℕ}

theorem of_le (h : m.Room pool k) (hle : n ≤ k) : m.Room pool n := by
  obtain ⟨L, hinv, hroom⟩ := h
  exact ⟨L, hinv, hroom.of_le hle⟩

/-- An open end is room. -/
theorem of_openEnd {i : ℕ} (h : OpenEnd m pool i) (hroom : i + n < pool) : m.Room pool n := by
  obtain ⟨-, A, -, hinv⟩ := h
  exact ⟨_, hinv, ⟨i, pool - i, 0⟩, by simp, rfl, by dsimp only; omega⟩

/-- A request for `k` pages uses up at most `k` pages of the room. -/
theorem alloc (h : m.Room pool (n + k)) (hk : 0 < k) :
    ∃ a m', allocMemPages k m = .ok (a, m') ∧ a ≠ 0 ∧ m'.Room pool n := by
  obtain ⟨L, hinv, hroom⟩ := h
  obtain ⟨i, M, halloc, hroom'⟩ := hroom.allocate
  have hff := hinv.layout.firstFree_pos
  rcases allocMemPages_eq hinv hk with ⟨hnone, -⟩ | ⟨j, L', m', hsome, hm', -, hinv'⟩
  · rw [halloc] at hnone
    cases hnone
  · rw [halloc] at hsome
    obtain ⟨rfl, rfl⟩ := Prod.mk.inj (Option.some.inj hsome)
    exact ⟨_, m', hm', by omega, M, hinv', hroom'⟩

/-- Releasing a block that is held keeps the room. -/
theorem free (h : m.Room pool n) (hfree : freeMemPages a m = .ok m') : m'.Room pool n := by
  obtain ⟨L, hinv, hroom⟩ := h
  cases hi : blockIndex m a with
  | error e =>
    simp only [freeMemPages, hi, bind, Except.bind] at hfree
    cases hfree
  | ok i =>
    by_cases hlive : (m.blockNodeArray i).bRef = 0
    · simp only [freeMemPages, hi, bind, Except.bind, if_pos hlive] at hfree
      cases hfree
    · obtain ⟨m₁, hm₁, -, hinv'⟩ := freeMemPages_eq hinv hi hlive
      rw [hm₁] at hfree
      obtain rfl := Except.ok.inj hfree
      exact ⟨_, hinv', hroom.release i⟩

end MemoryState.Room

/-- One more holder of a shared block keeps the room. -/
theorem Ledger.realloc_room {m m' : MemoryState} {pool a n k r : ℕ} {X S : Multiset (ℕ × ℕ)}
    (h : Ledger m pool X S) (hx : (a, n) ∈ S) (hcard : Multiset.card S < 2 ^ 32 - 1)
    (hroom : m.Room pool k) (hm : reallocMemBlock a m = .ok (r, m')) : m'.Room pool k := by
  obtain ⟨L, hinv, hL⟩ := hroom
  obtain ⟨-, b, -, -, -, -, -, hidx, href⟩ := h.node (Multiset.mem_add.mpr (Or.inr hx))
  have hcount : (X + S).count (a, n) = S.count (a, n) := by
    rw [Multiset.count_add, Multiset.count_eq_zero.mpr fun hX => h.disjoint _ hX hx, zero_add]
  have hpos : 0 < S.count (a, n) := Multiset.count_pos.mpr hx
  have hle := Multiset.count_le_card (a, n) S
  obtain ⟨m₁, hm₁, -, hinv'⟩ := reallocMemBlock_eq hinv hidx (by omega) (by omega)
  obtain ⟨c, hc, hstart, -⟩ := hinv.exists_live (blockIndex_lt hidx) (by omega)
  rw [hm₁] at hm
  obtain ⟨-, rfl⟩ := Prod.mk.inj (Except.ok.inj hm)
  rw [← hstart] at hinv'
  exact ⟨_, hinv', hL.share hinv.tiles hc⟩

end Savannah
