import Savannah.Foundation.Run
import Savannah.Foundation.BlockList
import Savannah.Foundation.DoublyLinked
import Savannah.Memory.Defs

/-!
# The node array refines a list of blocks

`Represents s L` relates the node array of the allocator to an abstract list of blocks: the nodes
reached from `blist` are the blocks of `L` in order, linked both ways, each at the array entry of
its first page, and every other entry has `b_ref = 0`.  `MemoryInv s pool L` adds the layout of the
pool and the invariants of the list.

For each function of the allocator one lemma says which list operation it performs:
`allocMemPages_eq` (`allocate`), `reallocMemBlock_eq` (`share`) and `freeMemPages_eq` (`release`).
-/

namespace Savannah

open Foundation

namespace MemoryState

variable {s : MemoryState} {i j k : ℕ} {o v : Option ℕ} {f : BlockNode → BlockNode}

/-- One node changes. -/
theorem setNode_node (s : MemoryState) (i : ℕ) (f : BlockNode → BlockNode) (k : ℕ) :
    (s.setNode i f).blockNodeArray k =
      if k = i then f (s.blockNodeArray i) else s.blockNodeArray k := by
  simp [setNode, Function.update_apply]

theorem setNode_self : (s.setNode i f).blockNodeArray i = f (s.blockNodeArray i) := by
  rw [setNode_node, if_pos rfl]

theorem setNode_ne (h : k ≠ i) : (s.setNode i f).blockNodeArray k = s.blockNodeArray k := by
  rw [setNode_node, if_neg h]

/-- One link back changes. -/
theorem setPre_node (s : MemoryState) (o v : Option ℕ) (k : ℕ) :
    (s.setPre o v).blockNodeArray k =
      if o = some k then { s.blockNodeArray k with pre := v } else s.blockNodeArray k := by
  cases o with
  | none => simp [setPre]
  | some m =>
    simp only [setPre, setNode_node, Option.some.injEq]
    by_cases h : k = m
    · subst h; simp
    · rw [if_neg h, if_neg (Ne.symm h)]

/-- The variables that only `memory_init` assigns. -/
structure SameLayout (s s' : MemoryState) : Prop where
  lastIdx : s'.blockNodeArrayLastIdx = s.blockNodeArrayLastIdx
  firstFree : s'.firstFreeAddr = s.firstFreeAddr
  allNodes : s'.allNodes = s.allNodes
  blist : s'.blist = s.blist

theorem SameLayout.refl (s : MemoryState) : SameLayout s s := ⟨rfl, rfl, rfl, rfl⟩

theorem SameLayout.trans {s t u : MemoryState} (h₁ : SameLayout s t) (h₂ : SameLayout t u) :
    SameLayout s u :=
  ⟨h₂.1.trans h₁.1, h₂.2.trans h₁.2, h₂.3.trans h₁.3, h₂.4.trans h₁.4⟩

theorem SameLayout.symm {s t : MemoryState} (h : SameLayout s t) : SameLayout t s :=
  ⟨h.1.symm, h.2.symm, h.3.symm, h.4.symm⟩

theorem sameLayout_setNode (s : MemoryState) (i : ℕ) (f : BlockNode → BlockNode) :
    SameLayout s (s.setNode i f) := ⟨rfl, rfl, rfl, rfl⟩

theorem sameLayout_setPre (s : MemoryState) (o v : Option ℕ) : SameLayout s (s.setPre o v) := by
  cases o with
  | none => exact .refl s
  | some k => exact ⟨rfl, rfl, rfl, rfl⟩

theorem sameLayout_fuse (s : MemoryState) (i j : ℕ) : SameLayout s (s.fuse i j) :=
  (sameLayout_setNode s i _).trans (sameLayout_setPre _ _ _)

end MemoryState

open MemoryState

/-- The node array of `s`, read from `blist`, is the block list `L`. -/
structure Represents (s : MemoryState) (L : List Block) : Prop where
  blist : s.blist = (L.map Block.start).head?
  links : Links (fun i => (s.blockNodeArray i).next) (fun i => (s.blockNodeArray i).pre) none
    (L.map Block.start) none
  addr : ∀ b ∈ L, (s.blockNodeArray b.start).bStartAddr = s.firstFreeAddr + b.start * 4096
  pages : ∀ b ∈ L, (s.blockNodeArray b.start).bPages = b.pages
  ref : ∀ b ∈ L, (s.blockNodeArray b.start).bRef = b.ref
  stale : ∀ i < s.allNodes, i ∉ L.map Block.start → (s.blockNodeArray i).bRef = 0

/-- The layout that a successful `memory_init` leaves: a page aligned pool of `pool` pages with an
array entry for each of them, small enough for the `int` fields. -/
structure PoolLayout (s : MemoryState) (pool : ℕ) : Prop where
  lastIdx : s.blockNodeArrayLastIdx = s.allNodes
  allNodes_lt : s.allNodes < 2 ^ 31
  pool_pos : 0 < pool
  pool_le : pool ≤ s.allNodes
  aligned : s.firstFreeAddr % 4096 = 0
  firstFree_pos : 0 < s.firstFreeAddr
  stop_lt : s.firstFreeAddr + pool * 4096 < 2 ^ 43

/-- The representation invariant of the allocator with the abstract list it stands for. -/
structure MemoryInv (s : MemoryState) (pool : ℕ) (L : List Block) : Prop where
  layout : PoolLayout s pool
  rep : Represents s L
  tiles : Tiles 0 L pool
  coalesced : Coalesced L
  ref_lt : ∀ b ∈ L, b.ref < 2 ^ 32

/-- A call other than `memory_init` leaves the layout alone. -/
theorem PoolLayout.congr {s s' : MemoryState} {pool : ℕ} (h : PoolLayout s pool)
    (hs : SameLayout s s') : PoolLayout s' pool := by
  constructor
  · rw [hs.lastIdx, hs.allNodes]; exact h.lastIdx
  · rw [hs.allNodes]; exact h.allNodes_lt
  · exact h.pool_pos
  · rw [hs.allNodes]; exact h.pool_le
  · rw [hs.firstFree]; exact h.aligned
  · rw [hs.firstFree]; exact h.firstFree_pos
  · rw [hs.firstFree]; exact h.stop_lt

namespace MemoryInv

variable {s : MemoryState} {pool : ℕ} {L A C : List Block} {b : Block}

/-- The nodes of the list are entries of pool pages. -/
theorem start_lt (h : MemoryInv s pool L) (hb : b ∈ L) : b.start < pool := by
  obtain ⟨-, h₂, h₃⟩ := h.tiles.mem hb
  simp only [Block.stop] at h₃
  omega

/-- A block lies in the pool. -/
theorem pages_le (h : MemoryInv s pool L) (hb : b ∈ L) : b.start + b.pages ≤ pool :=
  (h.tiles.mem hb).2.2

/-- The size of a block is an `int`. -/
theorem pages_lt (h : MemoryInv s pool L) (hb : b ∈ L) : b.pages < 2 ^ 31 := by
  have h₁ := h.pages_le hb
  have h₂ := h.layout.pool_le
  have h₃ := h.layout.allNodes_lt
  omega

/-- The page count of a node, read as a `size_t`, is that of its block. -/
theorem toSize_pages (h : MemoryInv s pool L) (hb : b ∈ L) :
    toSize (s.blockNodeArray b.start).bPages = b.pages := by
  have hlt := h.pages_lt hb
  rw [h.rep.pages b hb, toSize_natCast (by omega)]

/-- The address of a pool page passes the checks and selects its own entry. -/
theorem blockIndex_pool (h : MemoryInv s pool L) {i : ℕ} (hi : i < pool) :
    blockIndex s (s.firstFreeAddr + i * 4096) = .ok i := by
  have hal := h.layout.aligned
  have hle := h.layout.pool_le
  have hlt := h.layout.allNodes_lt
  have hidx : int32 ((s.firstFreeAddr + i * 4096 - s.firstFreeAddr) / 4096 : ℕ) = i := by
    rw [Nat.add_sub_cancel_left, Nat.mul_div_cancel _ (by norm_num)]
    exact int32_of_lt (by omega)
  unfold blockIndex
  rw [if_neg (by omega), if_neg (by omega)]
  simp only [hidx, h.layout.lastIdx]
  rw [if_neg (by omega), if_pos (by omega)]
  simp

end MemoryInv

/-! ### Edits of the array -/

section Edits

variable {s : MemoryState} {A C : List Block} {b c : Block}

/-- In a list with distinct starts, the blocks around `b` start elsewhere. -/
private theorem start_ne_of_nodup (hnd : ((A ++ b :: C).map Block.start).Nodup) (hc : c ∈ A ++ C) :
    c.start ≠ b.start := by
  rw [List.map_append, List.map_cons, List.nodup_middle, List.nodup_cons, ← List.map_append] at hnd
  exact fun h => hnd.1 (List.mem_map.mpr ⟨c, hc, h⟩)

/-- No other block starts there. -/
private theorem start_notMem (hnd : ((A ++ b :: C).map Block.start).Nodup) :
    b.start ∉ A.map Block.start ∧ b.start ∉ C.map Block.start := by
  constructor <;>
  · intro hm
    obtain ⟨c, hc, hcb⟩ := List.mem_map.mp hm
    exact start_ne_of_nodup hnd (by simp [hc]) hcb

/-- Assigning the count and the size of one node changes one block of the list. -/
theorem Represents.setData (h : Represents s (A ++ b :: C))
    (hnd : ((A ++ b :: C).map Block.start).Nodup) {f : BlockNode → BlockNode} {b' : Block}
    (hlink : ∀ d, (f d).next = d.next ∧ (f d).pre = d.pre ∧ (f d).bStartAddr = d.bStartAddr)
    (hstart : b'.start = b.start)
    (hpages : (f (s.blockNodeArray b.start)).bPages = b'.pages)
    (href : (f (s.blockNodeArray b.start)).bRef = b'.ref) :
    Represents (s.setNode b.start f) (A ++ b' :: C) := by
  have hmap : (A ++ b' :: C).map Block.start = (A ++ b :: C).map Block.start := by
    simp [hstart]
  have hb : b ∈ A ++ b :: C := by simp
  have hmem : ∀ d ∈ A ++ b' :: C, d = b' ∨ (d ∈ A ++ b :: C ∧ d.start ≠ b.start) := by
    intro d hd
    rcases List.mem_append.mp hd with hd | hd
    · exact Or.inr ⟨by simp [hd], start_ne_of_nodup hnd (by simp [hd])⟩
    · rcases List.mem_cons.mp hd with rfl | hd
      · exact Or.inl rfl
      · exact Or.inr ⟨by simp [hd], start_ne_of_nodup hnd (by simp [hd])⟩
  constructor
  · rw [hmap]
    exact h.blist
  · rw [hmap]
    refine h.links.congr fun k _ => ?_
    by_cases hk : k = b.start
    · subst hk
      rw [setNode_self]
      exact ⟨(hlink _).1, (hlink _).2.1⟩
    · rw [setNode_ne hk]
      exact ⟨rfl, rfl⟩
  · intro d hd
    rcases hmem d hd with rfl | ⟨hd, hne⟩
    · rw [hstart, setNode_self, (hlink _).2.2]
      exact h.addr b hb
    · rw [setNode_ne hne]
      exact h.addr d hd
  · intro d hd
    rcases hmem d hd with rfl | ⟨hd, hne⟩
    · rw [hstart, setNode_self, hpages]
    · rw [setNode_ne hne]
      exact h.pages d hd
  · intro d hd
    rcases hmem d hd with rfl | ⟨hd, hne⟩
    · rw [hstart, setNode_self, href]
    · rw [setNode_ne hne]
      exact h.ref d hd
  · intro i hi hiL
    rw [hmap] at hiL
    have hne : i ≠ b.start := fun h => hiL (h ▸ List.mem_map.mpr ⟨b, hb, rfl⟩)
    rw [setNode_ne hne]
    exact h.stale i hi hiL

/-- The entries after `fuse`: the left node takes over size and successor of the right one, whose
successor points back to the left node. -/
theorem fuse_node (s : MemoryState) (i j k : ℕ) :
    (s.fuse i j).blockNodeArray k =
      if (s.blockNodeArray j).next = some k then
        { (if k = i then
            { s.blockNodeArray i with
              bPages := int32 ((s.blockNodeArray i).bPages + (s.blockNodeArray j).bPages)
              next := (s.blockNodeArray j).next }
          else s.blockNodeArray k) with pre := some i }
      else if k = i then
        { s.blockNodeArray i with
          bPages := int32 ((s.blockNodeArray i).bPages + (s.blockNodeArray j).bPages)
          next := (s.blockNodeArray j).next }
      else s.blockNodeArray k := by
  simp only [MemoryState.fuse, setPre_node, setNode_node]

section FuseNode

variable {i j k : ℕ}

/-- The first node takes both sizes. -/
theorem fuse_left (hi : (s.blockNodeArray j).next ≠ some i) :
    (s.fuse i j).blockNodeArray i =
      { s.blockNodeArray i with
        bPages := int32 ((s.blockNodeArray i).bPages + (s.blockNodeArray j).bPages)
        next := (s.blockNodeArray j).next } := by
  rw [fuse_node, if_neg hi, if_pos rfl]

/-- The node after the two is linked back. -/
theorem fuse_succ (hk : (s.blockNodeArray j).next = some k) (hki : k ≠ i) :
    (s.fuse i j).blockNodeArray k = { s.blockNodeArray k with pre := some i } := by
  rw [fuse_node, if_pos hk, if_neg hki]

/-- The other nodes stay. -/
theorem fuse_other (hk : (s.blockNodeArray j).next ≠ some k) (hki : k ≠ i) :
    (s.fuse i j).blockNodeArray k = s.blockNodeArray k := by
  rw [fuse_node, if_neg hk, if_neg hki]

/-- `fuse` assigns no address, no count, and the size of the left node only. -/
theorem fuse_data (s : MemoryState) (i j k : ℕ) :
    ((s.fuse i j).blockNodeArray k).bStartAddr = (s.blockNodeArray k).bStartAddr ∧
      ((s.fuse i j).blockNodeArray k).bRef = (s.blockNodeArray k).bRef ∧
      (k ≠ i → ((s.fuse i j).blockNodeArray k).bPages = (s.blockNodeArray k).bPages) := by
  rw [fuse_node]
  by_cases hk : k = i
  · subst hk
    split <;> simp
  · split <;> simp [hk]

end FuseNode

/-- The head of a list of distinct nodes is not in its tail. -/
private theorem head?_ne_of_mem_tail {l : List ℕ} {k : ℕ} (hnd : l.Nodup) (hk : k ∈ l.tail) :
    l.head? ≠ some k := fun hhead => by
  rw [List.eq_cons_of_mem_head? hhead, List.nodup_cons] at hnd
  exact hnd.1 hk

/-- The links after `fuse`: the right node is unlinked. -/
theorem Represents.fuse_links {i j : ℕ} {A' C' : List ℕ}
    (hL : Links (fun i => (s.blockNodeArray i).next) (fun i => (s.blockNodeArray i).pre) none
      (A' ++ i :: j :: C') none)
    (hnd : (A' ++ i :: j :: C').Nodup) :
    (s.blockNodeArray j).next ≠ some i ∧
      Links (fun k => ((s.fuse i j).blockNodeArray k).next)
        (fun k => ((s.fuse i j).blockNodeArray k).pre) none (A' ++ i :: C') none := by
  -- the successor of the right node is the first node of `C'`
  have hnext : (s.blockNodeArray j).next = C'.head? := by
    have hsplit : A' ++ i :: j :: C' = (A' ++ [i]) ++ j :: C' := by simp
    rw [hsplit] at hL
    exact hL.next_eq
  have hhead : ∀ k, (s.blockNodeArray j).next = some k → k ∈ C' := fun k hk =>
    List.mem_of_mem_head? (hnext ▸ hk)
  obtain ⟨hndA, hndC, hdisj⟩ := List.nodup_append.mp hnd
  simp only [List.nodup_cons, List.mem_cons, not_or] at hndC
  obtain ⟨⟨-, hiC⟩, -, hndC⟩ := hndC
  have hiA : i ∉ A' := fun hm => hdisj _ hm _ List.mem_cons_self rfl
  have hni : (s.blockNodeArray j).next ≠ some i := fun h => hiC (hhead i h)
  refine ⟨hni, hL.removeAfter ⟨by rw [fuse_left hni], by rw [fuse_left hni]⟩ ?_ ?_ ?_⟩
  · intro k hk
    rw [← hnext] at hk
    have hki : k ≠ i := fun h => hiC (h ▸ hhead k hk)
    rw [fuse_succ hk hki]
    exact ⟨rfl, rfl⟩
  · intro k hk
    have hki : k ≠ i := fun h => hiC (h ▸ List.mem_of_mem_tail hk)
    rw [fuse_other (hnext ▸ head?_ne_of_mem_tail hndC hk) hki]
    exact ⟨rfl, rfl⟩
  · intro k hk
    have hki : k ≠ i := fun h => hiA (h ▸ hk)
    have hkh : (s.blockNodeArray j).next ≠ some k := fun hkh =>
      hdisj k hk k (List.mem_cons_of_mem _ (List.mem_cons_of_mem _ (hhead k hkh))) rfl
    rw [fuse_other hkh hki]
    exact ⟨rfl, rfl⟩

/-- Joining a free block to its left neighbour. -/
theorem Represents.fuse (h : Represents s (A ++ b :: c :: C))
    (hnd : ((A ++ b :: c :: C).map Block.start).Nodup) (hsum : b.pages + c.pages < 2 ^ 31)
    (hfree : c.ref = 0) :
    Represents (s.fuse b.start c.start) (A ++ { b with pages := b.pages + c.pages } :: C) := by
  have hlay := sameLayout_fuse s b.start c.start
  have hdata := fuse_data s b.start c.start
  have hb : b ∈ A ++ b :: c :: C := by simp
  have hc : c ∈ A ++ b :: c :: C := by simp
  have hmem : ∀ d ∈ A ++ { b with pages := b.pages + c.pages } :: C,
      d = { b with pages := b.pages + c.pages } ∨ (d ∈ A ++ b :: c :: C ∧ d.start ≠ b.start) := by
    intro d hd
    simp only [List.mem_append, List.mem_cons] at hd
    rcases hd with hd | rfl | hd
    · exact Or.inr ⟨by simp [hd], start_ne_of_nodup hnd (by simp [hd])⟩
    · exact Or.inl rfl
    · exact Or.inr ⟨by simp [hd], start_ne_of_nodup hnd (by simp [hd])⟩
  have hL := h.links
  simp only [List.map_append, List.map_cons] at hL hnd
  obtain ⟨hni, hlinks⟩ := Represents.fuse_links hL hnd
  constructor
  · rw [hlay.blist, h.blist]
    simp
  · simpa only [List.map_append, List.map_cons] using hlinks
  · intro d hd
    rw [hlay.firstFree, (hdata _).1]
    rcases hmem d hd with rfl | ⟨hd, -⟩
    · exact h.addr b hb
    · exact h.addr d hd
  · intro d hd
    rcases hmem d hd with rfl | ⟨hd, hne⟩
    · rw [fuse_left hni, h.pages b hb, h.pages c hc, ← Nat.cast_add, int32_of_lt hsum]
    · rw [(hdata _).2.2 hne]
      exact h.pages d hd
  · intro d hd
    rw [(hdata _).2.1]
    rcases hmem d hd with rfl | ⟨hd, -⟩
    · exact h.ref b hb
    · exact h.ref d hd
  · intro k hk hkL
    rw [(hdata k).2.1]
    rw [hlay.allNodes] at hk
    by_cases hkj : k = c.start
    · rw [hkj, h.ref c hc, hfree]
    · refine h.stale k hk ?_
      simp only [List.map_append, List.map_cons, List.mem_append, List.mem_cons] at hkL ⊢
      tauto

/-- The assignments of `alloc_mem_pages` that cut `n` pages off the block of node `i`; `j` is the
node of the remainder. -/
def MemoryState.cut (s : MemoryState) (n i j addr : ℕ) : MemoryState :=
  let current := s.blockNodeArray i
  let s := s.setNode j fun b =>
    { b with
      bStartAddr := addr
      bPages := int32 (toSize current.bPages - n : ℕ)
      pre := some i
      next := current.next }
  let s := s.setPre current.next (some j)
  let s := s.setNode j fun b => { b with bRef := 0 }
  s.setNode i fun b => { b with bPages := int32 n, bRef := 1, next := some j }

theorem sameLayout_cut (s : MemoryState) (n i j addr : ℕ) : SameLayout s (s.cut n i j addr) := by
  unfold MemoryState.cut
  exact ((sameLayout_setNode _ _ _).trans (sameLayout_setPre _ _ _)).trans
    ((sameLayout_setNode _ _ _).trans (sameLayout_setNode _ _ _))

section CutNode

variable {n i j k a : ℕ}

/-- The first part is in use. -/
theorem cut_left (hij : i ≠ j) (hi : (s.blockNodeArray i).next ≠ some i) :
    (s.cut n i j a).blockNodeArray i =
      { s.blockNodeArray i with bPages := int32 n, bRef := 1, next := some j } := by
  simp [MemoryState.cut, setPre_node, setNode_node, hij, hi]

/-- The second part is free. -/
theorem cut_right (hij : i ≠ j) (hj : (s.blockNodeArray i).next ≠ some j) :
    (s.cut n i j a).blockNodeArray j =
      ⟨a, int32 (toSize (s.blockNodeArray i).bPages - n : ℕ), 0, (s.blockNodeArray i).next,
        some i⟩ := by
  simp [MemoryState.cut, setPre_node, setNode_node, hij.symm, hj]

/-- The node after the two is linked back. -/
theorem cut_succ (hk : (s.blockNodeArray i).next = some k) (hki : k ≠ i) (hkj : k ≠ j) :
    (s.cut n i j a).blockNodeArray k = { s.blockNodeArray k with pre := some j } := by
  simp [MemoryState.cut, setPre_node, setNode_node, hki, hkj, hk]

/-- The other nodes stay. -/
theorem cut_other (hk : (s.blockNodeArray i).next ≠ some k) (hki : k ≠ i) (hkj : k ≠ j) :
    (s.cut n i j a).blockNodeArray k = s.blockNodeArray k := by
  simp [MemoryState.cut, setPre_node, setNode_node, hki, hkj, hk]

/-- Away from the two nodes of the cut no data is assigned. -/
theorem cut_data (hki : k ≠ i) (hkj : k ≠ j) :
    ((s.cut n i j a).blockNodeArray k).bStartAddr = (s.blockNodeArray k).bStartAddr ∧
      ((s.cut n i j a).blockNodeArray k).bRef = (s.blockNodeArray k).bRef ∧
      ((s.cut n i j a).blockNodeArray k).bPages = (s.blockNodeArray k).bPages := by
  by_cases hk : (s.blockNodeArray i).next = some k
  · rw [cut_succ hk hki hkj]
    exact ⟨rfl, rfl, rfl⟩
  · rw [cut_other hk hki hkj]
    exact ⟨rfl, rfl, rfl⟩

end CutNode

/-- The links after a cut: the node of the remainder is linked in behind the block. -/
theorem Represents.cut_links {n i j a : ℕ} {A' C' : List ℕ}
    (hL : Links (fun i => (s.blockNodeArray i).next) (fun i => (s.blockNodeArray i).pre) none
      (A' ++ i :: C') none)
    (hnd : (A' ++ i :: C').Nodup) (hj : j ∉ A' ++ i :: C') :
    (s.blockNodeArray i).next ≠ some i ∧ (s.blockNodeArray i).next ≠ some j ∧
      Links (fun k => ((s.cut n i j a).blockNodeArray k).next)
        (fun k => ((s.cut n i j a).blockNodeArray k).pre) none (A' ++ i :: j :: C') none := by
  have hnext : (s.blockNodeArray i).next = C'.head? := hL.next_eq
  have hhead : ∀ k, (s.blockNodeArray i).next = some k → k ∈ C' := fun k hk =>
    List.mem_of_mem_head? (hnext ▸ hk)
  simp only [List.mem_append, List.mem_cons, not_or] at hj
  obtain ⟨hjA, hji, hjC⟩ := hj
  obtain ⟨hndA, hndC, hdisj⟩ := List.nodup_append.mp hnd
  obtain ⟨hiC, hndC⟩ := List.nodup_cons.mp hndC
  have hiA : i ∉ A' := fun hm => hdisj _ hm _ List.mem_cons_self rfl
  have hni : (s.blockNodeArray i).next ≠ some i := fun h => hiC (hhead i h)
  have hnj : (s.blockNodeArray i).next ≠ some j := fun h => hjC (hhead j h)
  refine ⟨hni, hnj, hL.insertAfter ?_ ?_ ?_ ?_ ?_⟩
  · rw [cut_left (Ne.symm hji) hni]
    exact ⟨rfl, rfl⟩
  · rw [cut_right (Ne.symm hji) hnj]
    exact ⟨rfl, rfl⟩
  · intro k hk
    rw [← hnext] at hk
    have hki : k ≠ i := fun h => hiC (h ▸ hhead k hk)
    have hkj : k ≠ j := fun h => hjC (h ▸ hhead k hk)
    rw [cut_succ hk hki hkj]
    exact ⟨rfl, rfl⟩
  · intro k hk
    have hki : k ≠ i := fun h => hiC (h ▸ List.mem_of_mem_tail hk)
    have hkj : k ≠ j := fun h => hjC (h ▸ List.mem_of_mem_tail hk)
    rw [cut_other (hnext ▸ head?_ne_of_mem_tail hndC hk) hki hkj]
    exact ⟨rfl, rfl⟩
  · intro k hk
    have hki : k ≠ i := fun h => hiA (h ▸ hk)
    have hkj : k ≠ j := fun h => hjA (h ▸ hk)
    have hkh : (s.blockNodeArray i).next ≠ some k := fun hkh =>
      hdisj k hk k (List.mem_cons_of_mem _ (hhead k hkh)) rfl
    rw [cut_other hkh hki hkj]
    exact ⟨rfl, rfl⟩

/-- Cutting a free block in two. -/
theorem Represents.cut {n : ℕ} (h : Represents s (A ++ b :: C))
    (hnd : ((A ++ b :: C).map Block.start).Nodup)
    (hj : b.start + n ∉ (A ++ b :: C).map Block.start)
    (hpages : b.pages < 2 ^ 31) (hn : n < b.pages) :
    Represents (s.cut n b.start (b.start + n) (s.firstFreeAddr + (b.start + n) * 4096))
      (A ++ ⟨b.start, n, 1⟩ :: ⟨b.start + n, b.pages - n, 0⟩ :: C) := by
  set j := b.start + n with hjdef
  set addr := s.firstFreeAddr + j * 4096 with haddr
  have hlay := sameLayout_cut s n b.start j addr
  have hb : b ∈ A ++ b :: C := by simp
  have hbj : b.start ≠ j := fun hbj => hj (hbj ▸ List.mem_map.mpr ⟨b, hb, rfl⟩)
  have hmem : ∀ d ∈ A ++ ⟨b.start, n, 1⟩ :: ⟨j, b.pages - n, 0⟩ :: C,
      d = ⟨b.start, n, 1⟩ ∨ d = ⟨j, b.pages - n, 0⟩ ∨
        (d ∈ A ++ b :: C ∧ d.start ≠ b.start ∧ d.start ≠ j) := by
    intro d hd
    have hne : ∀ d ∈ A ++ C, d ∈ A ++ b :: C ∧ d.start ≠ b.start ∧ d.start ≠ j := by
      intro d hd
      have hdL : d ∈ A ++ b :: C := by
        simp only [List.mem_append, List.mem_cons] at hd ⊢
        tauto
      exact ⟨hdL, start_ne_of_nodup hnd hd, fun h => hj (h ▸ List.mem_map.mpr ⟨d, hdL, rfl⟩)⟩
    simp only [List.mem_append, List.mem_cons] at hd
    rcases hd with hd | rfl | rfl | hd
    · exact Or.inr (Or.inr (hne d (by simp [hd])))
    · exact Or.inl rfl
    · exact Or.inr (Or.inl rfl)
    · exact Or.inr (Or.inr (hne d (by simp [hd])))
  have hL := h.links
  simp only [List.map_append, List.map_cons] at hL hnd hj
  obtain ⟨hni, hnj, hlinks⟩ := Represents.cut_links (n := n) (a := addr) hL hnd hj
  have hleft := cut_left (n := n) (a := addr) hbj hni
  have hright := cut_right (n := n) (a := addr) hbj hnj
  have hsize : toSize (s.blockNodeArray b.start).bPages = b.pages := by
    rw [h.pages b hb, toSize_natCast (by omega)]
  constructor
  · rw [hlay.blist, h.blist]
    simp
  · simpa only [List.map_append, List.map_cons] using hlinks
  · intro d hd
    rw [hlay.firstFree]
    rcases hmem d hd with rfl | rfl | ⟨hd, hdb, hdj⟩
    · rw [hleft]
      exact h.addr b hb
    · rw [hright]
    · rw [(cut_data hdb hdj).1]
      exact h.addr d hd
  · intro d hd
    rcases hmem d hd with rfl | rfl | ⟨hd, hdb, hdj⟩
    · rw [hleft]
      dsimp only
      rw [int32_of_lt (hn.trans hpages)]
    · rw [hright, hsize]
      dsimp only
      rw [int32_of_lt ((Nat.sub_le _ _).trans_lt hpages)]
    · rw [(cut_data hdb hdj).2.2]
      exact h.pages d hd
  · intro d hd
    rcases hmem d hd with rfl | rfl | ⟨hd, hdb, hdj⟩
    · rw [hleft]
    · rw [hright]
    · rw [(cut_data hdb hdj).2.1]
      exact h.ref d hd
  · intro k hk hkL
    simp only [List.map_append, List.map_cons, List.mem_append, List.mem_cons, not_or] at hkL
    obtain ⟨hkA, hkb, hkj, hkC⟩ := hkL
    rw [(cut_data hkb hkj).2.1]
    rw [hlay.allNodes] at hk
    refine h.stale k hk ?_
    simp [hkA, hkb, hkC]

end Edits

/-! ### The functions of the allocator -/

section Functions

variable {s : MemoryState} {pool n : ℕ} {L A C : List Block} {b : Block}

/-- Changing the list inside the invariant. -/
theorem MemoryInv.of_represents {s' : MemoryState} {L' : List Block} (h : MemoryInv s pool L)
    (hs : SameLayout s s') (hrep : Represents s' L') (htiles : Tiles 0 L' pool)
    (hco : Coalesced L') (href : ∀ b ∈ L', b.ref < 2 ^ 32) : MemoryInv s' pool L' :=
  ⟨h.layout.congr hs, hrep, htiles, hco, href⟩

/-- The entry of a pool page that starts no block may be taken for a new one. -/
theorem MemoryInv.allocBlockNode_pool (h : MemoryInv s pool L) {j : ℕ} (hj : j < pool)
    (hjL : j ∉ L.map Block.start) : allocBlockNode s (s.firstFreeAddr + j * 4096) = .ok j := by
  have hstale := h.rep.stale j (hj.trans_le h.layout.pool_le) hjL
  simp only [allocBlockNode, h.blockIndex_pool hj, bind, Except.bind, hstale]
  rfl

/-- No block starts inside another one. -/
theorem MemoryInv.inner_notMem (h : MemoryInv s pool L) (hb : b ∈ L) (hn : 0 < n)
    (hlt : n < b.pages) : b.start + n ∉ L.map Block.start := by
  intro hmem
  obtain ⟨c, hc, hcb⟩ := List.mem_map.mp hmem
  have hcpos := (h.tiles.mem hc).2.1
  have hbc : b = c := h.tiles.eq_of_has (p := b.start + n) hb hc
    ⟨by omega, by simp only [Block.stop]; omega⟩ ⟨hcb.le, by simp only [Block.stop]; omega⟩
  subst hbc
  omega

/-- The search of `alloc_mem_pages`, from the node of the first block of `C` on, is first fit on
`C`. -/
theorem allocLoop_eq (hn : 0 < n) (h : MemoryInv s pool (A ++ C)) {fuel : ℕ}
    (hfuel : C.length < fuel) :
    (allocate n C = none ∧ allocLoop n s fuel (C.map Block.start).head? = .ok (0, s)) ∨
      ∃ a C' s', allocate n C = some (a, C') ∧
        allocLoop n s fuel (C.map Block.start).head? = .ok (s.firstFreeAddr + a * 4096, s') ∧
        SameLayout s s' ∧ Represents s' (A ++ C') := by
  induction C generalizing A fuel with
  | nil =>
    refine Or.inl ⟨rfl, ?_⟩
    cases fuel <;> rfl
  | cons b C ih =>
    obtain ⟨fuel, rfl⟩ : ∃ f, fuel = f + 1 := ⟨fuel - 1, by omega⟩
    have hb : b ∈ A ++ b :: C := by simp
    have hnd := h.tiles.nodup_starts
    have hsize := h.toSize_pages hb
    have href := h.rep.ref b hb
    have haddr := h.rep.addr b hb
    have hnext : (s.blockNodeArray b.start).next = (C.map Block.start).head? := by
      have hL := h.rep.links
      rw [List.map_append, List.map_cons] at hL
      exact hL.next_eq
    simp only [List.map_cons, List.head?_cons, allocLoop, hsize, href]
    by_cases hskip : b.ref > 0 ∨ b.pages < n
    · rw [if_pos hskip, allocate_cons_skip hskip, hnext]
      have h' : MemoryInv s pool ((A ++ [b]) ++ C) := by simpa using h
      have hfuel' : C.length < fuel := by
        simp only [List.length_cons] at hfuel
        omega
      rcases ih h' hfuel' with
        ⟨hnone, hloop⟩ | ⟨a, C', s', hsome, hloop, hlay, hrep⟩
      · exact Or.inl ⟨by rw [hnone]; rfl, hloop⟩
      · exact Or.inr ⟨a, b :: C', s', by rw [hsome]; rfl, hloop, hlay, by simpa using hrep⟩
    · rw [if_neg hskip]
      have hfree : b.IsFree := by simp only [Block.IsFree]; omega
      by_cases hwhole : b.pages = n
      · subst hwhole
        rw [if_pos rfl, allocate_cons_whole hfree, haddr]
        refine Or.inr ⟨b.start, _, _, rfl, rfl, sameLayout_setNode _ _ _, ?_⟩
        exact h.rep.setData hnd (fun d => ⟨rfl, rfl, rfl⟩) rfl (h.rep.pages b hb) rfl
      · have hlt : n < b.pages := by omega
        rw [if_neg hwhole, allocate_cons_cut hfree hlt]
        have hjpool : b.start + n < pool := by
          have := h.pages_le hb
          omega
        have hjL := h.inner_notMem hb hn hlt
        have hwrap : ((s.blockNodeArray b.start).bStartAddr + n * 4096) % 2 ^ 64 =
            s.firstFreeAddr + (b.start + n) * 4096 := by
          have hstop := h.layout.stop_lt
          rw [haddr]
          omega
        have halloc := h.allocBlockNode_pool hjpool hjL
        simp only [hwrap, halloc, bind, Except.bind]
        refine Or.inr ⟨b.start, _, _, rfl, ?_, sameLayout_cut s n b.start (b.start + n)
          (s.firstFreeAddr + (b.start + n) * 4096), h.rep.cut hnd hjL (h.pages_lt hb) hlt⟩
        rw [haddr]
        simp only [MemoryState.cut, hsize]

/-- `alloc_mem_pages` is first fit on the block list. -/
theorem allocMemPages_eq (h : MemoryInv s pool L) (hn : 0 < n) :
    (allocate n L = none ∧ allocMemPages n s = .ok (0, s)) ∨
      ∃ a L' s', allocate n L = some (a, L') ∧
        allocMemPages n s = .ok (s.firstFreeAddr + a * 4096, s') ∧
        SameLayout s s' ∧ MemoryInv s' pool L' := by
  have hfuel : L.length < s.allNodes + 1 := by
    have h₁ := h.tiles.length_le
    have h₂ := h.layout.pool_le
    omega
  unfold allocMemPages
  rw [if_neg hn.ne', h.rep.blist]
  rcases allocLoop_eq (A := []) hn h hfuel with hnone | ⟨a, L', s', hsome, hloop, hlay, hrep⟩
  · exact Or.inl hnone
  · refine Or.inr ⟨a, L', s', hsome, hloop, hlay, ?_⟩
    refine h.of_represents hlay hrep (allocate_tiles hn h.tiles hsome)
      (allocate_coalesced h.coalesced hsome) fun c hc => ?_
    rcases Nat.eq_zero_or_pos c.ref with hzero | hpos
    · rw [hzero]
      norm_num
    · rcases (allocate_live hsome).mp ⟨hc, hpos⟩ with hold | rfl
      · exact h.ref_lt c hold.1
      · norm_num

/-- An index that passes the checks selects an entry of the array. -/
theorem blockIndex_lt {paddr i : ℕ} (hi : blockIndex s paddr = .ok i) : i < s.allNodes := by
  unfold blockIndex at hi
  split at hi
  · cases hi
  · split at hi
    · cases hi
    · dsimp only at hi
      split at hi
      · cases hi
      · split at hi
        · injection hi with hi
          omega
        · cases hi

/-- An entry with a positive count is the node of a live block. -/
theorem MemoryInv.exists_live (h : MemoryInv s pool L) {i : ℕ} (hi : i < s.allNodes)
    (href : (s.blockNodeArray i).bRef ≠ 0) :
    ∃ b, Live L b ∧ b.start = i ∧ (s.blockNodeArray i).bRef = b.ref := by
  by_cases hmem : i ∈ L.map Block.start
  · obtain ⟨b, hb, rfl⟩ := List.mem_map.mp hmem
    rw [h.rep.ref b hb] at href ⊢
    exact ⟨b, ⟨hb, Nat.pos_of_ne_zero href⟩, rfl, rfl⟩
  · exact absurd (h.rep.stale i hi hmem) href

/-- `realloc_mem_block` shares a live block, as long as its count does not overflow. -/
theorem reallocMemBlock_eq (h : MemoryInv s pool L) {paddr i : ℕ}
    (hi : blockIndex s paddr = .ok i) (hlive : (s.blockNodeArray i).bRef ≠ 0)
    (hmax : (s.blockNodeArray i).bRef ≠ 2 ^ 32 - 1) :
    ∃ s', reallocMemBlock paddr s = .ok (paddr, s') ∧ SameLayout s s' ∧
      MemoryInv s' pool (share i L) := by
  obtain ⟨b, hb, rfl, href⟩ := h.exists_live (blockIndex_lt hi) hlive
  obtain ⟨A, C, rfl⟩ := List.append_of_mem hb.1
  have hlt := h.ref_lt b hb.1
  have hnd := h.tiles.nodup_starts
  obtain ⟨hA, hC⟩ := start_notMem hnd
  have hlay := sameLayout_setNode s b.start fun d => { d with bRef := (d.bRef + 1) % 2 ^ 32 }
  refine ⟨_, by simp only [reallocMemBlock, hi, bind, Except.bind, hlive, if_false], hlay, ?_⟩
  refine h.of_represents hlay ?_ (share_tiles h.tiles) (share_coalesced h.coalesced) ?_
  · rw [share_append hA hC rfl]
    refine h.rep.setData hnd (fun d => ⟨rfl, rfl, rfl⟩) rfl (h.rep.pages b hb.1) ?_
    dsimp only
    rw [href, Nat.mod_eq_of_lt (by omega)]
  · intro c hc
    rw [share_append hA hC rfl] at hc
    simp only [List.mem_append, List.mem_cons] at hc
    rcases hc with hc | rfl | hc
    · exact h.ref_lt c (by simp [hc])
    · dsimp only
      omega
    · exact h.ref_lt c (by simp [hc])

/-- The representation only reads the array and the layout. -/
theorem Represents.congr {s' : MemoryState} (h : Represents s L) (hs : SameLayout s s')
    (harr : ∀ k, s'.blockNodeArray k = s.blockNodeArray k) : Represents s' L := by
  have harr' : s'.blockNodeArray = s.blockNodeArray := funext harr
  constructor
  · rw [hs.blist]; exact h.blist
  · rw [harr']; exact h.links
  · rw [harr', hs.firstFree]; exact h.addr
  · rw [harr']; exact h.pages
  · rw [harr']; exact h.ref
  · rw [harr', hs.allNodes]; exact h.stale

/-- Clearing a count that is already clear changes nothing. -/
private theorem setNode_clear {i : ℕ} (hi : (s.blockNodeArray i).bRef = 0) (k : ℕ) :
    (s.setNode i fun d => { d with bRef := 0 }).blockNodeArray k = s.blockNodeArray k := by
  rw [setNode_node]
  split
  · rename_i hk
    subst hk
    rw [← hi]
  · rfl

/-- Joining a block to its left neighbour does not read its count. -/
private theorem fuse_clear {i j : ℕ} (hij : i ≠ j) (k : ℕ) :
    ((s.fuse i j).setNode j fun d => { d with bRef := 0 }).blockNodeArray k =
      ((s.setNode j fun d => { d with bRef := 0 }).fuse i j).blockNodeArray k := by
  rw [setNode_node, fuse_node, fuse_node, fuse_node]
  simp only [setNode_node, if_neg hij, if_true]
  by_cases hkj : k = j
  · subst hkj
    simp only [if_true, if_neg hij.symm]
    split <;> rfl
  · simp only [if_neg hkj]

/-- The right half of the fusion in `free_mem_pages`: the block and what follows it become the head
of the fused list. -/
theorem fuseNext_eq (h : MemoryInv s pool (A ++ b :: C)) (href : b.ref = 1) :
    ∃ s' b' C', fuseNext b.start s = .ok s' ∧ SameLayout s s' ∧ b'.start = b.start ∧ b'.ref = 1 ∧
      fuseCons { b with ref := 0 } C = { b' with ref := 0 } :: C' ∧
      Represents s' (A ++ b' :: C') := by
  have hnd := h.tiles.nodup_starts
  have hL := h.rep.links
  rw [List.map_append, List.map_cons] at hL
  have hnext := hL.next_eq
  cases C with
  | nil =>
    refine ⟨s, b, [], ?_, .refl s, rfl, href, rfl, h.rep⟩
    simp only [fuseNext, hnext, List.map_nil, List.head?_nil]
  | cons c C =>
    have hc : c ∈ A ++ b :: c :: C := by simp
    have hcref := h.rep.ref c hc
    simp only [fuseNext, hnext, List.map_cons, List.head?_cons, hcref]
    by_cases hfree : c.ref = 0
    · have hpre : (s.blockNodeArray c.start).pre = some b.start := by
        rw [List.map_cons] at hL
        have hsplit : A.map Block.start ++ b.start :: c.start :: C.map Block.start =
            (A.map Block.start ++ [b.start]) ++ c.start :: C.map Block.start := by simp
        rw [hsplit] at hL
        simpa using hL.pre_eq
      have hhead : s.blist ≠ some c.start := by
        have hsplit : A ++ b :: c :: C = (A ++ [b]) ++ c :: C := by simp
        rw [h.rep.blist, hsplit]
        intro hbl
        rw [hsplit] at hnd
        rw [List.map_append] at hbl
        obtain ⟨d, hd, hdc⟩ : ∃ d ∈ A ++ [b], d.start = c.start := by
          cases A with
          | nil => exact ⟨b, by simp, by simpa using hbl⟩
          | cons d A => exact ⟨d, by simp, by simpa using hbl⟩
        exact start_ne_of_nodup hnd (by simp only [List.mem_append] at hd ⊢; tauto) hdc
      have hsum : b.pages + c.pages < 2 ^ 31 := by
        have hTb := (tiles_append.mp h.tiles).choose_spec.2
        have hstop := h.pages_le hc
        have hcs := hTb.2.2.1
        have h₂ := h.layout.pool_le
        have h₃ := h.layout.allNodes_lt
        simp only [Block.stop] at hcs
        omega
      have hrep := h.rep.fuse hnd hsum hfree
      have hclear : ((s.fuse b.start c.start).blockNodeArray c.start).bRef = 0 := by
        rw [(fuse_data s b.start c.start c.start).2.1, hcref, hfree]
      refine ⟨_, { b with pages := b.pages + c.pages }, C, ?_, ?_, rfl, href, ?_,
        hrep.congr (sameLayout_setNode _ c.start fun d => { d with bRef := 0 })
          (setNode_clear hclear)⟩
      · rw [if_pos hfree, if_neg hhead, if_neg (not_not.mpr hpre)]
      · exact (sameLayout_fuse s b.start c.start).trans (sameLayout_setNode _ _ _)
      · rw [fuseCons_cons, if_pos ⟨rfl, hfree⟩]
    · refine ⟨s, b, c :: C, by rw [if_neg hfree], .refl s, rfl, href, ?_, h.rep⟩
      rw [fuseCons_cons, if_neg fun hbc => hfree hbc.2]

/-- The left half of the fusion and the final clearing of the count, for the first block. -/
theorem fusePre_head (hrep : Represents s (b :: C)) (hnd : ((b :: C).map Block.start).Nodup) :
    fusePre b.start s = .ok s ∧
      Represents (s.setNode b.start fun d => { d with bRef := 0 }) ({ b with ref := 0 } :: C) := by
  have hpre : (s.blockNodeArray b.start).pre = none := by
    have hL := hrep.links
    rw [List.map_cons] at hL
    exact hL.1
  refine ⟨by simp only [fusePre, hpre], ?_⟩
  exact hrep.setData (A := []) hnd (fun d => ⟨rfl, rfl, rfl⟩) rfl (hrep.pages b (by simp)) rfl

/-- The left half of the fusion and the final clearing of the count, for a later block. -/
theorem fusePre_behind {p : Block} (hrep : Represents s (A ++ p :: b :: C))
    (hnd : ((A ++ p :: b :: C).map Block.start).Nodup) (hsum : p.pages + b.pages < 2 ^ 31) :
    ∃ s', fusePre b.start s = .ok s' ∧ SameLayout s s' ∧
      Represents (s'.setNode b.start fun d => { d with bRef := 0 })
        (A ++ fuseCons p ({ b with ref := 0 } :: C)) := by
  have hsplit : A ++ p :: b :: C = (A ++ [p]) ++ b :: C := by simp
  have hp : p ∈ A ++ p :: b :: C := by simp
  have hpb : p.start ≠ b.start := by
    rw [hsplit] at hnd
    exact start_ne_of_nodup hnd (by simp)
  have hpref := hrep.ref p hp
  have hL := hrep.links
  simp only [List.map_append, List.map_cons] at hL
  have hnext : (s.blockNodeArray p.start).next = some b.start := hL.next_eq
  have hpre : (s.blockNodeArray b.start).pre = some p.start := by
    have hsplit' : A.map Block.start ++ p.start :: b.start :: C.map Block.start =
        (A.map Block.start ++ [p.start]) ++ b.start :: C.map Block.start := by simp
    rw [hsplit'] at hL
    simpa using hL.pre_eq
  -- the state in which only the count is cleared
  have hclear : Represents (s.setNode b.start fun d => { d with bRef := 0 })
      (A ++ p :: { b with ref := 0 } :: C) := by
    rw [hsplit] at hrep hnd
    have hset : Represents (s.setNode b.start fun d => { d with bRef := 0 })
        ((A ++ [p]) ++ { b with ref := 0 } :: C) :=
      hrep.setData hnd (fun d => ⟨rfl, rfl, rfl⟩) rfl (hrep.pages b (by simp)) rfl
    simpa using hset
  simp only [fusePre, hpre, hpref]
  by_cases hfree : p.ref = 0
  · rw [if_pos hfree, if_neg (not_not.mpr hnext)]
    have hlay := (sameLayout_fuse s p.start b.start).trans
      (sameLayout_setNode _ p.start fun d => { d with bRef := 0 })
    refine ⟨_, rfl, hlay, ?_⟩
    have hfuse := hclear.fuse (by simpa using hnd) hsum rfl
    rw [fuseCons_cons, if_pos ⟨hfree, rfl⟩]
    have hsame := ((sameLayout_setNode s b.start fun d => { d with bRef := 0 }).trans
      (sameLayout_fuse _ p.start b.start)).symm.trans hlay
    refine hfuse.congr (hsame.trans (sameLayout_setNode _ b.start fun d => { d with bRef := 0 }))
      fun k => ?_
    have hpclear : ((s.fuse p.start b.start).blockNodeArray p.start).bRef = 0 := by
      rw [(fuse_data s p.start b.start p.start).2.1, hpref, hfree]
    rw [← fuse_clear hpb k, setNode_node, setNode_node (s.fuse p.start b.start) b.start,
      setNode_clear hpclear, setNode_clear hpclear]
  · refine ⟨s, by rw [if_neg hfree], .refl s, ?_⟩
    rw [fuseCons_cons, if_neg fun hpc => hfree hpc.1]
    exact hclear

/-- Dropping the last reference of a block, from the fusion to the right on. -/
theorem fuse_both (h : MemoryInv s pool (A ++ b :: C)) (href : b.ref = 1) :
    ∃ s₁ s₂, fuseNext b.start s = .ok s₁ ∧ fusePre b.start s₁ = .ok s₂ ∧ SameLayout s s₂ ∧
      Represents (s₂.setNode b.start fun d => { d with bRef := 0 })
        (release b.start (A ++ b :: C)) := by
  obtain ⟨s₁, b', C', hnext, hlay₁, hstart, href', hfuse, hrep⟩ := fuseNext_eq h href
  -- the tiling after the fusion to the right
  have htiles : Tiles 0 (A ++ { b' with ref := 0 } :: C') pool := by
    obtain ⟨mid, hA, hb⟩ := tiles_append.mp h.tiles
    exact tiles_append.mpr ⟨mid, hA, hfuse ▸ fuseCons_tiles (b := { b with ref := 0 }) hb⟩
  have hnd : ((A ++ b' :: C').map Block.start).Nodup := by simpa using htiles.nodup_starts
  have hbA := (start_notMem h.tiles.nodup_starts).1
  rcases List.eq_nil_or_concat A with rfl | ⟨A, p, rfl⟩
  · obtain ⟨hpre, hrep'⟩ := fusePre_head hrep hnd
    rw [hstart] at hpre hrep'
    refine ⟨s₁, s₁, hnext, hpre, hlay₁, ?_⟩
    rw [List.nil_append, release_last_head rfl href.le, hfuse]
    simpa [hstart] using hrep'
  · simp only [List.concat_eq_append, List.append_assoc, List.cons_append, List.nil_append] at *
    have hsum : p.pages + b'.pages < 2 ^ 31 := by
      obtain ⟨mid, -, hp, -, hb, -, hC⟩ := tiles_append.mp htiles
      have hle := hC.le
      have h₁ := h.layout.pool_le
      have h₂ := h.layout.allNodes_lt
      simp only [Block.stop] at hb hle
      omega
    obtain ⟨s₂, hpre, hlay₂, hrep'⟩ := fusePre_behind hrep hnd hsum
    rw [hstart] at hpre hrep'
    refine ⟨s₁, s₂, hnext, hpre, hlay₁.trans hlay₂, ?_⟩
    rw [release_last h.coalesced (by simpa using hbA) rfl href.le, hfuse, hstart]
    exact hrep'

/-- `free_mem_pages` releases one reference of a live block. -/
theorem freeMemPages_eq (h : MemoryInv s pool L) {paddr i : ℕ}
    (hi : blockIndex s paddr = .ok i) (hlive : (s.blockNodeArray i).bRef ≠ 0) :
    ∃ s', freeMemPages paddr s = .ok s' ∧ SameLayout s s' ∧ MemoryInv s' pool (release i L) := by
  obtain ⟨b, hb, rfl, href⟩ := h.exists_live (blockIndex_lt hi) hlive
  have href_lt : ∀ c ∈ release b.start L, c.ref < 2 ^ 32 := by
    intro c hc
    rcases Nat.eq_zero_or_pos c.ref with hzero | hpos
    · rw [hzero]
      norm_num
    · have hblt := h.ref_lt b hb.1
      rcases (release_live h.tiles hb).mp ⟨hc, hpos⟩ with ⟨hold, -⟩ | ⟨-, rfl⟩
      · exact h.ref_lt c hold.1
      · dsimp only
        omega
  have hinv : ∀ s', SameLayout s s' → Represents s' (release b.start L) →
      MemoryInv s' pool (release b.start L) := fun s' hlay hrep =>
    h.of_represents hlay hrep (release_tiles h.tiles) (release_coalesced h.coalesced) href_lt
  obtain ⟨A, C, rfl⟩ := List.append_of_mem hb.1
  by_cases hshared : b.ref > 1
  · have hlay := sameLayout_setNode s b.start fun d => { d with bRef := d.bRef - 1 }
    refine ⟨_, ?_, hlay, hinv _ hlay ?_⟩
    · simp only [freeMemPages, hi, bind, Except.bind]
      rw [if_neg hlive, href, if_pos hshared]
    · rw [release_shared h.coalesced (start_notMem h.tiles.nodup_starts).1 rfl hshared]
      refine h.rep.setData h.tiles.nodup_starts (fun d => ⟨rfl, rfl, rfl⟩) rfl
        (h.rep.pages b hb.1) ?_
      dsimp only
      rw [href]
  · have hone : b.ref = 1 := by
      have := hb.2
      omega
    obtain ⟨s₁, s₂, hnext, hpre, hlay, hrep⟩ := fuse_both h hone
    have hlay' := hlay.trans (sameLayout_setNode s₂ b.start fun d => { d with bRef := 0 })
    refine ⟨_, ?_, hlay', hinv _ hlay' hrep⟩
    simp only [freeMemPages, hi, bind, Except.bind]
    rw [if_neg hlive, href, if_neg hshared, hnext]
    simp only [hpre]

end Functions

end Savannah
