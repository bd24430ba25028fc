import Savannah.Memory.Supply

/-!
# The index of a block

`alloc_block_node`, `realloc_mem_block` and `free_mem_pages` turn a physical address into an index
of the node array by the same checks: the address is page aligned, not below the pool, and the
quotient, stored in an `int`, is not larger than `block_node_array_last_idx`.  That variable is the
length of the array and not its last index, and the conversion to `int` drops all but the lower 32
bits of the page number.  `indexSafe_iff` says which addresses the three functions handle as they
should.
-/

namespace Savannah

open Foundation MemoryState

/-- The functions that take the address of a block. -/
inductive NodeCall where
  | allocBlockNode
  | reallocMemBlock
  | freeMemPages
  deriving DecidableEq, Repr

namespace NodeCall

/-- A call with the address `paddr`; `alloc_block_node` changes nothing. -/
def exec (paddr : ℕ) (s : MemoryState) : NodeCall → Except MemoryStop MemoryState
  | allocBlockNode => (Savannah.allocBlockNode s paddr).map fun _ => s
  | reallocMemBlock => (Savannah.reallocMemBlock paddr s).map Prod.snd
  | freeMemPages => Savannah.freeMemPages paddr s

/-- What a call does with the entry `i` of the node array, once it has found the index. -/
def onNode (s : MemoryState) (i : ℕ) : NodeCall → Except MemoryStop MemoryState
  | allocBlockNode =>
    if (s.blockNodeArray i).bRef > 0 then .error (.panic .alreadyAllocated) else .ok s
  | reallocMemBlock =>
    if (s.blockNodeArray i).bRef = 0 then .error (.panic .reallocFree)
    else .ok (s.setNode i fun b => { b with bRef := (b.bRef + 1) % 2 ^ 32 })
  | freeMemPages =>
    if (s.blockNodeArray i).bRef = 0 then .error (.panic .freeFree)
    else if (s.blockNodeArray i).bRef > 1 then
      .ok (s.setNode i fun b => { b with bRef := b.bRef - 1 })
    else do
      let s ← fuseNext i s
      let s ← fusePre i s
      .ok (s.setNode i fun b => { b with bRef := 0 })

/-- Each call first finds the index and then works on that entry. -/
theorem exec_eq (paddr : ℕ) (s : MemoryState) (c : NodeCall) :
    c.exec paddr s = blockIndex s paddr >>= fun i => c.onNode s i := by
  cases c with
  | allocBlockNode =>
    simp only [exec, Savannah.allocBlockNode, bind, Except.bind]
    cases blockIndex s paddr with
    | error e => rfl
    | ok i => dsimp only [onNode]; split <;> rfl
  | reallocMemBlock =>
    simp only [exec, Savannah.reallocMemBlock, bind, Except.bind]
    cases blockIndex s paddr with
    | error e => rfl
    | ok i => dsimp only [onNode]; split <;> rfl
  | freeMemPages => rfl

/-- A call panics, or it works on the entry of the array that belongs to the address. -/
def Safe (paddr : ℕ) (s : MemoryState) (c : NodeCall) : Prop :=
  (∃ p, c.exec paddr s = .error (.panic p)) ∨
    ∃ i < s.allNodes, s.firstFreeAddr + i * 4096 = paddr ∧ blockIndex s paddr = .ok i ∧
      c.exec paddr s = c.onNode s i

end NodeCall

/-- The page number of an address of the pool. -/
def MemoryState.pageNumber (s : MemoryState) (paddr : ℕ) : ℕ := (paddr - s.firstFreeAddr) / 4096

/-- The addresses that the checks treat as they should: they are refused because they are not page
aligned or lie below the pool, they have an entry in the array, or the lower 32 bits of their page
number, read as an `int`, exceed `block_node_array_last_idx`. -/
def MemoryState.Checked (s : MemoryState) (paddr : ℕ) : Prop :=
  paddr % 4096 ≠ 0 ∨ paddr < s.firstFreeAddr ∨ s.pageNumber paddr < s.allNodes ∨
    (s.allNodes < s.pageNumber paddr % 2 ^ 32 ∧ s.pageNumber paddr % 2 ^ 32 < 2 ^ 31)

/-- The array and the pool as `memory_init` leaves them. -/
structure ArrayLayout (s : MemoryState) : Prop where
  lastIdx : s.blockNodeArrayLastIdx = s.allNodes
  allNodes_lt : s.allNodes < 2 ^ 31
  aligned : s.firstFreeAddr % 4096 = 0

/-! ### The layout along a run -/

section Layout

variable {mem : ℕ → BlockNode} {last memSize : ℕ} {s s' : MemoryState}

/-- The layout of the array is fixed. -/
theorem ArrayLayout.congr (h : ArrayLayout s) (hs : SameLayout s s') : ArrayLayout s' := by
  constructor
  · rw [hs.lastIdx, hs.allNodes]; exact h.lastIdx
  · rw [hs.allNodes]; exact h.allNodes_lt
  · rw [hs.firstFree]; exact h.aligned

/-- The number of entries that `init_block_node` computes for a pool below `2 ^ 43` bytes, counted
before or after the array is taken from it, is a 32-bit number. -/
private theorem entries_lt {n ff free : ℕ} (hle : last ≤ memSize) (hsize : memSize < 2 ^ 64)
    (hn : n = (memSize - last) / 4096 + (if (memSize - last) % 4096 ≠ 0 then 1 else 0))
    (hff : ff = alignPage ((last + n * 32) % 2 ^ 64))
    (hfree : free = (memSize + 2 ^ 64 - ff) % 2 ^ 64)
    (hpool : memSize - last < 2 ^ 43 ∨ free < 2 ^ 43) : n < 2 ^ 32 := by
  have hn_lo : (memSize - last) ≤ n * 4096 := by split at hn <;> omega
  have hn_hi : n * 4096 < memSize - last + 4096 := by split at hn <;> omega
  clear hn
  rcases hpool with hpool | hpool
  · omega
  · by_contra hlarge
    have hend : last + n * 32 ≤ memSize := by omega
    rw [Nat.mod_eq_of_lt (hend.trans_lt hsize)] at hff
    unfold alignPage at hff
    -- the alignment either stays inside the address space or wraps to zero
    by_cases hwrap : last + n * 32 + 4095 < 2 ^ 64
    · rw [Nat.mod_eq_of_lt hwrap] at hff
      have hff_le : ff ≤ last + n * 32 + 4095 := by omega
      have hfree' : free = memSize - ff := by omega
      omega
    · omega

/-- The array has an entry for every page of the memory that `memory_init` is given. -/
theorem memoryInit_allNodes (h : memoryInit mem last memSize = .ok s) :
    s.allNodes = (memSize - last) / 4096 + (if (memSize - last) % 4096 ≠ 0 then 1 else 0) := by
  obtain ⟨-, s₀, s₁, -, -, hfree₀, hnode, hlist⟩ := memoryInit_ok h
  obtain ⟨n, hn, -, hall, -⟩ := initBlockNode_ok hnode
  obtain ⟨i, -, rfl⟩ := initBlockList_ok hlist
  change s₁.allNodes = _
  rw [hall, hn, hfree₀]

/-- `memory_init` returns only if the number of entries is a positive `int`. -/
theorem memoryInit_arrayLayout (h : memoryInit mem last memSize = .ok s) (hsize : memSize < 2 ^ 64)
    (hpool : memSize - last < 2 ^ 43 ∨ s.availableFreeMemory < 2 ^ 43) : ArrayLayout s := by
  obtain ⟨hle, s₀, s₁, hff₀, hmem₀, hfree₀, hnode, hlist⟩ := memoryInit_ok h
  obtain ⟨n, hn, -, hall, hidx, hff, hfree, -⟩ := initBlockNode_ok hnode
  obtain ⟨i, hi, rfl⟩ := initBlockList_ok hlist
  obtain ⟨-, hpos⟩ := blockIndex_firstFree hi
  rw [hfree₀] at hn
  rw [hmem₀] at hfree
  rw [hff₀] at hff
  have hn_lt : n < 2 ^ 32 := entries_lt hle hsize hn hff hfree hpool
  have hn_int : n < 2 ^ 31 := by
    rw [hidx, int32_natCast, Nat.mod_eq_of_lt hn_lt] at hpos
    split at hpos <;> omega
  constructor
  · show s₁.blockNodeArrayLastIdx = s₁.allNodes
    rw [hidx, hall, int32_of_lt hn_int]
  · show s₁.allNodes < 2 ^ 31
    rw [hall]
    exact hn_int
  · show s₁.firstFreeAddr % 4096 = 0
    rw [hff]
    exact Nat.mul_mod_left _ _

/-- Allocation keeps the layout. -/
theorem allocLoop_sameLayout {n fuel a : ℕ} {cur : Option ℕ}
    (h : allocLoop n s fuel cur = .ok (a, s')) : SameLayout s s' := by
  induction fuel generalizing cur with
  | zero =>
    cases cur with
    | none => cases h; exact .refl s
    | some i => cases h
  | succ fuel ih =>
    cases cur with
    | none => cases h; exact .refl s
    | some i =>
      rw [allocLoop] at h
      split at h
      · exact ih h
      · split at h
        · cases h; exact sameLayout_setNode s i _
        · simp only [bind, Except.bind] at h
          split at h
          · cases h
          · cases h; exact sameLayout_cut s n i _ _

theorem fuseNext_sameLayout {i : ℕ} (h : fuseNext i s = .ok s') : SameLayout s s' := by
  unfold fuseNext at h
  split at h
  · cases h; exact .refl s
  · split at h
    · split at h
      · cases h
      · split at h
        · cases h
        · cases h; exact (sameLayout_fuse s i _).trans (sameLayout_setNode _ _ _)
    · cases h; exact .refl s

theorem fusePre_sameLayout {i : ℕ} (h : fusePre i s = .ok s') : SameLayout s s' := by
  unfold fusePre at h
  split at h
  · cases h; exact .refl s
  · split at h
    · split at h
      · cases h
      · cases h; exact (sameLayout_fuse s _ i).trans (sameLayout_setNode _ _ _)
    · cases h; exact .refl s

/-- No call of the interface moves the array or the pool. -/
theorem memoryStep_sameLayout {c : MemoryCall} (h : memoryStep s c s') : SameLayout s s' := by
  obtain ⟨r, hr⟩ := h
  cases c with
  | alloc n =>
    change allocMemPages n s = _ at hr
    unfold allocMemPages at hr
    split at hr
    · cases hr; exact .refl s
    · exact allocLoop_sameLayout hr
  | realloc paddr =>
    simp only [MemoryCall.exec, reallocMemBlock, bind, Except.bind] at hr
    split at hr
    · cases hr
    · split at hr
      · cases hr
      · cases hr; exact sameLayout_setNode s _ _
  | free paddr =>
    simp only [MemoryCall.exec, freeMemPages, bind, Except.bind] at hr
    split at hr
    · cases hr
    · split at hr
      · cases hr
      · split at hr
        · cases hr; exact sameLayout_setNode s _ _
        · split at hr
          · cases hr
          · rename_i s₁ hnext
            split at hr
            · cases hr
            · rename_i s₂ hpre
              cases hr
              exact ((fuseNext_sameLayout hnext).trans (fusePre_sameLayout hpre)).trans
                (sameLayout_setNode s₂ _ _)

/-- Every run keeps the layout. -/
theorem ArrayLayout.run {cs : List MemoryCall} (h : ArrayLayout s) (hrun : Run memoryStep s cs s') :
    ArrayLayout s' :=
  hrun.invariant (fun _ _ _ hstep hs => hs.congr (memoryStep_sameLayout hstep)) h

end Layout

/-! ### The index that the checks let through -/

section Index

variable {s : MemoryState} {paddr : ℕ}

/-- The checks after the one for the range look only at the lower 32 bits of the page number. -/
theorem ArrayLayout.blockIndex_eq (h : ArrayLayout s) (hal : paddr % 4096 = 0)
    (hle : s.firstFreeAddr ≤ paddr) :
    blockIndex s paddr =
      if s.pageNumber paddr % 2 ^ 32 < s.allNodes then .ok (s.pageNumber paddr % 2 ^ 32)
      else if s.allNodes < s.pageNumber paddr % 2 ^ 32 ∧ s.pageNumber paddr % 2 ^ 32 < 2 ^ 31 then
        .error (.panic .overArray)
      else .error (.outOfBounds (int32 (s.pageNumber paddr))) := by
  unfold blockIndex
  rw [if_neg (not_not.mpr hal), if_neg (not_lt.mpr hle), h.lastIdx]
  change (if int32 (s.pageNumber paddr) > _ then _ else
    if 0 ≤ int32 (s.pageNumber paddr) ∧ int32 (s.pageNumber paddr) < _ then
      Except.ok (int32 (s.pageNumber paddr)).toNat
    else .error (Stop.outOfBounds (int32 (s.pageNumber paddr)))) = _
  have hlt := h.allNodes_lt
  have hint := int32_natCast (s.pageNumber paddr)
  have hmod := Nat.mod_lt (s.pageNumber paddr) (show 0 < 2 ^ 32 by norm_num)
  generalize int32 (s.pageNumber paddr) = idx at hint ⊢
  generalize s.pageNumber paddr % 2 ^ 32 = r at hint hmod ⊢
  by_cases hr : r < 2 ^ 31
  · -- the index is the number itself
    rw [if_pos hr] at hint
    subst hint
    by_cases hin : r < s.allNodes
    · rw [if_neg (by omega), if_pos (by omega), if_pos hin, Int.toNat_natCast]
    · by_cases hover : s.allNodes < r
      · rw [if_pos (by omega), if_neg hin, if_pos ⟨hover, hr⟩]
      · rw [if_neg (by omega), if_neg (by omega), if_neg hin, if_neg (by omega)]
  · -- the index is negative
    rw [if_neg hr] at hint
    rw [if_neg (by omega), if_neg (by omega), if_neg (by omega), if_neg (by omega)]

/-- An aligned address of the pool is its page number times the page size. -/
theorem ArrayLayout.pageNumber_mul (h : ArrayLayout s) (hal : paddr % 4096 = 0)
    (hle : s.firstFreeAddr ≤ paddr) : s.firstFreeAddr + s.pageNumber paddr * 4096 = paddr := by
  have hff := h.aligned
  unfold MemoryState.pageNumber
  omega

/-- The checks of an address panic, or they let through the index that belongs to it. -/
def IndexSafe (s : MemoryState) (paddr : ℕ) : Prop :=
  (∃ p, blockIndex s paddr = .error (.panic p)) ∨
    ∃ i < s.allNodes, s.firstFreeAddr + i * 4096 = paddr ∧ blockIndex s paddr = .ok i

/-- A safe index is safe for every function. -/
theorem IndexSafe.safe (h : IndexSafe s paddr) (c : NodeCall) : c.Safe paddr s := by
  rcases h with ⟨p, hp⟩ | ⟨i, hi, haddr, hidx⟩
  · left
    exact ⟨p, by rw [c.exec_eq, hp]; rfl⟩
  · right
    exact ⟨i, hi, haddr, hidx, by rw [c.exec_eq, hidx]; rfl⟩

/-- A wrong index does not stay unnoticed: `alloc_block_node` refuses the entries in use and
`realloc_mem_block` the others, so that one of the two accepts it. -/
theorem IndexSafe.of_safe (h : ∀ c : NodeCall, c.Safe paddr s) : IndexSafe s paddr := by
  rcases h .allocBlockNode with ⟨p, hp⟩ | ⟨i, hi, haddr, hidx, -⟩
  · rcases h .reallocMemBlock with ⟨p', hp'⟩ | ⟨i, hi, haddr, hidx, -⟩
    · left
      rw [NodeCall.exec_eq] at hp hp'
      cases hidx : blockIndex s paddr with
      | error e =>
        rw [hidx] at hp
        exact ⟨p, congrArg Except.error (Except.error.inj hp)⟩
      | ok i =>
        -- both functions cannot panic at one entry
        rw [hidx] at hp hp'
        change NodeCall.onNode s i .allocBlockNode = _ at hp
        change NodeCall.onNode s i .reallocMemBlock = _ at hp'
        dsimp only [NodeCall.onNode] at hp hp'
        split at hp
        · rename_i href
          rw [if_neg (Nat.pos_iff_ne_zero.mp href)] at hp'
          cases hp'
        · cases hp
    · exact .inr ⟨i, hi, haddr, hidx⟩
  · exact .inr ⟨i, hi, haddr, hidx⟩

/-- The safe indices are those that a check would accept. -/
theorem ArrayLayout.indexSafe_iff_checked (h : ArrayLayout s) :
    IndexSafe s paddr ↔ s.Checked paddr := by
  by_cases hal : paddr % 4096 = 0
  swap
  · have hpanic : blockIndex s paddr = .error (.panic .notAligned) := by
      unfold blockIndex
      rw [if_pos hal]
    exact ⟨fun _ => .inl hal, fun _ => .inl ⟨_, hpanic⟩⟩
  rcases Nat.lt_or_ge paddr s.firstFreeAddr with hlt | hle
  · have hpanic : blockIndex s paddr = .error (.panic .underRange) := by
      unfold blockIndex
      rw [if_neg (not_not.mpr hal), if_pos hlt]
    exact ⟨fun _ => .inr (.inl hlt), fun _ => .inl ⟨_, hpanic⟩⟩
  have hmul := h.pageNumber_mul hal hle
  have hnodes := h.allNodes_lt
  unfold IndexSafe MemoryState.Checked
  rw [h.blockIndex_eq hal hle]
  constructor
  · rintro (⟨p, hp⟩ | ⟨i, hi, haddr, -⟩)
    · split at hp
      · cases hp
      · split at hp
        · rename_i hover
          exact .inr (.inr (.inr hover))
        · cases hp
    · have : i = s.pageNumber paddr := by omega
      exact .inr (.inr (.inl (this ▸ hi)))
  · rintro (hc | hc | hc | hc)
    · exact absurd hal hc
    · exact absurd hle (not_le.mpr hc)
    · have hmod : s.pageNumber paddr % 2 ^ 32 = s.pageNumber paddr :=
        Nat.mod_eq_of_lt (by omega)
      refine .inr ⟨s.pageNumber paddr, hc, hmul, ?_⟩
      rw [hmod, if_pos hc]
    · refine .inl ⟨.overArray, ?_⟩
      rw [if_neg (by omega), if_pos hc]

/-- After a `memory_init` with a pool below `2 ^ 43` bytes, counted before or after the node array
is taken from it, and any calls of the interface: the three functions panic at an address or use
the entry that belongs to it, and the checks let no other index through, exactly for the addresses
that are refused at once, have an entry, or keep a page number beyond the array when it is cut to
an `int`. -/
theorem indexSafe_iff {mem : ℕ → BlockNode} {last memSize : ℕ} {s₀ : MemoryState}
    {cs : List MemoryCall} (hinit : memoryInit mem last memSize = .ok s₀) (hsize : memSize < 2 ^ 64)
    (hpool : memSize - last < 2 ^ 43 ∨ s₀.availableFreeMemory < 2 ^ 43)
    (hrun : Run memoryStep s₀ cs s) (paddr : ℕ) :
    ((∀ c : NodeCall, c.Safe paddr s) ↔ s.Checked paddr) ∧
      (IndexSafe s paddr ↔ s.Checked paddr) := by
  have hlay := (memoryInit_arrayLayout hinit hsize hpool).run hrun
  have hchecked : IndexSafe s paddr ↔ s.Checked paddr := hlay.indexSafe_iff_checked
  refine ⟨⟨fun hsafe => ?_, fun hc => ?_⟩, hchecked⟩
  · exact hchecked.mp (.of_safe hsafe)
  · exact (hchecked.mpr hc).safe

/-- The first page of the pool of a machine with 1GB of memory, after it has been handed out. -/
theorem indexSafe_firstPage : ∃ m s, memoryInit (fun _ => default) 4096 (2 ^ 30) = .ok m ∧
    Run memoryStep m [.alloc 1] s ∧ (∀ c : NodeCall, c.Safe 0x801000 s) ∧
    IndexSafe s 0x801000 := by
  obtain ⟨m, hm, hff, hopen, -⟩ := memoryInit_1GB
  obtain ⟨s, halloc, -, hlay, -⟩ := hopen.alloc (n := 1) (by norm_num) (by norm_num)
  have hrun : Run memoryStep m [.alloc 1] s := .cons ⟨_, halloc⟩ (.nil s)
  have hpos : 0 < s.allNodes := by
    rw [hlay.allNodes, memoryInit_allNodes hm]
    norm_num
  have hchecked : s.Checked 0x801000 := by
    refine .inr (.inr (.inl ?_))
    unfold MemoryState.pageNumber
    rw [hlay.firstFree, hff]
    exact hpos
  have h := indexSafe_iff hm (by norm_num) (.inl (by norm_num)) hrun 0x801000
  exact ⟨m, s, hm, hrun, h.1.mpr hchecked, h.2.mpr hchecked⟩

/-- On a machine with 1GB of memory the array has 262143 entries.  The address behind the last of
them passes the checks of all three functions by equality with `block_node_array_last_idx`, and an
address 16TB above the pool passes them as its first page. -/
theorem not_indexSafe_1GB : ∃ m, memoryInit (fun _ => default) 4096 (2 ^ 30) = .ok m ∧
    m.firstFreeAddr = 0x801000 ∧ m.allNodes = 262143 ∧
    (∀ c : NodeCall, c.exec (0x801000 + 262143 * 4096) m = .error (.outOfBounds 262143) ∧
      ¬ c.Safe (0x801000 + 262143 * 4096) m) ∧
    allocBlockNode m (0x801000 + 2 ^ 44) = .ok 0 ∧
    ¬ NodeCall.allocBlockNode.Safe (0x801000 + 2 ^ 44) m := by
  obtain ⟨m, hm, hff, -, -⟩ := memoryInit_1GB
  have hall : m.allNodes = 262143 := (memoryInit_allNodes hm).trans (by norm_num)
  have hlay := memoryInit_arrayLayout hm (by norm_num) (.inl (by norm_num))
  have hfresh := memoryInit_fresh hm (by norm_num) (by rw [hff]; norm_num)
  have hpage₁ : m.pageNumber (0x801000 + 262143 * 4096) = 262143 := by
    unfold MemoryState.pageNumber
    rw [hff]
  have hpage₂ : m.pageNumber (0x801000 + 2 ^ 44) = 2 ^ 32 := by
    unfold MemoryState.pageNumber
    rw [hff]
    norm_num
  have hidx₁ : blockIndex m (0x801000 + 262143 * 4096) = .error (.outOfBounds 262143) := by
    rw [hlay.blockIndex_eq (by norm_num) (by rw [hff]; norm_num), hpage₁, hall,
      if_neg (by norm_num), if_neg (by norm_num), int32_of_lt (by norm_num)]
    rfl
  have hidx₂ : blockIndex m (0x801000 + 2 ^ 44) = .ok 0 := by
    rw [hlay.blockIndex_eq (by norm_num) (by rw [hff]; norm_num), hpage₂, hall,
      if_pos (by norm_num)]
    rfl
  have hexec₁ : ∀ c : NodeCall,
      c.exec (0x801000 + 262143 * 4096) m = .error (.outOfBounds 262143) := by
    intro c
    rw [c.exec_eq, hidx₁]
    rfl
  have hexec₂ : allocBlockNode m (0x801000 + 2 ^ 44) = .ok 0 := by
    have href := hfresh.ref 0 (by rw [hall]; norm_num)
    unfold allocBlockNode
    rw [hidx₂]
    change (if (m.blockNodeArray 0).bRef > 0 then _ else Except.ok 0) = _
    rw [if_neg (by omega)]
  refine ⟨m, hm, hff, hall, fun c => ⟨hexec₁ c, ?_⟩, hexec₂, ?_⟩
  · rintro (⟨p, hp⟩ | ⟨i, -, -, hi, -⟩)
    · rw [hexec₁ c] at hp
      cases hp
    · rw [hidx₁] at hi
      cases hi
  · rintro (⟨p, hp⟩ | ⟨i, hi, haddr, -⟩)
    · rw [NodeCall.exec, hexec₂] at hp
      cases hp
    · rw [hff] at haddr
      omega

end Index


end Savannah
