import Savannah.Machine.Outcome

/-!
# The page allocator of the process manager

The allocator of `vms/pm/memory.c`.  It keeps one `struct block_node` for every page of its pool in
`block_node_array`; the node of a block is the array entry of the first page of the block.  The
blocks are linked in address order through `next` and `pre`, free and allocated ones alike, and
`b_ref` counts the holders of a block (`0` for a free one).

Pointers to nodes are array indices, `none` is `NULL`.  Nothing clears a node that leaves the list:
its stale contents stay in the array until the entry is used again.
-/

namespace Savannah

/-- `struct block_node`. -/
@[ext]
structure BlockNode where
  bStartAddr : ℕ
  bPages : ℤ
  bRef : ℕ
  next : Option ℕ
  pre : Option ℕ
  deriving DecidableEq, Repr, Inhabited

/-- The panics of `vms/pm/memory.c`. -/
inductive MemoryPanic where
  /-- "memory address %x is not 4KB aligned!" -/
  | notAligned
  /-- "physical address %x under range!" -/
  | underRange
  /-- "block index %d is over block array size" -/
  | overArray
  /-- "block %x is already allocated!" -/
  | alreadyAllocated
  /-- "Not enough memory!" -/
  | notEnoughMemory
  /-- "Failed to initialize memory!" -/
  | initFailed
  /-- "Misconfigured memory parameters!" -/
  | misconfigured
  /-- "Can't reallocate a free memory block!" -/
  | reallocFree
  /-- "Can't free a free memory block!" -/
  | freeFree
  /-- "Memory block list is corrupted!!": the successor is the head of the list. -/
  | corruptedHead
  /-- "Memory block list is corrupted!!": the successor does not point back. -/
  | corruptedPre
  /-- "Memory block list is corrupted!!": the predecessor does not point forward. -/
  | corruptedNext
  deriving DecidableEq, Repr

/-- The static variables of `vms/pm/memory.c`. -/
structure MemoryState where
  /-- The entries of `block_node_array`. -/
  blockNodeArray : ℕ → BlockNode
  /-- The address of `block_node_array`. -/
  blockNodeArrayAddr : ℕ
  blist : Option ℕ
  blockNodeArrayLastIdx : ℤ
  firstFreeAddr : ℕ
  allNodes : ℕ
  availableMemory : ℕ
  availableFreeMemory : ℕ

/-- The result of an allocator function that does not return normally. -/
abbrev MemoryStop := Stop MemoryPanic

namespace MemoryState

/-- Assignments to the fields of the node `i`. -/
def setNode (s : MemoryState) (i : ℕ) (f : BlockNode → BlockNode) : MemoryState :=
  { s with blockNodeArray := Function.update s.blockNodeArray i (f (s.blockNodeArray i)) }

/-- `if (o) o->pre = v`. -/
def setPre (s : MemoryState) (o : Option ℕ) (v : Option ℕ) : MemoryState :=
  match o with
  | some k => s.setNode k fun b => { b with pre := v }
  | none => s

/-- The node `j` behind `i` is joined to `i`: `i->b_pages += j->b_pages; i->next = j->next;
if (j->next) j->next->pre = i`. -/
def fuse (s : MemoryState) (i j : ℕ) : MemoryState :=
  let n := s.blockNodeArray j
  let s := s.setNode i fun b => { b with bPages := int32 (b.bPages + n.bPages), next := n.next }
  s.setPre n.next (some i)

end MemoryState

/-- The checks that `alloc_block_node`, `realloc_mem_block` and `free_mem_pages` make before they
take the address `&block_node_array[idx]`.  The bound is tested with `idx > last_idx`, so that an
index outside the array can pass it. -/
def blockIndex (s : MemoryState) (paddr : ℕ) : Except MemoryStop ℕ :=
  if paddr % 4096 ≠ 0 then
    .error (.panic .notAligned)
  else if paddr < s.firstFreeAddr then
    .error (.panic .underRange)
  else
    let idx := int32 ((paddr - s.firstFreeAddr) / 4096 : ℕ)
    if idx > s.blockNodeArrayLastIdx then
      .error (.panic .overArray)
    else if 0 ≤ idx ∧ idx < s.allNodes then
      .ok idx.toNat
    else
      .error (.outOfBounds idx)

/-- `alloc_block_node`. -/
def allocBlockNode (s : MemoryState) (paddr : ℕ) : Except MemoryStop ℕ := do
  let i ← blockIndex s paddr
  if (s.blockNodeArray i).bRef > 0 then
    .error (.panic .alreadyAllocated)
  else
    .ok i

/-- `init_block_node`.  The array is placed at `first_free_addr` and takes over whatever the memory
there contains; only `b_ref` and `b_pages` are cleared. -/
def initBlockNode (s : MemoryState) : Except MemoryStop MemoryState :=
  let allNodes := s.availableFreeMemory / 4096 + if s.availableFreeMemory % 4096 ≠ 0 then 1 else 0
  if (allNodes * 32 + s.firstFreeAddr) % 2 ^ 64 > s.availableMemory then
    .error (.panic .notEnoughMemory)
  else
    let lastIdx := int32 allNodes
    let firstFreeAddr := alignPage ((s.firstFreeAddr + allNodes * 32) % 2 ^ 64)
    .ok { s with
      allNodes := allNodes
      blockNodeArrayAddr := s.firstFreeAddr
      blockNodeArrayLastIdx := lastIdx
      firstFreeAddr := firstFreeAddr
      availableFreeMemory := (s.availableMemory + 2 ^ 64 - firstFreeAddr) % 2 ^ 64
      blockNodeArray := fun i =>
        if (i : ℤ) < lastIdx then { s.blockNodeArray i with bRef := 0, bPages := 0 }
        else s.blockNodeArray i }

/-- `init_block_list`. -/
def initBlockList (s : MemoryState) : Except MemoryStop MemoryState := do
  let allFreePages := s.availableFreeMemory / 4096
  let i ← allocBlockNode s s.firstFreeAddr
  -- `&block_node_array[0]` is `NULL` when the array lies at address 0
  if s.blockNodeArrayAddr + i * 32 = 0 then
    .error (.panic .initFailed)
  else
    .ok { s.setNode i fun _ => ⟨s.firstFreeAddr, int32 allFreePages, 0, none, none⟩ with
      blist := some i }

/-- `memory_init`.  The parameter `mem` is what the memory of the node array contains before. -/
def memoryInit (mem : ℕ → BlockNode) (lastAllocatedByte memSize : ℕ) :
    Except MemoryStop MemoryState := do
  if memSize < lastAllocatedByte then
    .error (.panic .misconfigured)
  else
    let s ← initBlockNode
      { blockNodeArray := mem
        blockNodeArrayAddr := 0
        blist := none
        blockNodeArrayLastIdx := 0
        firstFreeAddr := lastAllocatedByte
        allNodes := 0
        availableMemory := memSize
        availableFreeMemory := memSize - lastAllocatedByte }
    initBlockList s

/-- The loop of `alloc_mem_pages` from the node `current`.  It makes at most `fuel` steps along
`next`. -/
def allocLoop (n : ℕ) (s : MemoryState) : ℕ → Option ℕ → Except MemoryStop (ℕ × MemoryState)
  | _, none => .ok (0, s)
  | 0, some _ => .error .diverges
  | fuel + 1, some i =>
    let current := s.blockNodeArray i
    if current.bRef > 0 ∨ toSize current.bPages < n then
      allocLoop n s fuel current.next
    else if toSize current.bPages = n then
      .ok (current.bStartAddr, s.setNode i fun b => { b with bRef := 1 })
    else do
      let newPaddr := (current.bStartAddr + n * 4096) % 2 ^ 64
      let j ← allocBlockNode s newPaddr
      let s := s.setNode j fun b =>
        { b with
          bStartAddr := newPaddr
          bPages := int32 (toSize current.bPages - n : ℕ)
          pre := some i
          next := current.next }
      let s := s.setPre current.next (some j)
      let s := s.setNode j fun b => { b with bRef := 0 }
      let s := s.setNode i fun b => { b with bPages := int32 n, bRef := 1, next := some j }
      .ok (current.bStartAddr, s)

/-- `alloc_mem_pages`: the address of `n` free pages, `0` when there are none.  The list has at most
one node for every array entry, which bounds the steps of the loop. -/
def allocMemPages (n : ℕ) (s : MemoryState) : Except MemoryStop (ℕ × MemoryState) :=
  if n = 0 then .ok (0, s) else allocLoop n s (s.allNodes + 1) s.blist

/-- `reallocable`.  Here, unlike in `blockIndex`, the index is compared with `<`. -/
def reallocable (s : MemoryState) (paddr : ℕ) : Bool :=
  decide (paddr > s.firstFreeAddr) &&
    decide (int32 ((paddr - s.firstFreeAddr) / 4096 : ℕ) < s.blockNodeArrayLastIdx)

/-- `realloc_mem_block`: one more reference.  The count is a `uint32_t` and wraps. -/
def reallocMemBlock (paddr : ℕ) (s : MemoryState) : Except MemoryStop (ℕ × MemoryState) := do
  let i ← blockIndex s paddr
  if (s.blockNodeArray i).bRef = 0 then
    .error (.panic .reallocFree)
  else
    .ok (paddr, s.setNode i fun b => { b with bRef := (b.bRef + 1) % 2 ^ 32 })

/-- The first half of the fusion in `free_mem_pages`: a free successor is joined to the block. -/
def fuseNext (i : ℕ) (s : MemoryState) : Except MemoryStop MemoryState :=
  match (s.blockNodeArray i).next with
  | none => .ok s
  | some j =>
    if (s.blockNodeArray j).bRef = 0 then
      if s.blist = some j then
        .error (.panic .corruptedHead)
      else if (s.blockNodeArray j).pre ≠ some i then
        .error (.panic .corruptedPre)
      else
        .ok ((s.fuse i j).setNode j fun b => { b with bRef := 0 })
    else
      .ok s

/-- The second half of the fusion: the block is joined to a free predecessor. -/
def fusePre (i : ℕ) (s : MemoryState) : Except MemoryStop MemoryState :=
  match (s.blockNodeArray i).pre with
  | none => .ok s
  | some h =>
    if (s.blockNodeArray h).bRef = 0 then
      if (s.blockNodeArray h).next ≠ some i then
        .error (.panic .corruptedNext)
      else
        .ok ((s.fuse h i).setNode h fun b => { b with bRef := 0 })
    else
      .ok s

/-- `free_mem_pages`: one reference less; a block that loses its last one becomes free and is fused
with its free neighbours. -/
def freeMemPages (paddr : ℕ) (s : MemoryState) : Except MemoryStop MemoryState := do
  let i ← blockIndex s paddr
  if (s.blockNodeArray i).bRef = 0 then
    .error (.panic .freeFree)
  else if (s.blockNodeArray i).bRef > 1 then
    .ok (s.setNode i fun b => { b with bRef := b.bRef - 1 })
  else
    let s ← fuseNext i s
    let s ← fusePre i s
    .ok (s.setNode i fun b => { b with bRef := 0 })

/-! ### The allocator as a transition system -/

/-- A call of the allocator interface. -/
inductive MemoryCall where
  | alloc (n : ℕ)
  | realloc (paddr : ℕ)
  | free (paddr : ℕ)
  deriving DecidableEq, Repr

/-- Performing a call: the address it returns (`0` for `free_mem_pages`, which returns nothing) and
the state after it. -/
def MemoryCall.exec : MemoryCall → MemoryState → Except MemoryStop (ℕ × MemoryState)
  | alloc n, s => allocMemPages n s
  | realloc paddr, s => reallocMemBlock paddr s
  | free paddr, s => (freeMemPages paddr s).map fun s' => (0, s')

/-- The steps of the allocator: the calls that return. -/
def memoryStep (s : MemoryState) (c : MemoryCall) (s' : MemoryState) : Prop :=
  ∃ r, c.exec s = .ok (r, s')

end Savannah
