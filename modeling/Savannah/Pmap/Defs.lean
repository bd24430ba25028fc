import Savannah.Foundation.RadixOps
import Savannah.Machine.Outcome

/-!
# Page tables

The page-table code of `vms/pm/pmap.c`, of which `boot/stage2/pmap.c` has a copy that differs in the
allocator of the tables and in the texts of the panics only.  `map_memory` builds the tables of a
guest, `ept_map_memory` the nested tables of a VM; both are `mapRegion` with their own flags.  The
access to the tables is a parameter, `TableOps`, so that one definition serves both copies.

`walk` is the translation that the hardware performs with such tables.
-/

namespace Savannah

open Foundation

/-- The panics of `map_memory`, `ept_map_memory` and `ept_map_page_tables`. -/
inductive MapPanic where
  /-- "start address greater than end address" -/
  | startAfterEnd
  /-- "Can't map a memory region of zero size!" -/
  | emptyRegion
  /-- "Bad page size!" -/
  | badPageSize
  /-- "Address %x is not 4KB aligned", and likewise for 2MB and 1GB -/
  | notAligned
  /-- "Memory Allocation Failed" -/
  | allocFailed
  /-- "Trying to update null page tables!" -/
  | nullTables
  /-- "Undefined memory map flag!" -/
  | undefinedFlag
  /-- "ept_map_page_tables: page tables are not yet created!" -/
  | notCreated
  deriving DecidableEq, Repr

/-- `_4KB_` -/
abbrev size4KB : ℕ := 0x1000

/-- `_2MB_` -/
abbrev size2MB : ℕ := 0x200000

/-- `_1GB_` -/
abbrev size1GB : ℕ := 0x40000000

/-- `PAGE_TABLE_ENTRIES` -/
abbrev pageTableEntries : ℕ := 512

/-- `MAP_NEW` and `MAP_UPDATE`. -/
abbrev mapNew : ℕ := 0

@[inherit_doc mapNew]
abbrev mapUpdate : ℕ := 1

/-- `PAGE_PSE` and `EPT_PAGE_PSE`, the flag of a large page. -/
abbrev pagePse : ℕ := 0x80

/-- The flag of a large page is set. -/
def IsPse (e : ℕ) : Prop := e / 128 % 2 = 1

instance (e : ℕ) : Decidable (IsPse e) := inferInstanceAs (Decidable (_ = _))

/-- `t` is one of the `n` pages from `a` on. -/
def IsPageOf (a n t : ℕ) : Prop := a ≤ t ∧ t < a + n * 4096 ∧ (t - a) % 4096 = 0

instance (a n t : ℕ) : Decidable (IsPageOf a n t) := inferInstanceAs (Decidable (_ ∧ _))

theorem isPageOf_one {a t : ℕ} : IsPageOf a 1 t ↔ t = a := by
  unfold IsPageOf
  omega

/-- `(vaddr >> shift) & 0x1FF` -/
def tableIndex (shift vaddr : ℕ) : ℕ := vaddr / 2 ^ shift % 512

section Map

variable {ε σ : Type}

/-- The body of the mapping loop: enter one page. -/
def mapPage (O : TableOps ε σ) (tableFlags pml4 vaddr pageSize entry : ℕ) : EStateM ε σ Unit := do
  let pdpe ← O.ensure tableFlags pml4 (tableIndex 39 vaddr)
  if pageSize = size1GB then
    modify (O.write pdpe (tableIndex 30 vaddr) entry)
  else
    let pde ← O.ensure tableFlags pdpe (tableIndex 30 vaddr)
    if pageSize = size2MB then
      modify (O.write pde (tableIndex 21 vaddr) entry)
    else
      let pte ← O.ensure tableFlags pde (tableIndex 21 vaddr)
      modify (O.write pte (tableIndex 12 vaddr) entry)

/-- The mapping loop over `n` pages. -/
def mapLoop (O : TableOps ε σ) (tableFlags pml4 pageSize leafFlags : ℕ) :
    ℕ → ℕ → ℕ → EStateM ε σ Unit
  | 0, _, _ => pure ()
  | n + 1, vaddr, paddr => do
    mapPage O tableFlags pml4 vaddr pageSize (paddr ||| leafFlags)
    mapLoop O tableFlags pml4 pageSize leafFlags n ((vaddr + pageSize) % 2 ^ 64)
      ((paddr + pageSize) % 2 ^ 64)

/-- The root of the tables to work on: a new table or the one at `pml4Paddr`. -/
def mapRoot (O : TableOps ε σ) (stop : Stop MapPanic → ε) (pml4Paddr flags : ℕ) :
    EStateM ε σ ℕ := do
  if flags = mapNew then
    O.newTable
  else if flags = mapUpdate then
    if O.read (← get) pml4Paddr 0 = 0 then
      throw (stop (.panic .nullTables))
    else
      pure pml4Paddr
  else
    throw (stop (.panic .undefinedFlag))

/-- The common body of `map_memory` and `ept_map_memory`; it returns the root, which the source
stores through `pml4_paddr`.  The number of pages is converted to the `int` that the loop counts
with; to a negative one the counter gets only past `INT_MAX`, after `2 ^ 31` iterations. -/
def mapRegion (O : TableOps ε σ) (stop : Stop MapPanic → ε) (tableFlags leafFlags : ℕ)
    (pml4Paddr startVaddr endVaddr startPaddr pageSize flags : ℕ) : EStateM ε σ ℕ := do
  if startVaddr > endVaddr then
    throw (stop (.panic .startAfterEnd))
  else if startVaddr = endVaddr then
    throw (stop (.panic .emptyRegion))
  else if pageSize ≠ size4KB ∧ pageSize ≠ size2MB ∧ pageSize ≠ size1GB then
    throw (stop (.panic .badPageSize))
  else if startPaddr % pageSize ≠ 0 then
    throw (stop (.panic .notAligned))
  else
    let leafFlags := if pageSize = size4KB then leafFlags else leafFlags ||| pagePse
    let pml4 ← mapRoot O stop pml4Paddr flags
    let lastPages := int32 (pages (endVaddr - startVaddr) pageSize)
    if lastPages < 0 then
      mapLoop O tableFlags pml4 pageSize leafFlags (2 ^ 31) startVaddr startPaddr
      throw (stop .overflow)
    else
      mapLoop O tableFlags pml4 pageSize leafFlags lastPages.toNat startVaddr startPaddr
      pure pml4

/-- `map_memory` -/
def mapMemory (O : TableOps ε σ) (stop : Stop MapPanic → ε)
    (pml4Paddr startVaddr endVaddr startPaddr pageSize protection flags : ℕ) : EStateM ε σ ℕ :=
  -- `PAGE_PRESENT | PAGE_RW`
  mapRegion O stop 3 protection pml4Paddr startVaddr endVaddr startPaddr pageSize flags

/-- `ept_map_memory` -/
def eptMapMemory (O : TableOps ε σ) (stop : Stop MapPanic → ε)
    (pml4Paddr startVaddr endVaddr startPaddr pageSize mtype protection flags : ℕ) :
    EStateM ε σ ℕ :=
  -- `EPT_PAGE_READ | EPT_PAGE_WRITE | EPT_PAGE_EXEC`
  mapRegion O stop 7 ((mtype <<< 3) ||| protection) pml4Paddr startVaddr endVaddr startPaddr
    pageSize flags

/-- `unmap_memory` -/
def unmapMemory (O : TableOps ε σ) (pml4Paddr vaddr : ℕ) : EStateM ε σ Unit := do
  let m := O.read (← get)
  let pdpe := tableAddr (m pml4Paddr (tableIndex 39 vaddr))
  let pdpeEntry := m pdpe (tableIndex 30 vaddr)
  if pdpe ≠ 0 ∧ pdpeEntry ≠ 0 then
    if IsPse pdpeEntry then
      modify (O.write pdpe (tableIndex 30 vaddr) 0)
    else
      let pde := tableAddr pdpeEntry
      let pdeEntry := m pde (tableIndex 21 vaddr)
      if pde ≠ 0 ∧ pdeEntry ≠ 0 then
        if IsPse pdeEntry then
          modify (O.write pde (tableIndex 21 vaddr) 0)
        else
          modify (O.write (tableAddr pdeEntry) (tableIndex 12 vaddr) 0)
      else
        pure ()
  else
    pure ()

end Map

/-! ### The hardware walk -/

/-- The two formats of tables. -/
inductive TableKind where
  /-- The page tables of a guest. -/
  | page
  /-- The nested tables of a VM. -/
  | ept
  deriving DecidableEq, Repr

namespace TableKind

/-- An entry is present: its bit 0 is set, or, in nested tables, one of the access bits 0 to 2. -/
def Present : TableKind → ℕ → Prop
  | page, e => e % 2 = 1
  | ept, e => e % 8 ≠ 0

instance (k : TableKind) (e : ℕ) : Decidable (k.Present e) := by
  cases k <;> unfold Present <;> infer_instance

/-- The flags of the interior entries. -/
def tableFlags : TableKind → ℕ
  | page => 3
  | ept => 7

/-- The protection and the memory type in a leaf entry; the flag of a large page is not part of the
protection. -/
def decode : TableKind → Bool → ℕ → ℕ × ℕ
  | page, large, e => (if large then e % 4096 - pagePse else e % 4096, 0)
  | ept, _, e => (e % 8, e / 8 % 8)

end TableKind

/-- What the tables say of an address. -/
structure Translation where
  addr : ℕ
  prot : ℕ
  mtype : ℕ
  deriving DecidableEq, Repr

/-- The address bits 12 to 51 of an entry. -/
def entryAddr (e : ℕ) : ℕ := e % 2 ^ 52 / 4096 * 4096

/-- The translation through a leaf entry for pages of `pageSize` bytes. -/
def leafTranslation (k : TableKind) (pageSize e v : ℕ) : Translation :=
  let d := k.decode (pageSize ≠ size4KB) e
  ⟨e % 2 ^ 52 / pageSize * pageSize + v % pageSize, d.1, d.2⟩

/-- The walk of the tables at `cr3` for the address `v`. -/
def walk (k : TableKind) (m : Tables) (cr3 v : ℕ) : Option Translation :=
  let pml4e := m cr3 (tableIndex 39 v)
  if k.Present pml4e then
    let pdpe := m (entryAddr pml4e) (tableIndex 30 v)
    if k.Present pdpe then
      if IsPse pdpe then
        some (leafTranslation k size1GB pdpe v)
      else
        let pde := m (entryAddr pdpe) (tableIndex 21 v)
        if k.Present pde then
          if IsPse pde then
            some (leafTranslation k size2MB pde v)
          else
            let pte := m (entryAddr pde) (tableIndex 12 v)
            if k.Present pte then some (leafTranslation k size4KB pte v) else none
        else none
    else none
  else none

end Savannah
