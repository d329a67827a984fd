import GinnOS.Memory.BootLayout
import GinnOS.Memory.PageBitmap

/-! # Free memory after `pmm_init`

`pmm_init` walks the memory map entry by entry.  A page that two entries cover is counted twice, and the first
page of an entry in the last page below 4 GiB wraps to page 1.  For maps with neither, the free pages are
those that lie in usable memory and outside the reserved regions.
-/

namespace GinnOS.Memory

open List

variable {regions rs : List MemoryRegion} {table : List (Nat × Nat)} {p : Pmm} {page totalPages : Nat} {r : MemoryRegion}

/-- The page lies inside the usable entry. -/
structure MemoryRegion.Covers (r : MemoryRegion) (page : Nat) : Prop where
  usable : r.type = 1
  lower : r.base ≤ 4096 * page
  upper : 4096 * page + 4096 ≤ r.base + r.length

theorem Pmm.Exact.freeRange (exact : p.Exact) (real : page ≠ 0) (count : Nat)
    (fresh : ∀ i, page ≤ i → i < page + count → p.free i = false) : (p.freeRange table page count).Exact := by
  induction count generalizing p page with
  | zero => exact exact
  | succ count ih =>
    rw [Pmm.freeRange]
    refine ih ?_ (by omega) fun i lower upper => ?_
    · split
      · next tracked => exact (exact.markFree (fresh page (Nat.le_refl _) (by omega)) real tracked.1).1
      · exact exact
    · have used := fresh i (by omega) (by omega)
      split
      · exact (Function.update_of_ne (show i ≠ page by omega) ..).trans used
      · exact used

end GinnOS.Memory
