import GinnOS.Memory.HeapRuns

/-! # The memory layout at boot (`kernel/kernel.c`, `memory/pmm_layout.c`, `region.c`, `boot_layout.c`)

`kernel_main` puts the bitmap of the PMM on the page behind the kernel and the heap on the
page behind the bitmap.  `memoryInit` is this for a kernel in the first 4 MiB; here the kernel
ends at any 32-bit address, sums wrap, and the table of reserved regions is checked.

Nobody looks at the memory map for the space in between.  `Room` says what the map has to
offer there.
-/

namespace GinnOS.Memory

open Lib Lib.Buf List

/-! ## Which pages `pmm_init` frees -/

theorem Pmm.freeRange_totalPages (table : List (Nat × Nat)) (p : Pmm) (page count : Nat) :
    (p.freeRange table page count).totalPages = p.totalPages := by
  induction count generalizing p page with
  | zero => rfl
  | succ count ih =>
    rw [Pmm.freeRange, ih]
    split <;> rfl

/-- A page is whole RAM by some entry of the map, tracked, and touches no reserved region. -/
def Offered (table : List (Nat × Nat)) (totalPages : Nat) (rs : List MemoryRegion) (page : Nat) : Prop :=
  page < totalPages ∧ regionOverlaps table (4096 * page) (4096 * page + 4096) = false ∧
    ∃ r ∈ rs, r.pageStart ≤ page ∧ page < r.stop / 4096

theorem Pmm.freeRange_free (table : List (Nat × Nat)) (p : Pmm) (page count i : Nat) :
    (p.freeRange table page count).free i = true ↔ p.free i = true ∨
      (i < p.totalPages ∧ regionOverlaps table (4096 * i) (4096 * i + 4096) = false ∧ page ≤ i ∧ i < page + count) := by
  induction count generalizing p page with
  | zero =>
    rw [Pmm.freeRange]
    exact ⟨.inl, fun freed => freed.elim id fun none => absurd none.2.2 (by omega)⟩
  | succ count ih =>
    rw [Pmm.freeRange, ih]
    rcases eq_or_ne i page with rfl | other
    · split
      · next real => simp [Pmm.markFree, real]
      · next unreal =>
        refine or_congr_right ⟨fun later => absurd later.2.2.1 (by omega), fun now => absurd ⟨now.1, now.2.1⟩ unreal⟩
    · have range : page + 1 ≤ i ∧ i < page + 1 + count ↔ page ≤ i ∧ i < page + (count + 1) := by omega
      rw [range]
      split
      · simp [Pmm.markFree, other]
      · rfl

theorem Pmm.freeRegions_free (table : List (Nat × Nat)) (rs : List MemoryRegion) (p : Pmm) (i : Nat) :
    (rs.foldl (fun p r => p.freeRegion table r) p).free i = true ↔
      p.free i = true ∨ Offered table p.totalPages rs i := by
  induction rs generalizing p with
  | nil => simp [Offered]
  | cons r rs ih =>
    rw [foldl_cons, ih, Pmm.freeRegion, Pmm.freeRange_free, Pmm.freeRange_totalPages]
    have range : r.pageStart ≤ i ∧ i < r.pageStart + (r.stop / 4096 - r.pageStart) ↔
        r.pageStart ≤ i ∧ i < r.stop / 4096 := by omega
    rw [range, or_assoc]
    refine or_congr_right ?_
    simp only [Offered, mem_cons, exists_eq_or_imp, ← and_or_left]

theorem pmmInit_free (totalPages : Nat) (regions : List MemoryRegion) (table : List (Nat × Nat)) (i : Nat) :
    (pmmInit totalPages regions table).free i = true ↔
      Offered table totalPages ((regions.take 32).filter MemoryRegion.usable) i := by
  rw [pmmInit, Pmm.freeRegions_free]
  simp

/-! ## `kernel_main` -/

/-- What `pmm_layout_init` computes. -/
structure PmmLayout where
  bitmapStart : Nat
  bitmapEnd : Nat
  totalPages : Nat
  deriving DecidableEq

/-- `pmm_layout_init`; it panics on a map without usable memory. -/
def pmmLayoutInit (kernelEnd : Nat) (regions : List MemoryRegion) : Option PmmLayout :=
  (pmmTotalPages regions).map fun totalPages =>
    let bitmapStart := (kernelEnd + 4095) % 4294967296 / 4096 * 4096
    { bitmapStart := bitmapStart
      bitmapEnd := (bitmapStart + (totalPages + 7) / 8) % 4294967296
      totalPages := totalPages }

/-- `region_reserve`: both panics are `none`. -/
def regionReserve (table : List (Nat × Nat)) (start stop : Nat) : Option (List (Nat × Nat)) :=
  if stop ≤ start then none
  else if 16 ≤ table.length then none
  else some (table ++ [(start, stop)])

/-- `BOOT_RESERVED_START` and `BOOT_RESERVED_END`. -/
def stage2Reserved : Nat × Nat := (0x7C00, 0xFC00)

structure BootMemory where
  layout : PmmLayout
  /-- the PMM just before `heap_init` -/
  pmm : Pmm
  heap : Heap

/-- `kernel_main` from the check of the kernel's addresses up to `heap_init`. -/
def bootMemory (kernelStart kernelEnd : Nat) (regions : List MemoryRegion) (mem : Buf) : Option BootMemory :=
  if kernelEnd ≤ kernelStart then none
  else do
    let table ← regionReserve [] kernelStart kernelEnd
    let table ← regionReserve table stage2Reserved.1 stage2Reserved.2
    let layout ← pmmLayoutInit kernelEnd regions
    let table ← regionReserve table layout.bitmapStart layout.bitmapEnd
    let pmm := pmmInit layout.totalPages regions table
    let heap := heapInit pmm mem layout.bitmapEnd
    let _ ← regionReserve table heap.start heap.stop
    pure ⟨layout, pmm, heap⟩

/-- The table of reserved regions `pmm_init` sees. -/
def reservedTable (kernelStart kernelEnd : Nat) (layout : PmmLayout) : List (Nat × Nat) :=
  [(kernelStart, kernelEnd), stage2Reserved, (layout.bitmapStart, layout.bitmapEnd)]

variable {kernelStart kernelEnd totalPages : Nat} {regions : List MemoryRegion} {mem : Buf} {layout : PmmLayout}

def PmmLayout.boot (layout : PmmLayout) (kernelStart kernelEnd : Nat) (regions : List MemoryRegion) (mem : Buf) :
    BootMemory :=
  let pmm := pmmInit layout.totalPages regions (reservedTable kernelStart kernelEnd layout)
  ⟨layout, pmm, heapInit pmm mem layout.bitmapEnd⟩

section

variable (layout : PmmLayout) (kernelStart kernelEnd : Nat) (regions : List MemoryRegion) (mem : Buf)

end

theorem regionReserve_some {table table' : List (Nat × Nat)} {start stop : Nat}
    (reserved : regionReserve table start stop = some table') : table' = table ++ [(start, stop)] := by
  rw [regionReserve] at reserved
  split_ifs at reserved
  exact (Option.some.inj reserved).symm

theorem bootMemory_some {b : BootMemory} (booted : bootMemory kernelStart kernelEnd regions mem = some b) :
    ∃ layout, pmmLayoutInit kernelEnd regions = some layout ∧ b = layout.boot kernelStart kernelEnd regions mem := by
  rw [bootMemory] at booted
  split_ifs at booted
  simp only [Option.bind_eq_bind, Option.bind_eq_some_iff, Option.pure_def, Option.some.injEq] at booted
  obtain ⟨t₁, kernel, t₂, stage2, layout, laidOut, t₃, bitmap, t₄, heap, rfl⟩ := booted
  obtain rfl := regionReserve_some kernel
  obtain rfl := regionReserve_some stage2
  obtain rfl := regionReserve_some bitmap
  exact ⟨layout, laidOut, rfl⟩

/-- A kernel in the first 4 MiB starts with the heap of `memoryInit`. -/
theorem memoryInit_of_bootMemory (image : KernelImage) {b : BootMemory}
    (booted : bootMemory image.start image.stop regions mem = some b) :
    memoryInit image stage2Reserved regions mem = some b.heap := by
  obtain ⟨layout, laidOut, rfl⟩ := bootMemory_some booted
  rw [pmmLayoutInit, Option.map_eq_some_iff] at laidOut
  obtain ⟨totalPages, total, rfl⟩ := laidOut
  have small := pmmTotalPages_small total
  have low := image.low
  have start : (image.stop + 4095) % 4294967296 = image.stop + 4095 := Nat.mod_eq_of_lt (by omega)
  have bitmapEnd : ((image.stop + 4095) / 4096 * 4096 + (totalPages + 7) / 8) % 4294967296 =
      (image.stop + 4095) / 4096 * 4096 + (totalPages + 7) / 8 := Nat.mod_eq_of_lt (by omega)
  simp only [memoryInit, total, PmmLayout.boot, reservedTable, start, bitmapEnd]

/-! ## What the map has to offer -/

/-- A byte of RAM by the map: some entry says usable and none says anything else. -/
def UsableRam (regions : List MemoryRegion) (a : Nat) : Prop :=
  (∃ r ∈ regions, r.type = 1 ∧ r.base ≤ a ∧ a < r.base + r.length) ∧
    ∀ r ∈ regions, r.type ≠ 1 → a < r.base ∨ r.base + r.length ≤ a

/-- A page that is RAM as a whole, by one entry of the map that ends below 2^64. -/
def UsablePage (regions : List MemoryRegion) (page : Nat) : Prop :=
  (∃ r ∈ regions, r.type = 1 ∧ r.base ≤ 4096 * page ∧ 4096 * page + 4096 ≤ r.base + r.length ∧
      r.base + r.length < 18446744073709551616) ∧
    ∀ r ∈ regions, r.type ≠ 1 → 4096 * page + 4096 ≤ r.base ∨ r.base + r.length ≤ 4096 * page

def firstPage (kernelEnd : Nat) : Nat := (kernelEnd + 4095) / 4096

/-- The pages of the bitmap and of the first heap. -/
def neededPages (totalPages : Nat) : Nat := ((totalPages + 7) / 8 + 4095) / 4096 + 16

/-- The pages behind the kernel that bitmap and heap are put on are RAM, below the last page of
the 32-bit space, and none of them is a page of the second boot stage. -/
structure Room (kernelEnd totalPages : Nat) (regions : List MemoryRegion) : Prop where
  top : firstPage kernelEnd + neededPages totalPages ≤ 1048575
  stage2 : 16 ≤ firstPage kernelEnd ∨ firstPage kernelEnd + neededPages totalPages ≤ 7
  ram : ∀ page, firstPage kernelEnd ≤ page → page < firstPage kernelEnd + neededPages totalPages →
    UsablePage regions page

/-- Two ranges of addresses do not meet. -/
def Separate (r s : Nat × Nat) : Prop := r.2 ≤ s.1 ∨ s.2 ≤ r.1

/-- The bitmap is RAM, the pages of the heap were free, and neither meets anything else. -/
structure BootMemory.Sound (b : BootMemory) (kernelStart kernelEnd : Nat) (regions : List MemoryRegion) (mem : Buf) :
    Prop where
  bitmap : ∀ a, b.layout.bitmapStart ≤ a → a < b.layout.bitmapEnd → UsableRam regions a
  bitmapApart : ∀ r ∈ [(kernelStart, kernelEnd), stage2Reserved], Separate (b.layout.bitmapStart, b.layout.bitmapEnd) r
  heapFree : ∀ page, b.heap.start ≤ 4096 * page → 4096 * page < b.heap.stop → b.pmm.free page = true
  heapRam : ∀ a, b.heap.start ≤ a → a < b.heap.stop → UsableRam regions a
  heapApart : ∀ r ∈ reservedTable kernelStart kernelEnd b.layout, Separate (b.heap.start, b.heap.stop) r
  /-- `heap_init` writes to nothing outside the heap -/
  zeroed : ∀ a, a < b.heap.start ∨ b.heap.stop ≤ a → b.heap.mem a = mem a
  /-- and no page of the heap can be allocated afterwards -/
  owned : ∀ page, b.heap.start ≤ 4096 * page → 4096 * page < b.heap.stop → b.heap.pmm.free page = false

theorem UsablePage.ram {page a : Nat} (usable : UsablePage regions page) (lower : 4096 * page ≤ a)
    (upper : a < 4096 * page + 4096) : UsableRam regions a := by
  obtain ⟨⟨r, member, type, base, stop, _⟩, others⟩ := usable
  refine ⟨⟨r, member, type, by omega, by omega⟩, fun s isEntry other => ?_⟩
  have := others s isEntry other
  omega

theorem stop_le_highest (rs : List MemoryRegion) (top : Nat) :
    top ≤ rs.foldl (fun top r => max top r.stop) top ∧
      ∀ r ∈ rs, r.stop ≤ rs.foldl (fun top r => max top r.stop) top := by
  induction rs generalizing top with
  | nil => exact ⟨Nat.le_refl _, nofun⟩
  | cons r rs ih =>
    obtain ⟨above, each⟩ := ih (max top r.stop)
    rw [foldl_cons]
    refine ⟨by omega, fun s member => ?_⟩
    rcases mem_cons.mp member with rfl | later
    · omega
    · exact each s later

theorem stop_le_total (total : pmmTotalPages regions = some totalPages) {r : MemoryRegion}
    (member : r ∈ (regions.take 32).filter MemoryRegion.usable) : r.stop / 4096 ≤ totalPages := by
  rw [pmmTotalPages] at total
  have below := (stop_le_highest ((regions.take 32).filter MemoryRegion.usable) 0).2 r member
  split_ifs at total
  cases total
  exact Nat.div_le_div_right below

/-- `pmm_init` frees a page of RAM that touches nothing reserved. -/
theorem UsablePage.freed {page : Nat} (usable : UsablePage regions page) (table : List (Nat × Nat))
    (few : regions.length ≤ 32) (total : pmmTotalPages regions = some totalPages)
    (real : 0 < page) (below : page < 1048575) (apart : ∀ r ∈ table, Separate (4096 * page, 4096 * page + 4096) r) :
    (pmmInit totalPages regions table).free page = true := by
  obtain ⟨⟨r, member, type, base, stop, noWrap⟩, _⟩ := usable
  have seen : r ∈ (regions.take 32).filter MemoryRegion.usable := by
    rw [take_of_length_le few, mem_filter]
    exact ⟨member, by simp [MemoryRegion.usable, type]; omega⟩
  have starts : r.pageStart ≤ page := by
    simp only [MemoryRegion.pageStart]
    split <;> omega
  have stops : page < r.stop / 4096 := by
    rw [MemoryRegion.stop]
    omega
  have tracked := stop_le_total total seen
  refine (pmmInit_free _ _ _ _).mpr ⟨by omega, ?_, r, seen, starts, stops⟩
  rw [regionOverlaps, any_eq_false]
  intro s reserved
  have := apart s reserved
  simp only [Separate] at this
  simp
  omega

theorem Room.placed (room : Room kernelEnd totalPages regions) (total : pmmTotalPages regions = some totalPages)
    (tracked : 0 < totalPages) :
    ∃ layout, pmmLayoutInit kernelEnd regions = some layout ∧ layout.totalPages = totalPages ∧
      layout.bitmapStart = 4096 * firstPage kernelEnd ∧
      layout.bitmapStart < layout.bitmapEnd ∧
      (layout.bitmapEnd + 4095) % 4294967296 / 4096 * 4096 + 65536 =
        4096 * (firstPage kernelEnd + neededPages totalPages) ∧
      layout.bitmapEnd ≤ (layout.bitmapEnd + 4095) % 4294967296 / 4096 * 4096 := by
  have top := room.top
  simp only [firstPage, neededPages] at top ⊢
  have start : (kernelEnd + 4095) % 4294967296 = kernelEnd + 4095 := Nat.mod_eq_of_lt (by omega)
  refine ⟨_, by rw [pmmLayoutInit, total, Option.map_some], rfl, ?_⟩
  simp only [start]
  omega

end GinnOS.Memory
