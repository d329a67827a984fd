import GinnOS.Lib.Words
import GinnOS.Memory.Pmm

/-! # The kernel heap (`kernel/memory/heap.c`, without `HEAP_DEBUG`)

A first-fit allocator over one contiguous region of physical memory.  Every block has a
12-byte header in that memory: its data size at offset 0, the free flag at offset 4, the
address of the next header at offset 8.  Sizes and addresses are 32-bit numbers, so every
sum and difference that can wrap is written with its wrap.

The list walks take fuel.  `none` stands for a kernel panic and for a walk that does not
end.
-/

namespace GinnOS.Memory

open Lib Lib.Buf

/-- The statistics `heap_get_stats` reports. -/
structure HeapStats where
  totalAllocs : UInt32
  totalFrees : UInt32
  currentUsage : UInt32
  peakUsage : UInt32
  deriving DecidableEq

structure Heap where
  pmm : Pmm
  /-- physical memory, in which the headers are -/
  mem : Buf
  head : Nat
  start : Nat
  stop : Nat
  stats : HeapStats

/-- 32-bit subtraction. -/
def sub32 (a b : Nat) : Nat := (a + 4294967296 - b) % 4294967296

/-- `sizeof(heap_block_t)`. -/
def headerSize : Nat := 12

/-- Steps after which a walk over the block list has left every possible list. -/
def walkLimit : Nat := 4294967296

def align4 (value : Nat) : Nat := (value + 3) % 4294967296 / 4 * 4

/-! ## Block headers -/

def blockSize (mem : Buf) (block : Nat) : Nat := word mem block

def blockFree (mem : Buf) (block : Nat) : Bool := mem (block + 4) != 0

def blockNext (mem : Buf) (block : Nat) : Nat := word mem (block + 8)

def setSize (mem : Buf) (block size : Nat) : Buf := setWord mem block size

def setFree (mem : Buf) (block : Nat) (free : Bool) : Buf := put8 mem (block + 4) (if free then 1 else 0)

def setNext (mem : Buf) (block next : Nat) : Buf := setWord mem (block + 8) next

/-- The header of a free block with nothing behind it. -/
def newBlock (mem : Buf) (block size : Nat) : Buf :=
  setNext (setFree (setSize mem block size) block true) block 0

def heapSplit (mem : Buf) (block size : Nat) : Buf :=
  if (size + headerSize + 16) % 4294967296 ≤ blockSize mem block then
    let newBlock := (block + headerSize + size) % 4294967296
    let mem := setSize mem newBlock (sub32 (sub32 (blockSize mem block) size) headerSize)
    let mem := setFree mem newBlock true
    let mem := setNext mem newBlock (blockNext mem block)
    let mem := setSize mem block size
    setNext mem block newBlock
  else mem

def heapCoalesce : (fuel : Nat) → (mem : Buf) → (block : Nat) → Option Buf
  | 0, _, _ => none
  | fuel + 1, mem, block =>
    let next := blockNext mem block
    if next ≠ 0 ∧ blockFree mem next then
      let mem := setSize mem block ((blockSize mem block + headerSize + blockSize mem next) % 4294967296)
      heapCoalesce fuel (setNext mem block (blockNext mem next)) block
    else some mem

/-! ## Growing -/

/-- `heap_init`, behind the bitmap of the PMM. -/
def heapInit (pmm : Pmm) (mem : Buf) (bitmapEnd : Nat) : Heap :=
  let start := (bitmapEnd + 4095) % 4294967296 / 4096 * 4096
  let stop := (start + 16 * 4096) % 4294967296
  let mem := newBlock mem start (sub32 (sub32 stop start) headerSize)
  { pmm := pmmMarkRegionUsed pmm start stop
    mem := fill mem (start + headerSize) (blockSize mem start) 0
    head := start, start := start, stop := stop, stats := ⟨0, 0, 0, 0⟩ }

/-- Where the linker put the kernel: inside the first 4 MiB. -/
structure KernelImage where
  start : Nat
  stop : Nat
  nonempty : start < stop
  low : stop ≤ 4194304

/-- The memory part of `kernel_main`: the layout, the PMM and the heap.  The reserved regions are
the kernel, the second boot stage and the bitmap. -/
def memoryInit (image : KernelImage) (stage2 : Nat × Nat) (regions : List MemoryRegion) (mem : Buf) : Option Heap :=
  match pmmTotalPages regions with
  | none => none
  | some totalPages =>
    let bitmapStart := (image.stop + 4095) / 4096 * 4096
    let bitmapEnd := bitmapStart + (totalPages + 7) / 8
    let table := [(image.start, image.stop), stage2, (bitmapStart, bitmapEnd)]
    some (heapInit (pmmInit totalPages regions table) mem bitmapEnd)

/-- The page `i` pages behind `expandStart`. -/
def expandPage (expandStart i : Nat) : Nat := (expandStart + i * 4096) % 4294967296 / 4096

/-- Give the pages from the `j`th on back, `n` of them. -/
def unclaimPages (expandStart : Nat) : Pmm → (n j : Nat) → Option Pmm
  | p, 0, _ => some p
  | p, n + 1, j =>
    match pmmFreePage p ((expandStart + j * 4096) % 4294967296) with
    | none => none
    | some p => unclaimPages expandStart p n (j + 1)

/-- The loop of `heap_expand` that takes the pages behind the heap, `n` of them from the `i`th
on. -/
def claimPages (expandStart : Nat) : Pmm → (n i : Nat) → Option (Bool × Pmm)
  | p, 0, _ => some (true, p)
  | p, n + 1, i =>
    if pmmIsPageFree p (expandPage expandStart i) then
      claimPages expandStart (pmmMarkPageUsed p (expandPage expandStart i)) n (i + 1)
    else
      match unclaimPages expandStart p i 0 with
      | none => none
      | some p => some (false, p)

def lastBlock : (fuel : Nat) → (mem : Buf) → (block : Nat) → Option Nat
  | 0, _, _ => none
  | fuel + 1, mem, block =>
    if blockNext mem block ≠ 0 then lastBlock fuel mem (blockNext mem block) else some block

/-- The pages `heap_expand` asks for. -/
def pagesNeeded (needed : Nat) : Nat :=
  let bytesNeeded := (needed + headerSize) % 4294967296
  max ((bytesNeeded + 4095) % 4294967296 / 4096) 4

def heapExpand (h : Heap) (needed : Nat) : Option (Bool × Heap) :=
  match claimPages h.stop h.pmm (pagesNeeded needed) 0 with
  | none => none
  | some (false, pmm) => some (false, { h with pmm := pmm })
  | some (true, pmm) =>
    let bytes := pagesNeeded needed * 4096 % 4294967296
    let mem := newBlock h.mem h.stop (sub32 bytes headerSize)
    match lastBlock walkLimit mem h.head with
    | none => none
    | some last =>
      let mem :=
        if blockFree mem last then
          setSize mem last ((blockSize mem last + headerSize + blockSize mem h.stop) % 4294967296)
        else setNext mem last h.stop
      some (true, { h with pmm := pmm, mem := mem, stop := (h.stop + bytes) % 4294967296 })

/-! ## Allocation -/

def statsAlloc (stats : HeapStats) (size : Nat) : HeapStats :=
  let usage := stats.currentUsage + UInt32.ofNat size
  { stats with
    totalAllocs := stats.totalAllocs + 1, currentUsage := usage, peakUsage := max stats.peakUsage usage }

def statsFree (stats : HeapStats) (size : Nat) : HeapStats :=
  { stats with
    totalFrees := stats.totalFrees + 1, currentUsage := stats.currentUsage - UInt32.ofNat size }

/-- The first-fit search: the first free block with room, or `some none` at the end of the list. -/
def firstFit : (fuel : Nat) → (mem : Buf) → (current allocSize : Nat) → Option (Option Nat)
  | 0, _, _, _ => none
  | fuel + 1, mem, current, allocSize =>
    if current = 0 then some none
    else if blockFree mem current ∧ allocSize ≤ blockSize mem current then some (some current)
    else firstFit fuel mem (blockNext mem current) allocSize

/-- Hand out a block that was found. -/
def Heap.allocate (h : Heap) (block allocSize : Nat) : Nat × Heap :=
  let mem := setFree (heapSplit h.mem block allocSize) block false
  ((block + headerSize) % 4294967296,
    { h with mem := mem, stats := statsAlloc h.stats (blockSize mem block) })

def kmalloc (h : Heap) (size : Nat) : Option (Nat × Heap) :=
  if size = 0 then some (0, h)
  else
    let allocSize := align4 size
    match firstFit walkLimit h.mem h.head allocSize with
    | none => none
    | some (some block) => some (h.allocate block allocSize)
    | some none =>
      match heapExpand h allocSize with
      | none => none
      | some (false, h) => some (0, h)
      | some (true, h) =>
        match firstFit walkLimit h.mem h.head allocSize with
        | none => none
        | some none => some (0, h)
        | some (some block) => some (h.allocate block allocSize)

/-- `memset` to zero in a 32-bit address space: the pointer wraps at its end. -/
def memzero (mem : Buf) (ptr len : Nat) : Buf :=
  fun k => if k < 4294967296 ∧ sub32 k ptr < len then 0 else mem k

def kcalloc (h : Heap) (count size : Nat) : Option (Nat × Heap) :=
  let total := count * size % 4294967296
  if count ≠ 0 ∧ total / count ≠ size then some (0, h)
  else
    match kmalloc h total with
    | none => none
    | some (ptr, h) => some (ptr, if ptr = 0 then h else { h with mem := memzero h.mem ptr total })

/-! ## Freeing -/

/-- The block whose successor is `block`, or 0: the walk that coalesces backward. -/
def prevBlock : (fuel : Nat) → (mem : Buf) → (prev block : Nat) → Option Nat
  | 0, _, _, _ => none
  | fuel + 1, mem, prev, block =>
    if prev ≠ 0 ∧ blockNext mem prev ≠ block then prevBlock fuel mem (blockNext mem prev) block
    else some prev

/-- Merge the block before `block` with it, if that one is free. -/
def coalesceBack (mem : Buf) (head block : Nat) : Option Buf :=
  match prevBlock walkLimit mem head block with
  | none => none
  | some prev => if prev ≠ 0 ∧ blockFree mem prev then heapCoalesce walkLimit mem prev else some mem

def kfree (h : Heap) (ptr : Nat) : Option Heap :=
  if ptr = 0 then some h
  else if ptr < h.start ∨ h.stop ≤ ptr then none
  else
    let block := sub32 ptr headerSize
    if blockFree h.mem block then none
    else
      match heapCoalesce walkLimit (setFree h.mem block true) block with
      | none => none
      | some mem =>
        match coalesceBack mem h.head block with
        | none => none
        | some mem => some { h with mem := mem, stats := statsFree h.stats (blockSize h.mem block) }

/-- The last resort of `krealloc`: a new block, a copy, and the old block freed. -/
def kreallocMove (h : Heap) (ptr newSize : Nat) : Option (Nat × Heap) :=
  match kmalloc h newSize with
  | none => none
  | some (newPtr, h) =>
    if newPtr = 0 then some (0, h)
    else
      let copySize := min (blockSize h.mem (sub32 ptr headerSize)) newSize
      match kfree { h with mem := splice h.mem newPtr copySize (shift h.mem ptr) } ptr with
      | none => none
      | some h => some (newPtr, h)

def krealloc (h : Heap) (ptr newSize : Nat) : Option (Nat × Heap) :=
  if ptr = 0 then kmalloc h newSize
  else if newSize = 0 then (kfree h ptr).map fun h => (0, h)
  else
    let allocSize := align4 newSize
    let block := sub32 ptr headerSize
    let oldSize := blockSize h.mem block
    if allocSize ≤ oldSize then
      -- shrink in place
      let mem := heapSplit h.mem block allocSize
      let usage := h.stats.currentUsage - UInt32.ofNat (sub32 oldSize (blockSize mem block))
      some (ptr, { h with mem := mem, stats := { h.stats with currentUsage := usage } })
    else
      let next := blockNext h.mem block
      let combined := (oldSize + headerSize + blockSize h.mem next) % 4294967296
      if next ≠ 0 ∧ blockFree h.mem next ∧ allocSize ≤ combined then
        -- absorb the free block behind
        let mem := setNext (setSize h.mem block combined) block (blockNext h.mem next)
        let mem := heapSplit mem block allocSize
        let usage := h.stats.currentUsage + UInt32.ofNat (sub32 (blockSize mem block) oldSize)
        let stats := { h.stats with currentUsage := usage, peakUsage := max h.stats.peakUsage usage }
        some ((block + headerSize) % 4294967296, { h with mem := mem, stats := stats })
      else kreallocMove h ptr newSize

end GinnOS.Memory
