import GinnOS.Memory.Heap

/-! # Paging (`arch/x86/cpu/paging.c`)

Page directories and page tables are frames of physical memory, 1024 little-endian words
each.  The kernel keeps them in the low identity map, so it reads and writes them at their
physical addresses.  A directory is named by its frame; an entry is a number whose low
twelve bits are flags (bit 0 present, bit 2 user) and whose quotient by 4096 is a frame.

Whether a physical address reaches its frame depends on the active directory.  The model
performs every access on the frame itself and notes in `log` the frame together with the
address that the active directory gave for it at that moment, so that a run in which all of
these agree is the run of the hardware.
-/

namespace GinnOS.Memory

open Lib Lib.Buf

structure Machine extends Heap where
  kernelDirectory : Nat
  /-- CR3 -/
  active : Nat
  /-- the frames dereferenced by their physical address, latest first, with the address each
  was translated to -/
  log : List (Nat × Nat)

/-! ## Entries -/

def isPresent (entry : Nat) : Bool := entry % 2 = 1

def isUser (entry : Nat) : Bool := entry / 4 % 2 = 1

/-- `entry | PDE_USER`. -/
def withUser (entry : Nat) : Nat := if isUser entry then entry else entry + 4

/-- `PAGE_FRAME`, as a frame number. -/
def pageFrame (entry : Nat) : Nat := entry / 4096

/-- `(phys & 0xFFFFF000) | (flags & 0xFFF)`. -/
def pageEntry (phys flags : Nat) : Nat := phys / 4096 * 4096 + flags % 4096

/-- `PTE_KERNEL_RW` and `PDE_KERNEL_RW`. -/
def kernelRw : Nat := 3

/-- `PTE_USER_RW` and `PDE_USER_RW`. -/
def userRw : Nat := 7

/-- `PAGE_DIR_INDEX`. -/
def dirIndex (virt : Nat) : Nat := virt / 4194304 % 1024

/-- `PAGE_TABLE_INDEX`. -/
def tableIndex (virt : Nat) : Nat := virt / 4096 % 1024

/-- Entry `i` of the directory or table in frame `f`. -/
def entry (mem : Buf) (f i : Nat) : Nat := word mem (4096 * f + 4 * i)

def setEntry (mem : Buf) (f i value : Nat) : Buf := setWord mem (4096 * f + 4 * i) value

/-- `paging_get_physical_in`; also what the MMU does, present bits only. -/
def pagingGetPhysicalIn (mem : Buf) (pd virt : Nat) : Nat :=
  let pde := entry mem pd (dirIndex virt)
  if isPresent pde then
    let pte := entry mem (pageFrame pde) (tableIndex virt)
    if isPresent pte then 4096 * pageFrame pte + virt % 4096 else 0
  else 0

namespace Machine

variable (m : Machine)

/-- Frame `f` is dereferenced by its physical address. -/
def touch (f : Nat) : Machine :=
  { m with log := (f, pagingGetPhysicalIn m.mem m.active (4096 * f)) :: m.log }

/-- A word of the frame `f` is written. -/
def store (f i value : Nat) : Machine := { m.touch f with mem := setEntry m.mem f i value }

/-- `memset (f, 0, PAGE_SIZE)`. -/
def clear (f : Nat) : Machine := { m.touch f with mem := fill m.mem (4096 * f) 4096 0 }

/-- `memcpy (dst, src, PAGE_SIZE)`. -/
def copyFrame (dst src : Nat) : Machine :=
  { (m.touch src).touch dst with mem := splice m.mem (4096 * dst) 4096 (shift m.mem (4096 * src)) }

@[simp] theorem touch_mem (f : Nat) : (m.touch f).mem = m.mem := rfl
@[simp] theorem store_mem (f i value : Nat) : (m.store f i value).mem = setEntry m.mem f i value := rfl
@[simp] theorem store_kernelDirectory (f i value : Nat) : (m.store f i value).kernelDirectory = m.kernelDirectory := rfl

end Machine

/-- `pmm_alloc_page` on the machine. -/
def allocPage (m : Machine) : Option Nat × Machine :=
  let (f, pmm) := pmmAllocPage m.pmm
  (f, { m with pmm := pmm })

/-! ## Boot -/

/-- The words of a table, as bytes. -/
def tableBytes (words : Nat → Nat) : Buf := fun k => byteOf (words (k / 4)) (k % 4)

/-- The identity entries of table `i`; what is behind the end of memory stays zero. -/
def identityEntry (totalMemory i j : Nat) : Nat :=
  let phys := (i * 1024 + j) * 4096 % 4294967296
  if phys < totalMemory then phys + kernelRw else 0

/-- The loop of `paging_init` over the tables, `n` of them from table `i` on. -/
def identityTables (totalMemory : Nat) : Machine → (n i : Nat) → Option Machine
  | m, 0, _ => some m
  | m, n + 1, i =>
    match allocPage m with
    | (none, _) => none
    | (some table, m) =>
      let mem := splice m.mem (4096 * table) 4096 (tableBytes (identityEntry totalMemory i))
      let mem := setEntry mem m.kernelDirectory i (4096 * table + kernelRw)
      identityTables totalMemory { m with mem := mem } n (i + 1)

/-- `paging_init`, which panics when it runs out of pages. -/
def pagingInit (h : Heap) : Option Machine :=
  let totalMemory := h.pmm.totalPages * 4096 % 4294967296
  let tablesNeeded := (totalMemory + 4194303) % 4294967296 / 4194304
  match pmmAllocPage h.pmm with
  | (none, _) => none
  | (some directory, pmm) =>
    let mem := fill h.mem (4096 * directory) 4096 0
    identityTables totalMemory
      { h with pmm := pmm, mem := mem, kernelDirectory := directory, active := directory, log := [] }
      tablesNeeded 0

/-- `paging_map`: a page of the kernel directory. -/
def pagingMap (m : Machine) (virt phys flags : Nat) : Option Machine :=
  let kd := m.kernelDirectory
  let i := dirIndex virt
  let withTable :=
    if isPresent (entry m.mem kd i) then some m
    else
      match allocPage m with
      | (none, _) => none
      | (some table, m) =>
        let mem := fill m.mem (4096 * table) 4096 0
        some { m with mem := setEntry mem kd i (4096 * table + kernelRw) }
  match withTable with
  | none => none
  | some m =>
    let mem := if isUser flags then setEntry m.mem kd i (withUser (entry m.mem kd i)) else m.mem
    some { m with mem := setEntry mem (pageFrame (entry mem kd i)) (tableIndex virt) (pageEntry phys flags) }

/-- The loop of `map_framebuffer`: `n` pages from `addr` on, each mapped to itself. -/
def mapFramebufferPages : Machine → (n addr : Nat) → Option Machine
  | m, 0, _ => some m
  | m, n + 1, addr =>
    match pagingMap m addr addr kernelRw with
    | none => none
    | some m => mapFramebufferPages m n (addr + 4096)

def mapFramebuffer (m : Machine) (physBase bytes : Nat) : Option Machine :=
  let start := physBase / 4096 * 4096
  let stop := (physBase + bytes + 4095) % 4294967296 / 4096 * 4096
  mapFramebufferPages m ((stop - start) / 4096) start

/-- `kernel_main` up to the first process: memory, heap, paging, and the framebuffer if the boot
loader set one up. -/
def boot (image : KernelImage) (stage2 : Nat × Nat) (regions : List MemoryRegion) (mem : Buf)
    (framebuffer : Option (Nat × Nat)) : Option Machine :=
  match memoryInit image stage2 regions mem with
  | none => none
  | some h =>
    match pagingInit h with
    | none => none
    | some m =>
      match framebuffer with
      | none => some m
      | some (physBase, bytes) => mapFramebuffer m physBase bytes

/-! ## Address spaces -/

def pagingCloneDirectory (m : Machine) : Option Nat × Machine :=
  match allocPage m with
  | (none, m) => (none, m)
  | (some pd, m) => (some pd, m.copyFrame pd m.kernelDirectory)

/-- The first half of `paging_map_in`: a table of the process for the page, if there is memory
for one. -/
def ownTable (m : Machine) (pd virt flags : Nat) : Bool × Machine :=
  let i := dirIndex virt
  let m := m.touch pd
  let pde := entry m.mem pd i
  if isPresent pde then
    if isUser flags && !isUser pde then
      -- the table is shared with the kernel
      match allocPage m with
      | (none, m) => (false, m)
      | (some table, m) => (true, (m.copyFrame table (pageFrame pde)).store pd i (4096 * table + userRw))
    else (true, m)
  else
    match allocPage m with
    | (none, m) => (false, m)
    | (some table, m) => (true, (m.clear table).store pd i (4096 * table + kernelRw))

/-- The second half: the entry. -/
def writePage (m : Machine) (pd virt phys flags : Nat) : Machine :=
  let i := dirIndex virt
  let m := if isUser flags then m.store pd i (withUser (entry m.mem pd i)) else m.touch pd
  m.store (pageFrame (entry m.mem pd i)) (tableIndex virt) (pageEntry phys flags)

def pagingMapIn (m : Machine) (pd virt phys flags : Nat) : Bool × Machine :=
  match ownTable m pd virt flags with
  | (false, m) => (false, m)
  | (true, m) => (true, writePage m pd virt phys flags)

/-- Free the frames of the user entries of a table, `n` entries from `j` on. -/
def freeFrames (table : Nat) : Machine → (n j : Nat) → Option Machine
  | m, 0, _ => some m
  | m, n + 1, j =>
    let m := m.touch table
    let pte := entry m.mem table j
    let frame := pageFrame pte
    if isPresent pte && isUser pte && (frame ≠ 0 && pmmOwns m.pmm frame) then
      match pmmFreePage m.pmm (4096 * frame) with
      | none => none
      | some pmm => freeFrames table { m with pmm := pmm } n (j + 1)
    else freeFrames table m n (j + 1)

/-- Free the user tables of a directory with their frames, `n` entries from `i` on. -/
def freeTables (pd : Nat) : Machine → (n i : Nat) → Option Machine
  | m, 0, _ => some m
  | m, n + 1, i =>
    let m := m.touch pd
    let pde := entry m.mem pd i
    if isPresent pde && isUser pde then
      match freeFrames (pageFrame pde) m 1024 0 with
      | none => none
      | some m =>
        match pmmFreePage m.pmm (4096 * pageFrame pde) with
        | none => none
        | some pmm => freeTables pd { m with pmm := pmm } n (i + 1)
    else freeTables pd m n (i + 1)

/-- `paging_free_directory`; `none` is a panic of the PMM. -/
def pagingFreeDirectory (m : Machine) (pd : Nat) : Option Machine :=
  if pd = 0 ∨ pd = m.kernelDirectory then some m
  else
    match freeTables pd m 1024 0 with
    | none => none
    | some m =>
      match pmmFreePage m.pmm (4096 * pd) with
      | none => none
      | some pmm => some { m with pmm := pmm }

def pagingSwitchDirectory (m : Machine) (pd : Nat) : Machine := { m with active := pd }

end GinnOS.Memory
