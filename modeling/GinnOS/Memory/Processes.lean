import GinnOS.Memory.Paging

/-! # Processes and their memory

`process.c`, `elf_loader.c`, `exec.c`, `usermode_arch.c`, and `sys_sbrk`, `sys_mmap` with the
framebuffer's `mmap`.  A process is made by `exec` under the directory of its parent, gets its
stack when it first runs, and grows by `sbrk` and `mmap` under its own directory; its parent or
the kernel shell destroys it.  `mapFresh` is the loop that backs pages with fresh frames in four
of these places; none of them looks at what `paging_map_in` returns.
-/

namespace GinnOS.Memory

open Lib Lib.Buf

/-! ## Pages for users -/

def pageAlignUp (addr : Nat) : Nat := (addr + 4095) % 4294967296 / 4096 * 4096

/-- Back the `n` pages from `virt` on with zeroed frames. -/
def mapFresh (pd flags : Nat) : Machine → (n virt : Nat) → Bool × Machine
  | m, 0, _ => (true, m)
  | m, n + 1, virt =>
    match allocPage m with
    | (none, m) => (false, m)
    | (some frame, m) =>
      mapFresh pd flags (pagingMapIn (m.clear frame) pd virt (4096 * frame) flags).2 n (virt + 4096)

/-- The pages from the one of `start` up to the one before `stop`. -/
def pagesBetween (start stop : Nat) : Nat := (pageAlignUp stop - start / 4096 * 4096) / 4096

def mapUserRange (m : Machine) (pd start stop : Nat) : Bool × Machine :=
  mapFresh pd userRw m (pagesBetween start stop) (start / 4096 * 4096)

/-- `arch_translate_in`, which reads the directory and the table. -/
def translateIn (m : Machine) (pd virt : Nat) : Nat × Machine :=
  let pde := entry m.mem pd (dirIndex virt)
  let read := m.touch pd
  (pagingGetPhysicalIn m.mem pd virt, if isPresent pde then read.touch (pageFrame pde) else read)

/-- Write `len` bytes at the physical address `phys`. -/
def writeChunk (m : Machine) (phys len : Nat) (bytes : Buf) : Machine :=
  { m.touch (phys / 4096) with mem := splice m.mem phys len bytes }

/-- The loop over the pages of a range of the process: the bytes `done` into it come from
`source`, which may read memory. -/
def storeInProcess (source : Buf → Nat → Buf) (pd : Nat) :
    (fuel : Nat) → Machine → (vaddr done size : Nat) → Option Machine
  | 0, _, _, _, _ => none
  | fuel + 1, m, vaddr, done, size =>
    if size = 0 then some m
    else
      let (phys, m) := translateIn m pd vaddr
      let chunk := min (4096 - vaddr % 4096) size
      storeInProcess source pd fuel (writeChunk m phys chunk (source m.mem done))
        ((vaddr + chunk) % 4294967296) (done + chunk) (size - chunk)

def copyToProcess (m : Machine) (pd vaddr src size : Nat) : Option Machine :=
  storeInProcess (fun mem done => shift mem ((src + done) % 4294967296)) pd walkLimit m vaddr 0 size

def zeroInProcess (m : Machine) (pd vaddr size : Nat) : Option Machine :=
  storeInProcess (fun _ _ _ => 0) pd walkLimit m vaddr 0 size

/-! ## The ELF loader -/

/-- A file that `vfs_stat` and `vfs_open` found, and what `vfs_read` delivers of it. -/
structure ElfFile where
  size : UInt32
  bytes : Buf
  delivered : Nat
  within : delivered ≤ size.toNat

/-- The fields of a program header that the loader uses. -/
structure Segment where
  type : Nat
  offset : Nat
  vaddr : Nat
  filesz : Nat
  memsz : Nat

namespace Segment

/-- `seg_end`. -/
def stop (s : Segment) : Nat := (s.vaddr + s.memsz) % 4294967296

/-- The loader skips the other headers. -/
def isLoaded (s : Segment) : Bool := s.type = 1 && s.memsz ≠ 0

end Segment

def segmentAt (mem : Buf) (phdr : Nat) : Segment where
  type := word mem phdr
  offset := word mem (phdr + 4)
  vaddr := word mem (phdr + 8)
  filesz := word mem (phdr + 16)
  memsz := word mem (phdr + 20)

/-- `e_phnum`. -/
def phnum (mem : Buf) (ehdr : Nat) : Nat := (le16 mem (ehdr + 44)).toNat

/-- The address of program header `i`. -/
def phdrAddress (mem : Buf) (ehdr i : Nat) : Nat :=
  (ehdr + word mem (ehdr + 28) + i * (le16 mem (ehdr + 42)).toNat) % 4294967296

/-- A static executable for the i386. -/
def elfValidate (mem : Buf) (ehdr : Nat) : Bool :=
  mem ehdr = 0x7F && mem (ehdr + 1) = 0x45 && mem (ehdr + 2) = 0x4C && mem (ehdr + 3) = 0x46 &&
    mem (ehdr + 4) = 1 && mem (ehdr + 5) = 1 && le16 mem (ehdr + 16) = 2 && le16 mem (ehdr + 18) = 3 &&
    (phnum mem ehdr ≠ 0 && 32 ≤ (le16 mem (ehdr + 42)).toNat)

/-- One segment, from the file at `data`; `false` fails the load. -/
def loadSegment (m : Machine) (pd size data : Nat) (seg : Segment) : Option (Bool × Machine) :=
  match mapUserRange m pd seg.vaddr seg.stop with
  | (false, m) => some (false, m)
  | (true, m) =>
    if 0 < seg.filesz ∧ size < (seg.offset + seg.filesz) % 4294967296 then some (false, m)
    else
      match copyToProcess m pd seg.vaddr (data + seg.offset) seg.filesz with
      | none => none
      | some m =>
        if seg.filesz < seg.memsz then
          (zeroInProcess m pd ((seg.vaddr + seg.filesz) % 4294967296) (seg.memsz - seg.filesz)).map (true, ·)
        else some (true, m)

/-- The loop over the program headers, with the highest address so far. -/
def loadSegments (pd size data : Nat) : (fuel : Nat) → Machine → (i highest : Nat) → Option (Option Nat × Machine)
  | 0, _, _, _ => none
  | fuel + 1, m, i, highest =>
    if phnum m.mem data ≤ i then some (some highest, m)
    else
      let seg := segmentAt m.mem (phdrAddress m.mem data i)
      if seg.isLoaded then
        match loadSegment m pd size data seg with
        | none => none
        | some (false, m) => some (none, m)
        | some (true, m) => loadSegments pd size data fuel m (i + 1) (max highest seg.stop)
      else loadSegments pd size data fuel m (i + 1) highest

/-- `elf_load_result_t`. -/
structure LoadResult where
  entry : Nat
  brk : Nat

/-- `kfree (file_data)`, and the result. -/
def finishLoad (m : Machine) (data : Nat) (result : Option LoadResult) : Option (Option LoadResult × Machine) :=
  match kfree m.toHeap data with
  | none => none
  | some h => some (result, { m with toHeap := h })

/-- `elf_load` once the file is in memory at `data`. -/
def elfLoadFrom (m : Machine) (pd size data : Nat) : Option (Option LoadResult × Machine) :=
  match loadSegments pd size data 65537 m 0 0 with
  | none => none
  | some (none, m) => finishLoad m data none
  | some (some highest, m) =>
    if highest = 0 then finishLoad m data none
    else finishLoad m data (some ⟨word m.mem (data + 24), pageAlignUp highest⟩)

/-- `elf_load` up to the loop: the file is read into the heap and its header checked. -/
def elfLoad (m : Machine) (file : Option ElfFile) (pd : Nat) : Option (Option LoadResult × Machine) :=
  match file with
  | none => some (none, m)
  | some file =>
    if file.size.toNat < 52 then some (none, m)
    else
      match kmalloc m.toHeap file.size.toNat with
      | none => none
      | some (data, h) =>
        if data = 0 then some (none, { m with toHeap := h })
        else
          let m := { m with toHeap := { h with mem := splice h.mem data file.delivered file.bytes } }
          if file.delivered ≠ file.size.toNat then finishLoad m data none
          else if elfValidate m.mem data then elfLoadFrom m pd file.size.toNat data
          else finishLoad m data none

/-! ## Processes -/

/-- The fields of `process_t` that concern memory. -/
structure Process where
  kernelStack : Nat
  pageDirectory : Nat
  brk : Nat
  mmapNext : Nat
  entry : Nat
  /-- it has been to `jump_to_usermode` -/
  started : Bool

/-- `process_create` on a free slot; the outer `none` is a panic of the PMM. -/
def processCreate (m : Machine) : Option (Option Process × Machine) :=
  match allocPage m with
  | (none, m) => some (none, m)
  | (some stack, m) =>
    match pagingCloneDirectory (m.clear stack) with
    | (none, m) =>
      match pmmFreePage m.pmm (4096 * stack) with
      | none => none
      | some pmm => some (none, { m with pmm := pmm })
    | (some pd, m) => some (some ⟨stack, pd, 0, 0x50000000, 0, false⟩, m)

/-- `process_destroy`, its memory part. -/
def processDestroy (m : Machine) (p : Process) : Option Machine :=
  match if p.kernelStack = 0 then some m.pmm else pmmFreePage m.pmm (4096 * p.kernelStack) with
  | none => none
  | some pmm => pagingFreeDirectory { m with pmm := pmm } p.pageDirectory

/-- `jump_to_usermode` up to the user stack; `false` is its panic. -/
def jumpToUsermode (m : Machine) (pd : Nat) : Bool × Machine := mapFresh pd userRw m 4 0x7FC000

def sysSbrk (m : Machine) (p : Process) (increment : UInt32) : Option Nat × Process × Machine :=
  if increment = 0 then (some p.brk, p, m)
  -- as a signed number it is negative
  else if 2147483648 ≤ increment.toNat then (none, p, m)
  else
    let newBrk := (p.brk + increment.toNat) % 4294967296
    if newBrk < p.brk then (none, p, m)
    else
      match mapFresh p.pageDirectory userRw m (pagesBetween p.brk newBrk) (p.brk / 4096 * 4096) with
      | (false, m) => (none, p, m)
      | (true, m) => (some p.brk, { p with brk := newBrk }, m)

/-- User pages are writable if `PROT_WRITE` is asked for. -/
def pageFlags (prot : UInt32) : Nat := if prot.toNat / 2 % 2 = 1 then userRw else 5

/-- The loop of `fb_dev_mmap`. -/
def mapDevice (pd flags : Nat) : Machine → (n virt phys : Nat) → Bool × Machine
  | m, 0, _, _ => (true, m)
  | m, n + 1, virt, phys =>
    match pagingMapIn m pd virt phys flags with
    | (false, m) => (false, m)
    | (true, m) => mapDevice pd flags m n (virt + 4096) (phys + 4096)

/-- `fb_dev_mmap` on the framebuffer of `bytes` bytes at `addr`. -/
def fbDevMmap (m : Machine) (addr bytes pd virt length : Nat) (prot offset : UInt32) : Bool × Machine :=
  if bytes ≤ offset.toNat then (false, m)
  else
    let length := min length (bytes - offset.toNat)
    let phys := (addr + offset.toNat) % 4294967296
    mapDevice pd (pageFlags prot) m (pagesBetween phys (phys + length)) virt (phys / 4096 * 4096)

/-- `sys_mmap`; `device` is the framebuffer if the descriptor is an open `/dev/fb0`. -/
def sysMmap (m : Machine) (p : Process) (device : Option (Nat × Nat)) (length prot flags offset : UInt32) :
    Option Nat × Process × Machine :=
  let lenPages := pageAlignUp length.toNat
  let virt := p.mmapNext
  if length = 0 ∨ offset.toNat % 4096 ≠ 0 then (none, p, m)
  else if virt < 0x50000000 ∨ sub32 0xB0000000 virt < lenPages then (none, p, m)
  else
    let mapped :=
      if flags.toNat / 4 % 2 = 1 then mapFresh p.pageDirectory (pageFlags prot) m (lenPages / 4096) virt
      else
        match device with
        | none => (false, m)
        | some (addr, bytes) => fbDevMmap m addr bytes p.pageDirectory virt lenPages prot offset
    match mapped with
    | (false, m) => (none, p, m)
    | (true, m) => (some virt, { p with mmapNext := (virt + lenPages) % 4294967296 }, m)

/-! ## The process table -/

inductive Slot where
  | unused
  /-- `process_create` failed on it: it is marked ready and never freed -/
  | lost
  | live (p : Process)

def Slot.isUnused : Slot → Bool
  | .unused => true
  | _ => false

structure System where
  machine : Machine
  slots : List Slot
  /-- its address and size -/
  framebuffer : Option (Nat × Nat)
  /-- the heap blocks that other kernel code holds -/
  held : List Nat
  running : Bool

inductive SysOp where
  /-- `exec_program`, called by a process or by the kernel shell -/
  | exec (caller : Option Nat) (file : Option ElfFile)
  /-- the process runs for the first time -/
  | start (i : Nat)
  | sbrk (i : Nat) (increment : UInt32)
  | mmap (i : Nat) (isDevice : Bool) (length prot flags offset : UInt32)
  /-- the process is reaped by its parent, or by the kernel shell -/
  | destroy (caller : Option Nat) (i : Nat)
  | kmalloc (size : UInt32)
  | kfree (ptr : Nat)

namespace System

variable (s : System)

def process (i : Nat) : Option Process :=
  match s.slots[i]? with
  | some (.live p) => some p
  | _ => none

/-- The machine with the caller's directory active. -/
def under (caller : Option Nat) : Machine :=
  match caller.bind s.process with
  | none => pagingSwitchDirectory s.machine s.machine.kernelDirectory
  | some p => pagingSwitchDirectory s.machine p.pageDirectory

/-- The kernel stops. -/
def panic (m : Machine) : Option Nat × System := (none, { s with machine := m, running := false })

def setProcess (i : Nat) (p : Process) (m : Machine) : System :=
  { s with machine := m, slots := s.slots.set i (.live p) }

def exec (caller : Option Nat) (file : Option ElfFile) : Option Nat × System :=
  let m := s.under caller
  match s.slots.findIdx? Slot.isUnused with
  | none => (none, { s with machine := m })
  | some i =>
    match processCreate m with
    | none => s.panic m
    | some (none, m) => (none, { s with machine := m, slots := s.slots.set i .lost })
    | some (some p, m) =>
      match elfLoad m file p.pageDirectory with
      | none => s.panic m
      | some (none, m) =>
        match processDestroy m p with
        | none => s.panic m
        | some m => (none, { s with machine := m })
      | some (some elf, m) => (some i, s.setProcess i { p with brk := elf.brk, entry := elf.entry } m)

def step : SysOp → Option Nat × System
  | .exec caller file => s.exec caller file
  | .start i =>
    match s.process i with
    | none => (none, s)
    | some p =>
      match jumpToUsermode (s.under (some i)) p.pageDirectory with
      | (false, m) => s.panic m
      | (true, m) => (some 0, s.setProcess i { p with started := true } m)
  | .sbrk i increment =>
    match s.process i with
    | none => (none, s)
    | some p =>
      let (ans, p, m) := sysSbrk (s.under (some i)) p increment
      (ans, s.setProcess i p m)
  | .mmap i isDevice length prot flags offset =>
    match s.process i with
    | none => (none, s)
    | some p =>
      let device := if isDevice then s.framebuffer else none
      let (ans, p, m) := sysMmap (s.under (some i)) p device length prot flags offset
      (ans, s.setProcess i p m)
  | .destroy caller i =>
    match s.process i with
    | none => (none, s)
    | some p =>
      match processDestroy (s.under caller) p with
      | none => s.panic (s.under caller)
      | some m => (some 0, { s with machine := m, slots := s.slots.set i .unused })
  | .kmalloc size =>
    match Memory.kmalloc s.machine.toHeap size.toNat with
    | none => s.panic s.machine
    | some (ptr, h) =>
      (some ptr, { s with machine := { s.machine with toHeap := h }, held := if ptr = 0 then s.held else ptr :: s.held })
  | .kfree ptr =>
    match Memory.kfree s.machine.toHeap ptr with
    | none => s.panic s.machine
    | some h => (some 0, { s with machine := { s.machine with toHeap := h }, held := s.held.erase ptr })

/-- A process that makes system calls. -/
def Calls (i : Nat) : Prop := ∃ p, s.process i = some p ∧ p.started = true

/-- What can happen next: a system call of a started process, the first run of one that is not,
the end of another one, and the heap used by other kernel code. -/
def Possible : SysOp → Prop
  | .exec caller _ => ∀ i ∈ caller, s.Calls i
  | .start i => ∃ p, s.process i = some p ∧ p.started = false
  | .sbrk i _ => s.Calls i
  | .mmap i _ _ _ _ _ => s.Calls i
  | .destroy caller i => (∃ p, s.process i = some p) ∧ ∀ j ∈ caller, s.Calls j ∧ j ≠ i
  | .kmalloc _ => True
  | .kfree ptr => ptr ∈ s.held

end System

/-- The system after `kernel_main`. -/
def bootSystem (m : Machine) (framebuffer : Option (Nat × Nat)) : System :=
  ⟨m, List.replicate 64 .unused, framebuffer, [], true⟩

end GinnOS.Memory
