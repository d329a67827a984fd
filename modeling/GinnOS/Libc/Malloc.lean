import GinnOS.Lib.Ints
import GinnOS.Lib.Words

/-! # The user allocator (`libc/src/stdlib.c`)

A first-fit allocator over the memory behind the break.  Every block, free or not, is on the list
`free_list`, behind a 16-byte header: the size at offset 0, the next header at offset 4, the free
flag at offset 8.  Sizes and addresses are 32-bit numbers.

`sbrk` is as the allocator expects it: it returns the old break and moves the break, or fails.
Whether it fails is told by `granted`.  The list walks take fuel, and `none` stands for a walk that
does not end.
-/

namespace GinnOS.Libc

open Lib Lib.Buf

/-- `ALIGN_UP`, for `ALIGN` 8. -/
def alignUp (x : Nat) : Nat := (x + 7) % 4294967296 / 8 * 8

/-- `HEADER_SIZE`: `sizeof(block_header_t)` is 12. -/
def headerSize : Nat := 16

def minSbrkSize : Nat := 4096

/-- 32-bit subtraction. -/
def minus (a b : Nat) : Nat := (a + 4294967296 - b) % 4294967296

/-- Steps after which a walk over the list has left every possible list. -/
def walkLimit : Nat := 4294967296

/-- The memory of the process, its break, and `free_list`. -/
structure Heap where
  mem : Buf
  brk : Nat
  freeList : Nat

/-! ## Block headers -/

def sizeOf (mem : Buf) (block : Nat) : Nat := word mem block

def nextOf (mem : Buf) (block : Nat) : Nat := word mem (block + 4)

def isFree (mem : Buf) (block : Nat) : Bool := word mem (block + 8) != 0

def setSize (mem : Buf) (block size : Nat) : Buf := setWord mem block size

def setNext (mem : Buf) (block next : Nat) : Buf := setWord mem (block + 4) next

def setFree (mem : Buf) (block : Nat) (free : Bool) : Buf := setWord mem (block + 8) free.toNat

/-! ## Getting memory -/

def sbrk (h : Heap) (increment : Int) (granted : Bool) : Option Nat × Heap :=
  if granted ∧ 0 ≤ h.brk + increment ∧ h.brk + increment < 4294967296 then
    (some h.brk, { h with brk := (h.brk + increment).toNat })
  else (none, h)

/-- The new block, 0 on failure. -/
def requestMemory (h : Heap) (size : Nat) (granted : Bool) : Nat × Heap :=
  let total := (headerSize + size) % 4294967296
  let total := if total < minSbrkSize then minSbrkSize else total
  match sbrk h (int32 total) granted with
  | (none, h) => (0, h)
  | (some block, h) =>
    let mem := setSize h.mem block (minus total headerSize)
    let mem := setNext mem block 0
    (block, { h with mem := setFree mem block false })

def findFreeBlock : (fuel : Nat) → (mem : Buf) → (current size : Nat) → Option (Option Nat)
  | 0, _, _, _ => none
  | fuel + 1, mem, current, size =>
    if current = 0 then some none
    else if isFree mem current ∧ size ≤ sizeOf mem current then some (some current)
    else findFreeBlock fuel mem (nextOf mem current) size

def splitBlock (mem : Buf) (block size : Nat) : Buf :=
  let remaining := minus (minus (sizeOf mem block) size) headerSize
  if sizeOf mem block < (size + headerSize + 8) % 4294967296 then mem
  else
    let newBlock := (block + headerSize + size) % 4294967296
    let mem := setSize mem newBlock remaining
    let mem := setNext mem newBlock (nextOf mem block)
    let mem := setFree mem newBlock true
    let mem := setSize mem block size
    setNext mem block newBlock

/-! ## The calls -/

/-- The walk to the end of the list. -/
def lastBlock : (fuel : Nat) → (mem : Buf) → (current : Nat) → Option Nat
  | 0, _, _ => none
  | fuel + 1, mem, current =>
    if nextOf mem current ≠ 0 then lastBlock fuel mem (nextOf mem current) else some current

/-- Put a new block behind the others. -/
def appendBlock (h : Heap) (block : Nat) : Option Heap :=
  if h.freeList = 0 then some { h with freeList := block }
  else
    match lastBlock walkLimit h.mem h.freeList with
    | none => none
    | some current => some { h with mem := setNext h.mem current block }

/-- Cut the block to the size and take it. -/
def Heap.take (h : Heap) (block size : Nat) : Nat × Heap :=
  ((block + headerSize) % 4294967296, { h with mem := setFree (splitBlock h.mem block size) block false })

def malloc (h : Heap) (size : Nat) (granted : Bool) : Option (Nat × Heap) :=
  if size = 0 then some (0, h)
  else
    let size := alignUp size
    match findFreeBlock walkLimit h.mem h.freeList size with
    | none => none
    | some (some block) => some (h.take block size)
    | some none =>
      let fresh := requestMemory h size granted
      if fresh.1 = 0 then some (0, fresh.2)
      else
        match appendBlock fresh.2 fresh.1 with
        | none => none
        | some h => some (h.take fresh.1 size)

def calloc (h : Heap) (nmemb size : Nat) (granted : Bool) : Option (Nat × Heap) :=
  let total := nmemb * size % 4294967296
  if nmemb ≠ 0 ∧ total / nmemb ≠ size then some (0, h)
  else
    match malloc h total granted with
    | none => none
    | some (ptr, h) => some (ptr, if ptr = 0 then h else { h with mem := fill h.mem ptr total 0 })

/-- Take the next block into `block`. -/
def absorbNext (mem : Buf) (block : Nat) : Buf :=
  let next := nextOf mem block
  let mem := setSize mem block ((sizeOf mem block + headerSize + sizeOf mem next) % 4294967296)
  setNext mem block (nextOf mem next)

def free (h : Heap) (ptr : Nat) : Heap :=
  if ptr = 0 then h
  else
    let block := minus ptr headerSize
    let mem := setFree h.mem block true
    let next := nextOf mem block
    { h with mem := if next ≠ 0 ∧ isFree mem next then absorbNext mem block else mem }

/-- The fallback of `realloc`: a new block, a copy, and the old block freed. -/
def reallocMove (h : Heap) (ptr size : Nat) (granted : Bool) : Option (Nat × Heap) :=
  match malloc h size granted with
  | none => none
  | some (newPtr, h) =>
    if newPtr = 0 then some (0, h)
    else
      let copied := sizeOf h.mem (minus ptr headerSize)
      some (newPtr, free { h with mem := splice h.mem newPtr copied (shift h.mem ptr) } ptr)

def realloc (h : Heap) (ptr size : Nat) (granted : Bool) : Option (Nat × Heap) :=
  if ptr = 0 then malloc h size granted
  else if size = 0 then some (0, free h ptr)
  else
    let size := alignUp size
    let block := minus ptr headerSize
    if size ≤ sizeOf h.mem block then some (ptr, h)
    else
      let next := nextOf h.mem block
      let expectedNext := (block + headerSize + sizeOf h.mem block) % 4294967296
      let combined := (sizeOf h.mem block + headerSize + sizeOf h.mem next) % 4294967296
      if next ≠ 0 ∧ isFree h.mem next ∧ next = expectedNext ∧ size ≤ combined then
        some (ptr, { h with mem := splitBlock (absorbNext h.mem block) block size })
      else reallocMove h ptr size granted

end GinnOS.Libc
