import GinnOS.Lib.Bitmap
import GinnOS.Ext2.Io

/-! # Block and inode allocation (`fs/ext2/ext2_alloc.c`)

A C function that returns `bool` and fills an output pointer becomes a function
to `Option`; one that can also change the disk returns the volume as well, on
failure too, since several of them have already written when they fail.
-/

namespace GinnOS.Ext2

open Lib Lib.Buf

/-! ## Bitmaps -/

def bitmapTest (bitmap : Buf) (index : Nat) : Bool := bitmap (index / 8) &&& mask index != 0

def bitmapSet (bitmap : Buf) (index : Nat) (value : Bool) : Buf :=
  if value then put8 bitmap (index / 8) (bitmap (index / 8) ||| mask index)
  else put8 bitmap (index / 8) (bitmap (index / 8) &&& ~~~mask index)

/-- The loop of `bitmap_find_free`, over the next `count` bits. -/
def bitmapFindFreeLoop (bitmap : Buf) : (count i : Nat) → Option Nat
  | 0, _ => none
  | count + 1, i => if !bitmapTest bitmap i then some i else bitmapFindFreeLoop bitmap count (i + 1)

def bitmapFindFree (bitmap : Buf) (bitCount startBit : Nat) : Option Nat :=
  bitmapFindFreeLoop bitmap (bitCount - startBit) startBit

/-! ## Inode slots -/

/-- `inode_location`: the group descriptor, byte offset and group of an inode. -/
def inodeLocation (volume : Volume) (inodeNumber : Nat) : Option (GroupDesc × Nat × Nat) :=
  if inodeNumber = 0 then none
  else
    let zeroBased := inodeNumber - 1
    let group := zeroBased / volume.inodesPerGroup
    let index := zeroBased % volume.inodesPerGroup
    if group ≥ volume.blockGroupCount then none
    else
      match readGroupDesc volume group with
      | none => none
      | some desc =>
        some (desc, u32 (u32 (desc.bgInodeTable.toNat * volume.blockSize) +
          u32 (index * volume.inodeSize)), group)

/-- `write_inode`.  The slot is padded with zeros after the 128 bytes of the structure. -/
def writeInode (volume : Volume) (inodeNumber : Nat) (inode : Inode) : Bool × Volume :=
  if volume.inodeSize > maxInodeSize then (false, volume)
  else
    match inodeLocation volume inodeNumber with
    | none => (false, volume)
    | some (_, inodeByteOffset, _) =>
      let (done, disk) :=
        writeAbsBytes volume.disk inodeByteOffset volume.inodeSize (ofList inode.encode)
      (done, { volume with disk := disk })

/-! ## Free counts -/

/-- The cast `(int32_t)n`. -/
def i32 (n : Nat) : Int := if n < 2147483648 then n else (n : Int) - 4294967296

/-- The guard `delta < 0 && count < (uint16_t)(-delta)`. -/
def underflows (count : UInt16) (delta : Int) : Bool :=
  delta < 0 && count.toNat < (-delta).toNat % 65536

def updateGroupAndSuperCounts (volume : Volume) (group : Nat)
    (freeBlocksDelta freeInodesDelta usedDirsDelta : Int) : Bool × Volume :=
  if group ≥ volume.blockGroupCount then (false, volume)
  else
    match readGroupDesc volume group with
    | none => (false, volume)
    | some desc =>
      if underflows desc.bgFreeBlocksCount freeBlocksDelta then (false, volume)
      else if underflows desc.bgFreeInodesCount freeInodesDelta then (false, volume)
      else if underflows desc.bgUsedDirsCount usedDirsDelta then (false, volume)
      else
        let newFreeBlocks := desc.bgFreeBlocksCount.toNat + freeBlocksDelta
        let newFreeInodes := desc.bgFreeInodesCount.toNat + freeInodesDelta
        let newUsedDirs := desc.bgUsedDirsCount.toNat + usedDirsDelta
        if newFreeBlocks < 0 ∨ newFreeInodes < 0 ∨ newUsedDirs < 0 then (false, volume)
        else
          let superFreeBlocks := i32 volume.superblock.sFreeBlocksCount.toNat + freeBlocksDelta
          let superFreeInodes := i32 volume.superblock.sFreeInodesCount.toNat + freeInodesDelta
          if superFreeBlocks < 0 ∨ superFreeInodes < 0 then (false, volume)
          else
            let desc' : GroupDesc := { desc with
              bgFreeBlocksCount := UInt16.ofNat newFreeBlocks.toNat
              bgFreeInodesCount := UInt16.ofNat newFreeInodes.toNat
              bgUsedDirsCount := UInt16.ofNat newUsedDirs.toNat }
            -- The cached superblock changes before either write can fail.
            let counted : Volume := { volume with superblock := { volume.superblock with
              sFreeBlocksCount := UInt32.ofNat superFreeBlocks.toNat
              sFreeInodesCount := UInt32.ofNat superFreeInodes.toNat } }
            match writeGroupDesc counted group desc' with
            | (false, written) => (false, written)
            | (true, written) => writeSuperblock written

/-! ## Allocation -/

/-- The subtraction `a - b` of two `uint32_t`. -/
def u32Sub (a b : Nat) : Nat := u32 (a + 4294967296 - u32 b)

/-- The first bit that `alloc_inode` considers in a group. -/
def inodeStartBit (volume : Volume) (group : Nat) : Nat :=
  if group = 0 ∧ volume.firstNonReservedInode > 0 then volume.firstNonReservedInode - 1 else 0

/-- The bit limit of `alloc_inode` in a group: the last group may be short. -/
def inodeBitLimit (volume : Volume) (group : Nat) : Nat :=
  if group = volume.blockGroupCount - 1 then
    let remaining := u32Sub volume.inodeCount (group * volume.inodesPerGroup)
    if remaining < volume.inodesPerGroup then remaining else volume.inodesPerGroup
  else volume.inodesPerGroup

/-- The loop of `alloc_inode` over the next `count` groups. -/
def allocInodeLoop (volume : Volume) : (count group : Nat) → Option Nat × Volume
  | 0, _ => (none, volume)
  | count + 1, group =>
    match readGroupDesc volume group with
    | none => (none, volume)
    | some desc =>
      if desc.bgFreeInodesCount = 0 then allocInodeLoop volume count (group + 1)
      else
        match readInodeBitmap volume group with
        | none => (none, volume)
        | some bitmap =>
          match bitmapFindFree bitmap (inodeBitLimit volume group) (inodeStartBit volume group) with
          | none => allocInodeLoop volume count (group + 1)
          | some freeBit =>
            match writeInodeBitmap volume group (bitmapSet bitmap freeBit true) with
            | (false, marked) => (none, marked)
            | (true, marked) =>
              match updateGroupAndSuperCounts marked group 0 (-1) 0 with
              | (false, counted) => (none, counted)
              | (true, counted) =>
                (some (u32 (u32 (group * volume.inodesPerGroup) + freeBit + 1)), counted)

def allocInode (volume : Volume) : Option Nat × Volume :=
  allocInodeLoop volume volume.blockGroupCount 0

def freeInode (volume : Volume) (inodeNumber : Nat) : Bool × Volume :=
  if inodeNumber = 0 then (false, volume)
  else
    let zeroBased := inodeNumber - 1
    let group := zeroBased / volume.inodesPerGroup
    let index := zeroBased % volume.inodesPerGroup
    if group ≥ volume.blockGroupCount then (false, volume)
    else
      match readGroupDesc volume group with
      | none => (false, volume)
      | some _ =>
        match readInodeBitmap volume group with
        | none => (false, volume)
        | some bitmap =>
          match writeInodeBitmap volume group (bitmapSet bitmap index false) with
          | (false, marked) => (false, marked)
          | (true, marked) => updateGroupAndSuperCounts marked group 0 1 0

/-- The first block of a group, as `alloc_block` computes it. -/
def groupStartBlock (volume : Volume) (group : Nat) : Nat :=
  u32 (volume.firstDataBlock + u32 (group * volume.blocksPerGroup))

/-- The bit limit of `alloc_block` in a group that starts inside the volume. -/
def blockBitLimit (volume : Volume) (group : Nat) : Nat :=
  let startBlock := groupStartBlock volume group
  if u32 (startBlock + volume.blocksPerGroup) > volume.blockCount then
    volume.blockCount - startBlock
  else volume.blocksPerGroup

/-- The loop of `alloc_block` over the next `count` groups. -/
def allocBlockLoop (volume : Volume) : (count group : Nat) → Option Nat × Volume
  | 0, _ => (none, volume)
  | count + 1, group =>
    match readGroupDesc volume group with
    | none => (none, volume)
    | some desc =>
      if desc.bgFreeBlocksCount = 0 then allocBlockLoop volume count (group + 1)
      else
        match readBlockBitmap volume group with
        | none => (none, volume)
        | some bitmap =>
          if groupStartBlock volume group ≥ volume.blockCount then
            allocBlockLoop volume count (group + 1)
          else
            match bitmapFindFree bitmap (blockBitLimit volume group) 0 with
            | none => allocBlockLoop volume count (group + 1)
            | some freeBit =>
              match writeBlockBitmap volume group (bitmapSet bitmap freeBit true) with
              | (false, marked) => (none, marked)
              | (true, marked) =>
                match updateGroupAndSuperCounts marked group (-1) 0 0 with
                | (false, counted) => (none, counted)
                | (true, counted) => (some (u32 (groupStartBlock volume group + freeBit)), counted)

def allocBlock (volume : Volume) : Option Nat × Volume :=
  allocBlockLoop volume volume.blockGroupCount 0

def freeBlock (volume : Volume) (blockNumber : Nat) : Bool × Volume :=
  if blockNumber < volume.firstDataBlock then (false, volume)
  else
    let relative := blockNumber - volume.firstDataBlock
    let group := relative / volume.blocksPerGroup
    if group ≥ volume.blockGroupCount then (false, volume)
    else
      match readGroupDesc volume group with
      | none => (false, volume)
      | some _ =>
        match readBlockBitmap volume group with
        | none => (false, volume)
        | some bitmap =>
          match writeBlockBitmap volume group
              (bitmapSet bitmap (relative % volume.blocksPerGroup) false) with
          | (false, marked) => (false, marked)
          | (true, marked) => updateGroupAndSuperCounts marked group 1 0 0

/-! ## Freeing a whole inode -/

/-- The block pointers stored in an indirect block. -/
def blockEntries (volume : Volume) (block : Buf) : List Nat :=
  (List.range (volume.blockSize / 4)).map fun j => (le32 block (4 * j)).toNat

/-- The loop over the entries of an indirect block, which skips the absent ones. -/
def freeEach (free : Volume → Nat → Bool × Volume) : Volume → List Nat → Bool × Volume
  | volume, [] => (true, volume)
  | volume, entry :: rest =>
    if entry = 0 then freeEach free volume rest
    else
      match free volume entry with
      | (false, freed) => (false, freed)
      | (true, freed) => freeEach free freed rest

/-- Free what hangs off one pointer: the block itself at depth 0; at depth `d + 1` the entries of
the indirect block at depth `d`, then the block.  The three nested loops of
`free_inode_block_chain` are the depths 1, 2 and 3. -/
def freeTree : (depth : Nat) → Volume → Nat → Bool × Volume
  | 0, volume, block => freeBlock volume block
  | depth + 1, volume, block =>
    match readBlock volume block with
    | none => (false, volume)
    | some buffer =>
      match freeEach (freeTree depth) volume (blockEntries volume buffer) with
      | (false, freed) => (false, freed)
      | (true, freed) => freeBlock freed block

/-- `free_inode_block_chain`: the direct blocks, then the three indirect trees.  The C function
also clears the pointers of its private copy of the inode, which its caller drops. -/
def freeInodeBlockChain (volume : Volume) (inode : Inode) : Bool × Volume :=
  match freeEach (freeTree 0) volume ((List.range ndirBlocks).map inode.ptr) with
  | (false, freed) => (false, freed)
  | (true, direct) =>
    match freeEach (freeTree 1) direct [inode.ptr 12] with
    | (false, freed) => (false, freed)
    | (true, single) =>
      match freeEach (freeTree 2) single [inode.ptr 13] with
      | (false, freed) => (false, freed)
      | (true, double) => freeEach (freeTree 3) double [inode.ptr 14]

end GinnOS.Ext2
