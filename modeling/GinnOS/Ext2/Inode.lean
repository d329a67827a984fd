import GinnOS.Ext2.Io

/-! # Inodes, block resolution and path lookup (`fs/ext2/ext2_inode.c`)

The walkers over directory blocks share one loop: the record at `offset` is
checked (`rec_len` covers the header and the name, and stays inside the block),
then tested, then skipped.  `scanEntries` is that loop with the test as a
parameter; `find_in_directory`, `find_directory_entry` and `directory_is_empty`
are its instances.
-/

namespace GinnOS.Ext2

open Lib Lib.Buf

/-- `inode_is_dir` and `inode_is_directory`, which have the same body. -/
def inodeIsDir (inode : Inode) : Bool := inode.iMode &&& sIfmt == sIfdir

def inodeIsRegular (inode : Inode) : Bool := inode.iMode &&& sIfmt == sIfreg

def inodeToFileType (inode : Inode) : UInt8 :=
  if inodeIsDir inode then ftDir else if inodeIsRegular inode then ftRegFile else 0

def ext2ReadInode (volume : Volume) (inodeNumber : Nat) : Except Kerr Inode :=
  if inodeNumber = 0 then .error .inval
  else
    let zeroBased := inodeNumber - 1
    let group := zeroBased / volume.inodesPerGroup
    let index := zeroBased % volume.inodesPerGroup
    if group ≥ volume.blockGroupCount then .error .inval
    else
      match readGroupDesc volume group with
      | none => .error .io
      | some bgd =>
        let inodeByteOffset := u32 (u32 (bgd.bgInodeTable.toNat * volume.blockSize) +
          u32 (index * volume.inodeSize))
        match readAbsBytes volume.disk inodeByteOffset volume.inodeSize with
        | none => .error .io
        | some buffer => .ok (Inode.decode buffer)

/-! ## Block resolution -/

/-- One step down a pointer tree: an absent block stays absent, else entry `index` of it. -/
def resolveEntry (volume : Volume) (block index : Nat) : Option Nat :=
  if block = 0 then some 0
  else (readBlock volume block).map fun buffer => (le32 buffer (4 * index)).toNat

/-- `resolve_data_block`: the physical block of a logical index, 0 for a hole. -/
def resolveDataBlock (volume : Volume) (inode : Inode) (logicalBlockIndex : Nat) : Option Nat :=
  let ptrsPerBlock := volume.blockSize / 4
  if logicalBlockIndex < ndirBlocks then some (inode.ptr logicalBlockIndex)
  else
    let index := logicalBlockIndex - ndirBlocks
    if index < ptrsPerBlock then resolveEntry volume (inode.ptr 12) index
    else
      let index := index - ptrsPerBlock
      if index < ptrsPerBlock * ptrsPerBlock then
        match resolveEntry volume (inode.ptr 13) (index / ptrsPerBlock) with
        | none => none
        | some l1Block => resolveEntry volume l1Block (index % ptrsPerBlock)
      else
        let index := index - ptrsPerBlock * ptrsPerBlock
        let remainder := index % (ptrsPerBlock * ptrsPerBlock)
        match resolveEntry volume (inode.ptr 14) (index / (ptrsPerBlock * ptrsPerBlock)) with
        | none => none
        | some l1Block =>
          match resolveEntry volume l1Block (remainder / ptrsPerBlock) with
          | none => none
          | some l2Block => resolveEntry volume l2Block (remainder % ptrsPerBlock)

/-! ## Directory walkers -/

/-- Outcome of a walk: a malformed record (or a failed read), no record that passes the test, or
the block index, offset and header of the first one that does. -/
inductive Scan where
  | bad
  | absent
  | found (blockIndex offset : Nat) (entry : DirEntry)
  deriving DecidableEq

/-- The check every reading walker makes before it looks at a record. -/
def malformed (blockSize offset : Nat) (entry : DirEntry) : Bool :=
  entry.recLen.toNat < headerSize + entry.nameLen.toNat || entry.recLen == 0 ||
    offset + entry.recLen.toNat > blockSize

/-- The record loop of a walker over one block. -/
def scanEntries (blockSize : Nat) (buffer : Buf) (test : Nat → DirEntry → Bool) (blockIndex : Nat) :
    (fuel offset : Nat) → Scan
  | 0, _ => .absent
  | fuel + 1, offset =>
    if offset + headerSize ≤ blockSize then
      let entry := DirEntry.decode buffer offset
      if malformed blockSize offset entry then .bad
      else if test offset entry then .found blockIndex offset entry
      else scanEntries blockSize buffer test blockIndex fuel (offset + entry.recLen.toNat)
    else .absent

/-- The block loop of a walker over the direct blocks from `blockIndex` on. -/
def scanBlocks (volume : Volume) (inode : Inode) (test : Buf → Nat → DirEntry → Bool) :
    (count blockIndex : Nat) → Scan
  | 0, _ => .absent
  | count + 1, blockIndex =>
    let dataBlock := inode.ptr blockIndex
    if dataBlock = 0 then scanBlocks volume inode test count (blockIndex + 1)
    else
      match readBlock volume dataBlock with
      | none => .bad
      | some buffer =>
        match scanEntries volume.blockSize buffer (test buffer) blockIndex volume.blockSize 0 with
        | .absent => scanBlocks volume inode test count (blockIndex + 1)
        | other => other

/-- The test of the two lookups: a live record with this name. -/
def nameTest (name : List UInt8) (buffer : Buf) (offset : Nat) (entry : DirEntry) : Bool :=
  entry.inode != 0 && name.length == entry.nameLen.toNat &&
    toList buffer (offset + headerSize) name.length == name

def findInDirectory (volume : Volume) (dirInodeNumber : Nat) (name : List UInt8) :
    Except Kerr Nat :=
  match ext2ReadInode volume dirInodeNumber with
  | .error _ => .error .io
  | .ok dirInode =>
    if !inodeIsDir dirInode then .error .io
    else
      match scanBlocks volume dirInode (nameTest name) ndirBlocks 0 with
      | .bad => .error .io
      | .absent => .error .notfound
      | .found _ _ entry => .ok entry.inode.toNat

/-! ## Paths -/

/-- The character `/`. -/
def slash : UInt8 := 47

/-- The character `.`. -/
def dot : UInt8 := 46

def skipSlashes (path : List UInt8) : List UInt8 := path.dropWhile (· == slash)

/-- The component loop of `ext2_lookup_path`; a round consumes at least one character. -/
def lookupLoop (volume : Volume) : (fuel current : Nat) → List UInt8 → Except Kerr Nat
  | _, current, [] => .ok current
  | 0, current, _ :: _ => .ok current
  | fuel + 1, current, path =>
    let component := path.takeWhile (· != slash)
    let rest := path.dropWhile (· != slash)
    if component.length = 0 then lookupLoop volume fuel current (skipSlashes rest)
    else
      match findInDirectory volume current component with
      | .error status => .error status
      | .ok nextInode => lookupLoop volume fuel nextInode (skipSlashes rest)

def ext2LookupPath (volume : Volume) (path : List UInt8) : Except Kerr Nat :=
  if path = [] then .error .notfound
  else lookupLoop volume path.length inodeRoot (skipSlashes path)

end GinnOS.Ext2
