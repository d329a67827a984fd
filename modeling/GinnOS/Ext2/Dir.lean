import GinnOS.Ext2.Alloc
import GinnOS.Ext2.Inode

/-! # Directory entries (`fs/ext2/ext2_dir.c`)

Names and paths are C strings, given as the list of their bytes without the
terminator.
-/

namespace GinnOS.Ext2

open Lib Lib.Buf

/-! ## Splitting a path -/

/-- `split_path`: the parent path and the last component. -/
def splitPath (path : List UInt8) (parentSize nameSize : Nat) : Option (List UInt8 × List UInt8) :=
  if parentSize = 0 ∨ nameSize = 0 ∨ path.head? ≠ some slash then none
  else
    -- The path without trailing slashes, read from its end.
    let reversed := path.reverse.dropWhile (· == slash)
    if reversed = [] then none
    else
      let name := (reversed.takeWhile (· != slash)).reverse
      if name.length + 1 > nameSize then none
      else
        let parent := (reversed.dropWhile (· != slash)).tail.reverse
        if parent = [] then if parentSize < 2 then none else some ([slash], name)
        else if parent.length + 1 > parentSize then none
        else some (parent, name)

/-! ## Lookup -/

/-- `find_directory_entry`: block index, offset and header of the entry. -/
def findDirectoryEntry (volume : Volume) (dirInodeNumber : Nat) (name : List UInt8) :
    Option (Nat × Nat × DirEntry) :=
  match ext2ReadInode volume dirInodeNumber with
  | .error _ => none
  | .ok dirInode =>
    if !inodeIsDir dirInode then none
    else
      match scanBlocks volume dirInode (nameTest name) ndirBlocks 0 with
      | .found blockIndex offset entry => some (blockIndex, offset, entry)
      | _ => none

/-- `lookup_child_type`: inode number and file type of a child. -/
def lookupChildType (volume : Volume) (parentInodeNumber : Nat) (name : List UInt8) :
    Option (Nat × UInt8) :=
  (findDirectoryEntry volume parentInodeNumber name).map fun (_, _, entry) =>
    (entry.inode.toNat, entry.fileType)

def lookupParentAndName (volume : Volume) (path : List UInt8) : Option (Nat × List UInt8) :=
  match splitPath path nameMax nameMax with
  | none => none
  | some (parentPath, name) =>
    match ext2LookupPath volume parentPath with
    | .error _ => none
    | .ok parentInode =>
      match ext2ReadInode volume parentInode with
      | .error _ => none
      | .ok parentInodeCache =>
        if !inodeIsDir parentInodeCache then none else some (parentInode, name)

/-! ## Insertion -/

/-- Clear `span` bytes at `offset` and store one record that covers them. -/
def insertEntry (buffer : Buf) (offset span child : Nat) (name : List UInt8) (fileType : UInt8) :
    Buf :=
  let header : DirEntry :=
    { inode := UInt32.ofNat child, recLen := UInt16.ofNat span,
      nameLen := UInt8.ofNat name.length, fileType := fileType }
  splice (DirEntry.store (fill buffer offset span 0) offset header) (offset + headerSize)
    name.length (ofList name)

/-- Outcome of looking for room in one block: a malformed record, no room, or the new block. -/
inductive Append where
  | bad
  | full
  | done (buffer : Buf)

/-- The record loop of `append_or_replace_directory_entry`: a dead record that is long enough is
reused whole, a live one with enough slack behind its name is split. -/
def appendInBlock (blockSize child : Nat) (name : List UInt8) (fileType : UInt8) (buffer : Buf) :
    (fuel cursor : Nat) → Append
  | 0, _ => .full
  | fuel + 1, cursor =>
    if cursor + headerSize ≤ blockSize then
      let entry := DirEntry.decode buffer cursor
      let used := dirEntrySize entry.nameLen.toNat
      let needed := dirEntrySize name.length
      let available := entry.recLen.toNat
      if entry.recLen = 0 ∨ cursor + available > blockSize then .bad
      else if entry.inode = 0 then
        if available ≥ needed then .done (insertEntry buffer cursor available child name fileType)
        else appendInBlock blockSize child name fileType buffer fuel (cursor + available)
      else if available ≥ used + needed then
        .done (insertEntry (put16 buffer (cursor + 4) (UInt16.ofNat used)) (cursor + used)
          (available - used) child name fileType)
      else appendInBlock blockSize child name fileType buffer fuel (cursor + available)
    else .full

/-- The first block loop of `append_or_replace_directory_entry`; `none` when no block has room. -/
def appendInBlocks (volume : Volume) (parentInode : Inode) (child : Nat) (name : List UInt8)
    (fileType : UInt8) : (count blockIndex : Nat) → Option (Bool × Volume)
  | 0, _ => none
  | count + 1, blockIndex =>
    let dataBlock := parentInode.ptr blockIndex
    if dataBlock = 0 then
      appendInBlocks volume parentInode child name fileType count (blockIndex + 1)
    else
      match readBlock volume dataBlock with
      | none => some (false, volume)
      | some buffer =>
        match appendInBlock volume.blockSize child name fileType buffer volume.blockSize 0 with
        | .bad => some (false, volume)
        | .done buffer' => some (writeBlock volume dataBlock buffer')
        | .full => appendInBlocks volume parentInode child name fileType count (blockIndex + 1)

/-- The first direct pointer that is not in use, from `blockIndex` on. -/
def firstFreePtr (inode : Inode) : (count blockIndex : Nat) → Option Nat
  | 0, _ => none
  | count + 1, blockIndex =>
    if inode.ptr blockIndex = 0 then some blockIndex
    else firstFreePtr inode count (blockIndex + 1)

/-- `append_or_replace_directory_entry`; the parent inode is updated in place by the C code. -/
def appendOrReplaceDirectoryEntry (volume : Volume) (parentInodeNumber : Nat) (parentInode : Inode)
    (name : List UInt8) (child : Nat) (fileType : UInt8) : Bool × Inode × Volume :=
  if name.length = 0 ∨ name.length ≥ 255 then (false, parentInode, volume)
  else
    match appendInBlocks volume parentInode child name fileType ndirBlocks 0 with
    | some (done, written) => (done, parentInode, written)
    | none =>
      match firstFreePtr parentInode ndirBlocks 0 with
      | none => (false, parentInode, volume)
      | some blockIndex =>
        match allocBlock volume with
        | (none, allocated) => (false, parentInode, allocated)
        | (some newBlock, allocated) =>
          let buffer := insertEntry (fun _ => 0) 0 volume.blockSize child name fileType
          let parentInode' : Inode := { parentInode.setPtr blockIndex newBlock with
            iSize := parentInode.iSize + UInt32.ofNat volume.blockSize
            iBlocks := parentInode.iBlocks + UInt32.ofNat volume.sectorsPerBlock }
          match writeBlock allocated newBlock buffer with
          | (false, written) => (false, parentInode', written)
          | (true, written) =>
            let (done, linked) := writeInode written parentInodeNumber parentInode'
            (done, parentInode', linked)

/-! ## Changing an entry -/

def updateDirectoryEntryName (volume : Volume) (dirInodeNumber : Nat) (oldName newName : List UInt8) :
    Bool × Volume :=
  if newName.length = 0 ∨ newName.length ≥ 255 then (false, volume)
  else
    match ext2ReadInode volume dirInodeNumber with
    | .error _ => (false, volume)
    | .ok dirInode =>
      if !inodeIsDir dirInode then (false, volume)
      else
        match findDirectoryEntry volume dirInodeNumber oldName with
        | none => (false, volume)
        | some (blockIndex, entryOffset, entry) =>
          match readBlock volume (dirInode.ptr blockIndex) with
          | none => (false, volume)
          | some buffer =>
            if dirEntrySize newName.length > entry.recLen.toNat then (false, volume)
            else
              let named := put8 buffer (entryOffset + 6) (UInt8.ofNat newName.length)
              let typed := put8 named (entryOffset + 7) entry.fileType
              writeBlock volume (dirInode.ptr blockIndex)
                (splice typed (entryOffset + headerSize) newName.length (ofList newName))

/-- The test of `directory_is_empty`: a live record whose name is neither `.` nor `..`. -/
def namedTest (buffer : Buf) (offset : Nat) (entry : DirEntry) : Bool :=
  entry.inode != 0 &&
    !(entry.nameLen == 1 && buffer (offset + headerSize) == dot) &&
    !(entry.nameLen == 2 && buffer (offset + headerSize) == dot &&
      buffer (offset + headerSize + 1) == dot)

def directoryIsEmpty (volume : Volume) (inodeNumber : Nat) : Bool :=
  match ext2ReadInode volume inodeNumber with
  | .error _ => false
  | .ok dirInode =>
    if !inodeIsDir dirInode then false
    else
      match scanBlocks volume dirInode namedTest ndirBlocks 0 with
      | .absent => true
      | _ => false

/-- `update_directory_parent_link`: `..` is taken to be the second record of the first block. -/
def updateDirectoryParentLink (volume : Volume) (dirInodeNumber parentInodeNumber : Nat) :
    Bool × Volume :=
  match ext2ReadInode volume dirInodeNumber with
  | .error _ => (false, volume)
  | .ok dirInode =>
    if !inodeIsDir dirInode then (false, volume)
    else if dirInode.ptr 0 = 0 then (false, volume)
    else
      match readBlock volume (dirInode.ptr 0) with
      | none => (false, volume)
      | some buffer =>
        let offset := dirEntrySize 1
        if (DirEntry.decode buffer offset).nameLen ≠ 2 then (false, volume)
        else if toList buffer (offset + headerSize) 2 ≠ [dot, dot] then (false, volume)
        else
          writeBlock volume (dirInode.ptr 0)
            (put32 buffer offset (UInt32.ofNat parentInodeNumber))

/-- `remove_directory_entry`: the record stays, dead and without a name. -/
def removeDirectoryEntry (volume : Volume) (dirInodeNumber : Nat) (name : List UInt8) :
    Bool × Volume :=
  match ext2ReadInode volume dirInodeNumber with
  | .error _ => (false, volume)
  | .ok dirInode =>
    if !inodeIsDir dirInode then (false, volume)
    else
      match findDirectoryEntry volume dirInodeNumber name with
      | none => (false, volume)
      | some (blockIndex, entryOffset, _) =>
        match readBlock volume (dirInode.ptr blockIndex) with
        | none => (false, volume)
        | some buffer =>
          let entry := DirEntry.decode buffer entryOffset
          writeBlock volume (dirInode.ptr blockIndex)
            (DirEntry.store buffer entryOffset { entry with inode := 0, nameLen := 0, fileType := 0 })

/-! ## New inodes -/

/-- `setup_new_file_inode`: mode `EXT2_S_IFREG | 0644`. -/
def setupNewFileInode : Inode := { Inode.zero with iMode := 0x81A4, iLinksCount := 1 }

/-- `setup_new_dir_inode`: mode `EXT2_S_IFDIR | 0755`. -/
def setupNewDirInode (volume : Volume) : Inode :=
  { Inode.zero with
    iMode := 0x41ED
    iLinksCount := 2
    iSize := UInt32.ofNat volume.blockSize
    iBlocks := UInt32.ofNat volume.sectorsPerBlock }

/-- The first block of a new directory: `.`, then `..` up to the end of the block. -/
def initialDirectoryBlock (blockSize inodeNumber parentInodeNumber : Nat) : Buf :=
  let dotSize := dirEntrySize 1
  let dotEntry : DirEntry :=
    { inode := UInt32.ofNat inodeNumber, recLen := UInt16.ofNat dotSize, nameLen := 1,
      fileType := ftDir }
  let dotdotEntry : DirEntry :=
    { inode := UInt32.ofNat parentInodeNumber, recLen := UInt16.ofNat (blockSize - dotSize),
      nameLen := 2, fileType := ftDir }
  let first := splice (DirEntry.store (fun _ => 0) 0 dotEntry) headerSize 1 (ofList [dot])
  splice (DirEntry.store first dotSize dotdotEntry) (dotSize + headerSize) 2 (ofList [dot, dot])

def initializeDirectoryBlock (volume : Volume) (inodeNumber parentInodeNumber blockNumber : Nat) :
    Bool × Volume :=
  if volume.blockSize < dirEntrySize 1 + headerSize + 1 then (false, volume)
  else writeBlock volume blockNumber
    (initialDirectoryBlock volume.blockSize inodeNumber parentInodeNumber)

/-- `free_inode_and_blocks`; without an inode the function reads it from the disk. -/
def freeInodeAndBlocks (volume : Volume) (inodeNumber : Nat) (inode : Option Inode) : Bool × Volume :=
  let cache : Except Kerr Inode := match inode with
    | some given => .ok given
    | none => ext2ReadInode volume inodeNumber
  match cache with
  | .error _ => (false, volume)
  | .ok cached =>
    match freeInodeBlockChain volume cached with
    | (false, freed) => (false, freed)
    | (true, freed) => freeInode freed inodeNumber

end GinnOS.Ext2
