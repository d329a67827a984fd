import GinnOS.Ext2.Dir

/-! # Files, directories and open handles (`fs/ext2/ext2_file.c`) -/

namespace GinnOS.Ext2

open Lib Lib.Buf

/-! ## Creating and removing names -/

def ext2CreateFile (volume : Volume) (path : List UInt8) : Kerr × Volume :=
  match lookupParentAndName volume path with
  | none => (.notfound, volume)
  | some (parentInodeNumber, name) =>
    if (lookupChildType volume parentInodeNumber name).isSome then (.exist, volume)
    else
      match ext2ReadInode volume parentInodeNumber with
      | .error _ => (.io, volume)
      | .ok parentInode =>
        if !inodeIsDir parentInode then (.io, volume)
        else
          match allocInode volume with
          | (none, allocated) => (.nospc, allocated)
          | (some child, allocated) =>
            match writeInode allocated child setupNewFileInode with
            | (false, written) => (.io, (freeInode written child).2)
            | (true, written) =>
              match appendOrReplaceDirectoryEntry written parentInodeNumber parentInode name child
                  ftRegFile with
              | (false, _, appended) => (.nospc, (freeInode appended child).2)
              | (true, parentInode', appended) =>
                let stamped : Inode := { parentInode' with iMtime := 0, iCtime := 0 }
                (.ok, (writeInode appended parentInodeNumber stamped).2)

/-- `free_block` then `free_inode`, the rollback of `ext2_create_dir`. -/
def rollbackDir (volume : Volume) (block inodeNumber : Nat) : Volume :=
  (freeInode (freeBlock volume block).2 inodeNumber).2

def ext2CreateDir (volume : Volume) (path : List UInt8) : Kerr × Volume :=
  match lookupParentAndName volume path with
  | none => (.notfound, volume)
  | some (parentInodeNumber, name) =>
    if (lookupChildType volume parentInodeNumber name).isSome then (.exist, volume)
    else
      match ext2ReadInode volume parentInodeNumber with
      | .error _ => (.io, volume)
      | .ok parentInode =>
        if !inodeIsDir parentInode then (.io, volume)
        else
          match allocInode volume with
          | (none, allocated) => (.nospc, allocated)
          | (some child, allocated) =>
            let childGroup := (child - 1) / volume.inodesPerGroup
            match allocBlock allocated with
            | (none, failed) => (.nospc, (freeInode failed child).2)
            | (some childBlock, reserved) =>
              let newInode := (setupNewDirInode volume).setPtr 0 childBlock
              match initializeDirectoryBlock reserved child parentInodeNumber childBlock with
              | (false, failed) => (.io, rollbackDir failed childBlock child)
              | (true, initialized) =>
                match writeInode initialized child newInode with
                | (false, failed) => (.io, rollbackDir failed childBlock child)
                | (true, written) =>
                  match appendOrReplaceDirectoryEntry written parentInodeNumber parentInode name
                      child ftDir with
                  | (false, _, failed) => (.nospc, rollbackDir failed childBlock child)
                  | (true, parentInode', appended) =>
                    let linked : Inode := { parentInode' with
                      iLinksCount := parentInode'.iLinksCount + 1, iMtime := 0, iCtime := 0 }
                    match writeInode appended parentInodeNumber linked with
                    | (false, failed) => (.io, failed)
                    | (true, stored) => (.ok, (updateGroupAndSuperCounts stored childGroup 0 0 1).2)

def ext2RemoveFile (volume : Volume) (path : List UInt8) : Kerr × Volume :=
  match lookupParentAndName volume path with
  | none => (.notfound, volume)
  | some (parentInodeNumber, name) =>
    match lookupChildType volume parentInodeNumber name with
    | none => (.notfound, volume)
    | some (child, childType) =>
      if childType ≠ ftRegFile then (.notfound, volume)
      else
        match removeDirectoryEntry volume parentInodeNumber name with
        | (false, failed) => (.io, failed)
        | (true, removed) =>
          match freeInodeAndBlocks removed child none with
          | (false, failed) => (.io, failed)
          | (true, freed) => (.ok, freed)

def ext2RemoveDir (volume : Volume) (path : List UInt8) : Kerr × Volume :=
  match lookupParentAndName volume path with
  | none => (.notfound, volume)
  | some (parentInodeNumber, name) =>
    match lookupChildType volume parentInodeNumber name with
    | none => (.notfound, volume)
    | some (child, childType) =>
      if childType ≠ ftDir then (.notfound, volume)
      else
        match ext2ReadInode volume child with
        | .error _ => (.io, volume)
        | .ok childInode =>
          if !inodeIsDir childInode then (.io, volume)
          else if !directoryIsEmpty volume child then (.busy, volume)
          else
            match removeDirectoryEntry volume parentInodeNumber name with
            | (false, failed) => (.io, failed)
            | (true, removed) =>
              match ext2ReadInode removed parentInodeNumber with
              | .error _ => (.io, removed)
              | .ok parentInode =>
                let unlinked :=
                  if parentInode.iLinksCount > 0 then
                    let stored : Inode := { parentInode with
                      iLinksCount := parentInode.iLinksCount - 1, iMtime := 0, iCtime := 0 }
                    (writeInode removed parentInodeNumber stored).2
                  else removed
                let childGroup := (child - 1) / volume.inodesPerGroup
                match freeInodeAndBlocks unlinked child (some childInode) with
                | (false, failed) => (.io, failed)
                | (true, freed) => (.ok, (updateGroupAndSuperCounts freed childGroup 0 0 (-1)).2)

def ext2Rename (volume : Volume) (oldPath newPath : List UInt8) : Kerr × Volume :=
  match lookupParentAndName volume oldPath with
  | none => (.notfound, volume)
  | some (oldParent, oldName) =>
    match lookupParentAndName volume newPath with
    | none => (.notfound, volume)
    | some (newParent, newName) =>
      match lookupChildType volume oldParent oldName with
      | none => (.notfound, volume)
      | some (child, childType) =>
        match ext2ReadInode volume oldParent with
        | .error _ => (.io, volume)
        | .ok oldParentInode =>
          if !inodeIsDir oldParentInode then (.io, volume)
          else
            match ext2ReadInode volume newParent with
            | .error _ => (.io, volume)
            | .ok newParentInode =>
              if !inodeIsDir newParentInode then (.io, volume)
              else if (lookupChildType volume newParent newName).isSome then (.exist, volume)
              else
                let inPlace : Bool × Volume :=
                  if oldParent = newParent then
                    updateDirectoryEntryName volume oldParent oldName newName
                  else (false, volume)
                match inPlace with
                | (true, renamed) => (.ok, renamed)
                | (false, volume) =>
                  match appendOrReplaceDirectoryEntry volume newParent newParentInode newName child
                      childType with
                  | (false, _, failed) => (.nospc, failed)
                  | (true, newParentInode', appended) =>
                    let relinked : Except Volume Volume :=
                      if childType = ftDir ∧ oldParent ≠ newParent then
                        match updateDirectoryParentLink appended child newParent with
                        | (false, failed) =>
                          .error (removeDirectoryEntry failed newParent newName).2
                        | (true, moved) =>
                          let childGroup := (child - 1) / volume.inodesPerGroup
                          let oldLinked : Inode :=
                            if oldParentInode.iLinksCount > 0 then
                              { oldParentInode with iLinksCount := oldParentInode.iLinksCount - 1 }
                            else oldParentInode
                          let newLinked : Inode :=
                            { newParentInode' with iLinksCount := newParentInode'.iLinksCount + 1 }
                          let first := (writeInode moved oldParent oldLinked).2
                          let second := (writeInode first newParent newLinked).2
                          .ok (updateGroupAndSuperCounts second childGroup 0 0 0).2
                      else .ok appended
                    match relinked with
                    | .error failed => (.io, failed)
                    | .ok linked =>
                      match removeDirectoryEntry linked oldParent oldName with
                      | (false, failed) => (.io, failed)
                      | (true, removed) => (.ok, removed)

/-! ## File contents -/

/-- The copy loop of `ext2_read_file`; `copied` bytes of `out` are filled. -/
def readFileLoop (volume : Volume) (inode : Inode) (offset length : Nat) :
    (fuel copied : Nat) → Buf → Kerr × Buf
  | 0, _, out => (.ok, out)
  | fuel + 1, copied, out =>
    if copied < length then
      let filePos := u32 (offset + copied)
      let blockIndex := filePos / volume.blockSize
      let blockOffset := filePos % volume.blockSize
      let take := min (length - copied) (volume.blockSize - blockOffset)
      match resolveDataBlock volume inode blockIndex with
      | none => (.io, out)
      | some physBlock =>
        if physBlock = 0 then
          readFileLoop volume inode offset length fuel (copied + take) (fill out copied take 0)
        else
          match readBlock volume physBlock with
          | none => (.io, out)
          | some buffer =>
            readFileLoop volume inode offset length fuel (copied + take)
              (splice out copied take (shift buffer blockOffset))
    else (.ok, out)

/-- `ext2_read_file`: the status and the caller's buffer afterwards. -/
def ext2ReadFile (volume : Volume) (inodeNumber offset length : Nat) (out : Buf) : Kerr × Buf :=
  match ext2ReadInode volume inodeNumber with
  | .error _ => (.io, out)
  | .ok inode =>
    if !inodeIsRegular inode then (.io, out)
    else if length = 0 then (.ok, out)
    else if offset ≥ inode.iSize.toNat then (.range, out)
    else if u32 (offset + length) < offset then (.inval, out)
    else
      let length :=
        if u32 (offset + length) > inode.iSize.toNat then inode.iSize.toNat - offset else length
      readFileLoop volume inode offset length length 0 out

/-- `assign_data_block`: the physical block, the inode and the volume afterwards. -/
def assignDataBlock (volume : Volume) (inode : Inode) (logicalBlockIndex : Nat) :
    Option Nat × Inode × Volume :=
  if logicalBlockIndex ≥ ndirBlocks then (none, inode, volume)
  else if inode.ptr logicalBlockIndex ≠ 0 then (some (inode.ptr logicalBlockIndex), inode, volume)
  else
    match allocBlock volume with
    | (none, allocated) => (none, inode, allocated)
    | (some newBlock, allocated) =>
      match writeBlock allocated newBlock fun _ => 0 with
      | (false, zeroed) => (none, inode, zeroed)
      | (true, zeroed) =>
        let inode' : Inode := { inode.setPtr logicalBlockIndex newBlock with
          iBlocks := inode.iBlocks + UInt32.ofNat (volume.blockSize / sectorSize) }
        (some newBlock, inode', zeroed)

/-- The block loop of `ext2_write_file`, which updates its copy of the inode as it goes. -/
def writeFileLoop (offset length : Nat) (src : Buf) :
    (fuel written : Nat) → Volume → Inode → Kerr × Inode × Volume
  | 0, _, volume, inode => (.ok, inode, volume)
  | fuel + 1, written, volume, inode =>
    if written < length then
      let filePos := u32 (offset + written)
      let blockIndex := filePos / volume.blockSize
      let blockOffset := filePos % volume.blockSize
      let chunk := min (length - written) (volume.blockSize - blockOffset)
      match assignDataBlock volume inode blockIndex with
      | (none, inode', assigned) => (.nospc, inode', assigned)
      | (some physBlock, inode', assigned) =>
        match readBlock assigned physBlock with
        | none => (.io, inode', assigned)
        | some buffer =>
          match writeBlock assigned physBlock
              (splice buffer blockOffset chunk (shift src written)) with
          | (false, stored) => (.io, inode', stored)
          | (true, stored) =>
            writeFileLoop offset length src fuel (written + chunk) stored inode'
    else (.ok, inode, volume)

def ext2WriteFile (volume : Volume) (inodeNumber offset length : Nat) (src : Buf) : Kerr × Volume :=
  if length = 0 then (.ok, volume)
  else
    match ext2ReadInode volume inodeNumber with
    | .error _ => (.io, volume)
    | .ok inode =>
      if !inodeIsRegular inode then (.io, volume)
      else
        match writeFileLoop offset length src length 0 volume inode with
        | (.ok, inode', stored) =>
          let newEnd := u32 (offset + length)
          let inode'' : Inode :=
            if newEnd > inode'.iSize.toNat then { inode' with iSize := UInt32.ofNat newEnd }
            else inode'
          match writeInode stored inodeNumber inode'' with
          | (false, failed) => (.io, failed)
          | (true, done) => (.ok, done)
        | (status, _, stored) => (status, stored)

/-- `ext2_truncate_file`: the size becomes 0 and every block stays allocated. -/
def ext2TruncateFile (volume : Volume) (inodeNumber : Nat) : Kerr × Volume :=
  match ext2ReadInode volume inodeNumber with
  | .error _ => (.io, volume)
  | .ok inode =>
    if !inodeIsRegular inode then (.io, volume)
    else
      match writeInode volume inodeNumber { inode with iSize := 0 } with
      | (false, failed) => (.io, failed)
      | (true, done) => (.ok, done)

/-! ## Open handles -/

/-- `ext2_file_t`.  The volume pointer of a handle is null exactly when the handle is closed. -/
structure Ext2File where
  inode : Nat
  size : Nat
  cursor : Nat
  fileType : UInt8
  isOpen : Bool
  inodeCache : Inode

def ext2Open (volume : Volume) (path : List UInt8) : Except Kerr Ext2File :=
  match ext2LookupPath volume path with
  | .error _ => .error .notfound
  | .ok inodeNumber =>
    match ext2ReadInode volume inodeNumber with
    | .error _ => .error .io
    | .ok inode =>
      .ok { inode := inodeNumber, size := inode.iSize.toNat, cursor := 0,
            fileType := inodeToFileType inode, isOpen := true, inodeCache := inode }

/-- `ext2_read`: the count returned, the handle and the caller's buffer. -/
def ext2Read (volume : Volume) (file : Ext2File) (byteCount : Nat) (dataOut : Buf) :
    Nat × Ext2File × Buf :=
  if !file.isOpen then (0, file, dataOut)
  else if !inodeIsRegular file.inodeCache then (0, file, dataOut)
  else if file.cursor ≥ file.size then (0, file, dataOut)
  else
    let available := file.size - file.cursor
    let byteCount := if byteCount > available then available else byteCount
    if byteCount = 0 then (0, file, dataOut)
    else
      match ext2ReadFile volume file.inode file.cursor byteCount dataOut with
      | (.ok, filled) => (byteCount, { file with cursor := u32 (file.cursor + byteCount) }, filled)
      | (_, filled) => (0, file, filled)

/-- `ext2_write`: the count returned, the handle and the volume. -/
def ext2Write (volume : Volume) (file : Ext2File) (byteCount : Nat) (dataIn : Buf) :
    Nat × Ext2File × Volume :=
  if !file.isOpen then (0, file, volume)
  else if !inodeIsRegular file.inodeCache then (0, file, volume)
  else if byteCount = 0 then (0, file, volume)
  else
    match ext2WriteFile volume file.inode file.cursor byteCount dataIn with
    | (.ok, written) =>
      let cursor := u32 (file.cursor + byteCount)
      let size := if cursor > file.size then cursor else file.size
      (byteCount, { file with cursor := cursor, size := size }, written)
    | (_, failed) => (0, file, failed)

/-- `ext2_truncate`: the handle forgets its size even when the volume refuses. -/
def ext2Truncate (volume : Volume) (file : Ext2File) : Ext2File × Volume :=
  if !file.isOpen then (file, volume)
  else
    ({ file with size := 0, cursor := 0, inodeCache := { file.inodeCache with iSize := 0 } },
      (ext2TruncateFile volume file.inode).2)

/-- `ext2_directory_entry_t`. -/
structure DirectoryEntry where
  inode : Nat
  fileType : UInt8
  size : Nat
  name : List UInt8
  deriving DecidableEq

/-- The loop of `read_directory_entry`; the outer `none` means that `fuel` rounds were not enough,
the inner one that the function returned false. -/
def readDirectoryEntry (volume : Volume) :
    (fuel : Nat) → Ext2File → Option (Option DirectoryEntry × Ext2File)
  | 0, _ => none
  | fuel + 1, file =>
    let blockSize := volume.blockSize
    if file.cursor < file.inodeCache.iSize.toNat then
      let blockIndex := file.cursor / blockSize
      let blockOffset := file.cursor % blockSize
      match resolveDataBlock volume file.inodeCache blockIndex with
      | none => some (none, file)
      | some physicalBlock =>
        match readBlock volume physicalBlock with
        | none => some (none, file)
        | some buffer =>
          if blockOffset + headerSize > blockSize then
            readDirectoryEntry volume fuel { file with cursor := u32 ((blockIndex + 1) * blockSize) }
          else
            let entry := DirEntry.decode buffer blockOffset
            if entry.recLen = 0 ∨ blockOffset + entry.recLen.toNat > blockSize then some (none, file)
            else if entry.recLen.toNat < headerSize then some (none, file)
            else if entry.nameLen.toNat > entry.recLen.toNat - headerSize then some (none, file)
            else
              let file' := { file with cursor := u32 (file.cursor + entry.recLen.toNat) }
              if entry.inode = 0 ∨ entry.nameLen = 0 then readDirectoryEntry volume fuel file'
              else
                some (some { inode := entry.inode.toNat, fileType := entry.fileType, size := 0,
                             name := toList buffer (blockOffset + headerSize) entry.nameLen.toNat },
                  file')
    else some (none, file)

def ext2ReadEntry (volume : Volume) (fuel : Nat) (file : Ext2File) :
    Option (Except Kerr DirectoryEntry × Ext2File) :=
  if !file.isOpen then some (.error .inval, file)
  else if !inodeIsDir file.inodeCache then some (.error .notdir, file)
  else
    match readDirectoryEntry volume fuel file with
    | none => none
    | some (none, file') => some (.error .noent, file')
    | some (some entry, file') => some (.ok entry, file')

end GinnOS.Ext2
