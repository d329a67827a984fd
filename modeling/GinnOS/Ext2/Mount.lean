import GinnOS.Ext2.Io

/-! # Mounting a volume (`fs/ext2/ext2_mount.c`)

The allocation of the scratch buffers is left out, and with it `KERR_NOMEM`.
-/

namespace GinnOS.Ext2

open Lib Lib.Buf

/-- The geometry fields that `ext2_initialize` derives from the superblock.  The shift count of
`1024u << s_log_block_size` is taken modulo 32, as the i386 does. -/
def volumeOf (disk : BlockDevice) (sb : Superblock) : Volume :=
  let blockSize := u32 (1024 <<< (sb.sLogBlockSize.toNat % 32))
  { disk := disk
    superblock := sb
    blockSize := blockSize
    sectorsPerBlock := blockSize / sectorSize
    inodeSize := if sb.sInodeSize = 0 then 128 else sb.sInodeSize.toNat
    firstDataBlock := sb.sFirstDataBlock.toNat
    blockCount := sb.sBlocksCount.toNat
    inodeCount := sb.sInodesCount.toNat
    firstNonReservedInode := if sb.sFirstIno = 0 then 11 else sb.sFirstIno.toNat
    blockGroupCount := (sb.sBlocksCount - sb.sFirstDataBlock + sb.sBlocksPerGroup - 1).toNat /
      sb.sBlocksPerGroup.toNat
    blocksPerGroup := sb.sBlocksPerGroup.toNat
    inodesPerGroup := sb.sInodesPerGroup.toNat
    bgdtStartBlock := (sb.sFirstDataBlock + 1).toNat }

def ext2Initialize (disk : BlockDevice) : Except Kerr Volume :=
  match readAbsBytes disk superblockOffset Superblock.byteSize with
  | none => .error .io
  | some buffer =>
    let sb := Superblock.decode buffer
    let volume := volumeOf disk sb
    if sb.sMagic ≠ superblockMagic then .error .inval
    else if volume.blockSize < 1024 ∨ volume.blockSize > maxBlockSize then .error .inval
    else if volume.blockSize % sectorSize ≠ 0 then .error .inval
    else if volume.inodeSize > maxInodeSize ∨ volume.inodeSize < 128 then .error .inval
    else if volume.blocksPerGroup = 0 ∨ volume.inodesPerGroup = 0 then .error .inval
    else if sb.sFeatureIncompat &&& ~~~featureIncompatFiletype ≠ 0 then .error .inval
    else if volume.blockGroupCount = 0 then .error .inval
    else .ok volume

end GinnOS.Ext2
