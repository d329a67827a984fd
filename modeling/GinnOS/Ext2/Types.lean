import Mathlib.Data.Fintype.Pi
import Mathlib.Tactic.FinCases
import GinnOS.Lib.Buffer

/-! # On-disk structures of the ext2 driver (`fs/ext2/ext2.h`)

The packed C structures, field by field, with the byte codecs that `memcpy`
between a structure and a sector performs.  Fields keep their C width, so a
structure and its bytes determine each other: `decode_encode` holds with no side
condition.
-/

namespace GinnOS

open Lib Lib.Buf

/-- The unified kernel error codes (`common/error.h`). -/
inductive Kerr where
  | ok | nomem | io | notfound | perm | inval | busy | nospc | range | exist | isdir | notdir
  | pipe | noent | fault
  deriving DecidableEq, Repr

namespace Ext2

def sectorSize : Nat := 512
def superblockOffset : Nat := 1024
def superblockMagic : UInt16 := 0xEF53
def ndirBlocks : Nat := 12
def inodeRoot : Nat := 2
def ftRegFile : UInt8 := 1
def ftDir : UInt8 := 2
def sIfreg : UInt16 := 0x8000
def sIfdir : UInt16 := 0x4000
def sIfmt : UInt16 := 0xF000
def featureIncompatFiletype : UInt32 := 0x0002
def maxBlockSize : Nat := 4096
def maxInodeSize : Nat := 256
def nameMax : Nat := 256

/-- Reduction of an `uint32_t` computation. -/
def u32 (n : Nat) : Nat := n % 4294967296

theorem u32_of_lt {n : Nat} (bound : n < 4294967296) : u32 n = n := Nat.mod_eq_of_lt bound

theorem u32_lt (n : Nat) : u32 n < 4294967296 := Nat.mod_lt n (by decide)

/-! ## Superblock -/

/-- `ext2_superblock_t`. -/
structure Superblock where
  sInodesCount : UInt32
  sBlocksCount : UInt32
  sRBlocksCount : UInt32
  sFreeBlocksCount : UInt32
  sFreeInodesCount : UInt32
  sFirstDataBlock : UInt32
  sLogBlockSize : UInt32
  sLogFragSize : UInt32
  sBlocksPerGroup : UInt32
  sFragsPerGroup : UInt32
  sInodesPerGroup : UInt32
  sMtime : UInt32
  sWtime : UInt32
  sMntCount : UInt16
  sMaxMntCount : UInt16
  sMagic : UInt16
  sState : UInt16
  sErrors : UInt16
  sMinorRevLevel : UInt16
  sLastcheck : UInt32
  sCheckinterval : UInt32
  sCreatorOs : UInt32
  sRevLevel : UInt32
  sDefResuid : UInt16
  sDefResgid : UInt16
  sFirstIno : UInt32
  sInodeSize : UInt16
  sBlockGroupNr : UInt16
  sFeatureCompat : UInt32
  sFeatureIncompat : UInt32
  sFeatureRoCompat : UInt32
  deriving DecidableEq

namespace Superblock

/-- `sizeof(ext2_superblock_t)`. -/
def byteSize : Nat := 104

def encode (sb : Superblock) : List UInt8 :=
  List.flatten [
    bytes32 sb.sInodesCount, bytes32 sb.sBlocksCount, bytes32 sb.sRBlocksCount,
    bytes32 sb.sFreeBlocksCount, bytes32 sb.sFreeInodesCount, bytes32 sb.sFirstDataBlock,
    bytes32 sb.sLogBlockSize, bytes32 sb.sLogFragSize, bytes32 sb.sBlocksPerGroup,
    bytes32 sb.sFragsPerGroup, bytes32 sb.sInodesPerGroup, bytes32 sb.sMtime, bytes32 sb.sWtime,
    bytes16 sb.sMntCount, bytes16 sb.sMaxMntCount, bytes16 sb.sMagic, bytes16 sb.sState,
    bytes16 sb.sErrors, bytes16 sb.sMinorRevLevel, bytes32 sb.sLastcheck,
    bytes32 sb.sCheckinterval, bytes32 sb.sCreatorOs, bytes32 sb.sRevLevel, bytes16 sb.sDefResuid,
    bytes16 sb.sDefResgid, bytes32 sb.sFirstIno, bytes16 sb.sInodeSize, bytes16 sb.sBlockGroupNr,
    bytes32 sb.sFeatureCompat, bytes32 sb.sFeatureIncompat, bytes32 sb.sFeatureRoCompat]

def decode (b : Buf) : Superblock where
  sInodesCount := le32 b 0
  sBlocksCount := le32 b 4
  sRBlocksCount := le32 b 8
  sFreeBlocksCount := le32 b 12
  sFreeInodesCount := le32 b 16
  sFirstDataBlock := le32 b 20
  sLogBlockSize := le32 b 24
  sLogFragSize := le32 b 28
  sBlocksPerGroup := le32 b 32
  sFragsPerGroup := le32 b 36
  sInodesPerGroup := le32 b 40
  sMtime := le32 b 44
  sWtime := le32 b 48
  sMntCount := le16 b 52
  sMaxMntCount := le16 b 54
  sMagic := le16 b 56
  sState := le16 b 58
  sErrors := le16 b 60
  sMinorRevLevel := le16 b 62
  sLastcheck := le32 b 64
  sCheckinterval := le32 b 68
  sCreatorOs := le32 b 72
  sRevLevel := le32 b 76
  sDefResuid := le16 b 80
  sDefResgid := le16 b 82
  sFirstIno := le32 b 84
  sInodeSize := le16 b 88
  sBlockGroupNr := le16 b 90
  sFeatureCompat := le32 b 92
  sFeatureIncompat := le32 b 96
  sFeatureRoCompat := le32 b 100

theorem decode_congr {b c : Buf} (agree : AgreeOn 0 byteSize b c) : decode b = decode c := by
  have word (off : Nat) (bound : off + 4 ≤ 104) : le32 b off = le32 c off :=
    le32_congr (agree.mono (Nat.zero_le off) bound)
  have half (off : Nat) (bound : off + 2 ≤ 104) : le16 b off = le16 c off :=
    le16_congr (agree.mono (Nat.zero_le off) bound)
  simp only [decode, mk.injEq]
  refine ⟨?_, ?_, ?_, ?_, ?_, ?_, ?_, ?_, ?_, ?_, ?_, ?_, ?_, ?_, ?_, ?_, ?_, ?_, ?_, ?_, ?_, ?_, ?_,
    ?_, ?_, ?_, ?_, ?_, ?_, ?_, ?_⟩
  all_goals first | exact word _ (by decide) | exact half _ (by decide)

theorem decode_encode (sb : Superblock) : decode (ofList sb.encode) = sb := by
  simp only [decode, encode, List.flatten_cons, le32_head, le16_head, le32_skip32, le32_skip16,
    le16_skip32, le16_skip16]

end Superblock

/-! ## Block group descriptor -/

/-- `ext2_block_group_desc_t`. -/
structure GroupDesc where
  bgBlockBitmap : UInt32
  bgInodeBitmap : UInt32
  bgInodeTable : UInt32
  bgFreeBlocksCount : UInt16
  bgFreeInodesCount : UInt16
  bgUsedDirsCount : UInt16
  bgPad : UInt16
  bgReserved : Fin 12 → UInt8
  deriving DecidableEq

namespace GroupDesc

/-- `sizeof(ext2_block_group_desc_t)`. -/
def byteSize : Nat := 32

def encode (desc : GroupDesc) : List UInt8 :=
  List.flatten [
    bytes32 desc.bgBlockBitmap, bytes32 desc.bgInodeBitmap, bytes32 desc.bgInodeTable,
    bytes16 desc.bgFreeBlocksCount, bytes16 desc.bgFreeInodesCount, bytes16 desc.bgUsedDirsCount,
    bytes16 desc.bgPad, List.ofFn desc.bgReserved]

def decode (b : Buf) : GroupDesc where
  bgBlockBitmap := le32 b 0
  bgInodeBitmap := le32 b 4
  bgInodeTable := le32 b 8
  bgFreeBlocksCount := le16 b 12
  bgFreeInodesCount := le16 b 14
  bgUsedDirsCount := le16 b 16
  bgPad := le16 b 18
  bgReserved k := b (20 + k)

theorem decode_congr {b c : Buf} (agree : AgreeOn 0 byteSize b c) : decode b = decode c := by
  have word (off : Nat) (bound : off + 4 ≤ 32) : le32 b off = le32 c off :=
    le32_congr (agree.mono (Nat.zero_le off) bound)
  have half (off : Nat) (bound : off + 2 ≤ 32) : le16 b off = le16 c off :=
    le16_congr (agree.mono (Nat.zero_le off) bound)
  simp only [decode, mk.injEq]
  refine ⟨word _ (by decide), word _ (by decide), word _ (by decide), half _ (by decide),
    half _ (by decide), half _ (by decide), half _ (by decide), ?_⟩
  funext k
  exact agree _ (Nat.zero_le _) (by have := k.isLt; simp only [byteSize]; omega)

theorem decode_encode (desc : GroupDesc) : decode (ofList desc.encode) = desc := by
  cases desc
  simp only [decode, encode, List.flatten_cons, le32_head, le16_head, le32_skip32,
    le16_skip32, le16_skip16, mk.injEq, true_and]
  funext k
  fin_cases k <;> rfl

end GroupDesc

/-! ## Inode -/

/-- `ext2_inode_t`. -/
structure Inode where
  iMode : UInt16
  iUid : UInt16
  iSize : UInt32
  iAtime : UInt32
  iCtime : UInt32
  iMtime : UInt32
  iDtime : UInt32
  iGid : UInt16
  iLinksCount : UInt16
  iBlocks : UInt32
  iFlags : UInt32
  iOsd1 : UInt32
  iBlock : Fin 15 → UInt32
  iGeneration : UInt32
  iFileAcl : UInt32
  iDirAcl : UInt32
  iFaddr : UInt32
  iOsd2 : Fin 12 → UInt8
  deriving DecidableEq

namespace Inode

/-- `sizeof(ext2_inode_t)`. -/
def byteSize : Nat := 128

def encode (ino : Inode) : List UInt8 :=
  List.flatten [
    bytes16 ino.iMode, bytes16 ino.iUid, bytes32 ino.iSize, bytes32 ino.iAtime,
    bytes32 ino.iCtime, bytes32 ino.iMtime, bytes32 ino.iDtime, bytes16 ino.iGid,
    bytes16 ino.iLinksCount, bytes32 ino.iBlocks, bytes32 ino.iFlags, bytes32 ino.iOsd1,
    (List.ofFn ino.iBlock).flatMap bytes32, bytes32 ino.iGeneration, bytes32 ino.iFileAcl,
    bytes32 ino.iDirAcl, bytes32 ino.iFaddr, List.ofFn ino.iOsd2]

def decode (b : Buf) : Inode where
  iMode := le16 b 0
  iUid := le16 b 2
  iSize := le32 b 4
  iAtime := le32 b 8
  iCtime := le32 b 12
  iMtime := le32 b 16
  iDtime := le32 b 20
  iGid := le16 b 24
  iLinksCount := le16 b 26
  iBlocks := le32 b 28
  iFlags := le32 b 32
  iOsd1 := le32 b 36
  iBlock k := le32 b (40 + 4 * k)
  iGeneration := le32 b 100
  iFileAcl := le32 b 104
  iDirAcl := le32 b 108
  iFaddr := le32 b 112
  iOsd2 k := b (116 + k)

theorem decode_congr {b c : Buf} (agree : AgreeOn 0 byteSize b c) : decode b = decode c := by
  have word (off : Nat) (bound : off + 4 ≤ 128) : le32 b off = le32 c off :=
    le32_congr (agree.mono (Nat.zero_le off) bound)
  have half (off : Nat) (bound : off + 2 ≤ 128) : le16 b off = le16 c off :=
    le16_congr (agree.mono (Nat.zero_le off) bound)
  have pointers : (fun k : Fin 15 => le32 b (40 + 4 * k)) = fun k : Fin 15 => le32 c (40 + 4 * k) := by
    funext k
    exact word _ (by have := k.isLt; omega)
  have tail : (fun k : Fin 12 => b (116 + k)) = fun k : Fin 12 => c (116 + k) := by
    funext k
    exact agree _ (Nat.zero_le _) (by have := k.isLt; simp only [byteSize]; omega)
  simp only [decode, mk.injEq]
  refine ⟨?_, ?_, ?_, ?_, ?_, ?_, ?_, ?_, ?_, ?_, ?_, ?_, pointers, ?_, ?_, ?_, ?_, tail⟩
  all_goals first | exact word _ (by decide) | exact half _ (by decide)

theorem decode_encode (ino : Inode) : decode (ofList ino.encode) = ino := by
  cases ino
  simp only [decode, mk.injEq]
  refine ⟨assemble16 _, assemble16 _, assemble32 _, assemble32 _, assemble32 _, assemble32 _,
    assemble32 _, assemble16 _, assemble16 _, assemble32 _, assemble32 _, assemble32 _, ?_,
    assemble32 _, assemble32 _, assemble32 _, assemble32 _, ?_⟩
  · funext k
    fin_cases k <;> exact assemble32 _
  · funext k
    fin_cases k <;> rfl

theorem encode_inj {x y : Inode} (same : x.encode = y.encode) : x = y := by
  rw [← decode_encode x, same, decode_encode]

/-- The inode with every byte zero (`memset (inode, 0, sizeof *inode)`). -/
def zero : Inode := decode fun _ => 0

/-- Block pointer `k` of an inode, as a block number; the array has 15 entries. -/
def ptr (ino : Inode) (k : Nat) : Nat := if bound : k < 15 then (ino.iBlock ⟨k, bound⟩).toNat else 0

/-- `inode->i_block[k] = block`. -/
def setPtr (ino : Inode) (k block : Nat) : Inode :=
  { ino with iBlock := fun j => if j.val = k then UInt32.ofNat block else ino.iBlock j }

theorem ptr_setPtr {ino : Inode} {k block : Nat} (bound : block < 4294967296) (index : k < 15)
    (j : Nat) : (ino.setPtr k block).ptr j = if j = k then block else ino.ptr j := by
  by_cases same : j = k
  · subst same
    simp [ptr, setPtr, index, Nat.mod_eq_of_lt bound]
  · by_cases inside : j < 15 <;> simp [ptr, setPtr, same, inside]

@[simp] theorem zero_ptr (k : Nat) : zero.ptr k = 0 := by
  unfold ptr
  split
  · rfl
  · rfl

end Inode

/-! ## Directory entry header -/

/-- `sizeof(ext2_dir_entry_t)`, which is also the `header_size` of every walker. -/
def headerSize : Nat := 8

/-- `ext2_align4`. -/
def align4 (value : Nat) : Nat := (value + 3) / 4 * 4

/-- `ext2_dir_entry_size`: the aligned length of a record with a name of `nameLen` bytes. -/
def dirEntrySize (nameLen : Nat) : Nat := align4 (headerSize + nameLen)

/-- `ext2_dir_entry_t`. -/
structure DirEntry where
  inode : UInt32
  recLen : UInt16
  nameLen : UInt8
  fileType : UInt8
  deriving DecidableEq

/-- The record header at offset `off` of a directory block. -/
def DirEntry.decode (b : Buf) (off : Nat) : DirEntry where
  inode := le32 b off
  recLen := le16 b (off + 4)
  nameLen := b (off + 6)
  fileType := b (off + 7)

/-- Store a record header at offset `off`. -/
def DirEntry.store (b : Buf) (off : Nat) (entry : DirEntry) : Buf :=
  put8 (put8 (put16 (put32 b off entry.inode) (off + 4) entry.recLen) (off + 6) entry.nameLen)
    (off + 7) entry.fileType

end Ext2

end GinnOS
