import GinnOS.Ext2.Owns
import GinnOS.Ext2.Dir
import GinnOS.Ext2.Mount

/-! # Mounted volumes

`ext2_initialize` fills the geometry fields of a volume from the superblock.
When the geometry that it finds on the disk is that of a `Layout`, the mounted
volume has the layout (`mounted_hasLayout`).

The second half is the smallest interesting instance: images of one block group
with 32 blocks of 1 KiB and 16 inodes, whose bitmaps, inodes and data blocks are
arbitrary.  Every such image is accepted (`Image.mounted`), has one and the same
layout (`Image.hasLayout`), and stores what it was built from.
-/

namespace GinnOS.Ext2

open Lib Lib.Buf

/-! ## Geometry of a mounted volume -/

def Volume.groupDesc (v : Volume) (g : Nat) : GroupDesc :=
  GroupDesc.decode (shift v.disk.data ((v.firstDataBlock + 1) * v.blockSize + g * GroupDesc.byteSize))

/-- The geometry that the fields of a volume and its descriptors describe. -/
def Volume.geometry (v : Volume) : Geometry where
  blockSize := v.blockSize
  inodeSize := v.inodeSize
  firstDataBlock := v.firstDataBlock
  blockCount := v.blockCount
  groups := v.blockGroupCount
  blocksPerGroup := v.blocksPerGroup
  inodesPerGroup := v.inodesPerGroup
  firstInode := v.firstNonReservedInode
  blockBitmap g := if g < v.blockGroupCount then (v.groupDesc g).bgBlockBitmap.toNat else 0
  inodeBitmap g := if g < v.blockGroupCount then (v.groupDesc g).bgInodeBitmap.toNat else 0
  inodeTable g := if g < v.blockGroupCount then (v.groupDesc g).bgInodeTable.toNat else 0

theorem ext2Initialize_eq {disk : BlockDevice} {v : Volume} (healthy : disk.Healthy)
    (mounted : ext2Initialize disk = .ok v) :
    v = volumeOf disk (Superblock.decode (clip Superblock.byteSize (shift disk.data superblockOffset))) := by
  unfold ext2Initialize at mounted
  rw [readAbsBytes_eq (healthy.serves _ _) (by decide)] at mounted
  dsimp only at mounted
  repeat' split at mounted
  all_goals cases mounted
  rfl

theorem mounted_hasLayout {disk : BlockDevice} {v : Volume} {L : Layout} (healthy : disk.Healthy)
    (mounted : ext2Initialize disk = .ok v) (geometry : L.toGeometry = v.geometry)
    (inodes : v.inodeCount = L.inodeCount) : v.HasLayout L := by
  have known := ext2Initialize_eq healthy mounted
  have blockSize : L.blockSize = v.blockSize := congrArg Geometry.blockSize geometry
  have firstDataBlock : L.firstDataBlock = v.firstDataBlock := congrArg Geometry.firstDataBlock geometry
  have groups : L.groups = v.blockGroupCount := congrArg Geometry.groups geometry
  have desc (g : Nat) : L.desc v g = v.groupDesc g := by
    unfold Layout.desc Volume.groupDesc Layout.bytes Layout.start
    rw [blockSize, firstDataBlock]
    exact GroupDesc.decode_congr (agreeOn_clip _ _)
  refine
    { healthy := by rw [known]; exact healthy
      blockSize := blockSize.symm
      sectorsPerBlock := by rw [blockSize, known]; rfl
      inodeSize := (congrArg Geometry.inodeSize geometry).symm
      firstDataBlock := firstDataBlock.symm
      blockCount := (congrArg Geometry.blockCount geometry).symm
      inodeCount := inodes
      firstNonReservedInode := (congrArg Geometry.firstInode geometry).symm
      blockGroupCount := groups.symm
      blocksPerGroup := (congrArg Geometry.blocksPerGroup geometry).symm
      inodesPerGroup := (congrArg Geometry.inodesPerGroup geometry).symm
      bgdtStartBlock := ?_
      blockBitmap := fun g inside => by
        rw [desc, congrFun (congrArg Geometry.blockBitmap geometry) g]
        exact (if_pos (groups ▸ inside)).symm
      inodeBitmap := fun g inside => by
        rw [desc, congrFun (congrArg Geometry.inodeBitmap geometry) g]
        exact (if_pos (groups ▸ inside)).symm
      inodeTable := fun g inside => by
        rw [desc, congrFun (congrArg Geometry.inodeTable geometry) g]
        exact (if_pos (groups ▸ inside)).symm }
  -- The first data block is far below the wrap of the 32-bit sum.
  have below := L.firstDataBlock_lt
  have limit := L.sectors_addressable
  have two : 2 ≤ L.blockSize / sectorSize := by
    rcases L.blockSize_cases with size | size | size <;> rw [size] <;> decide
  have doubled := Nat.mul_le_mul_left L.blockCount two
  rw [firstDataBlock] at below ⊢
  rw [known] at below ⊢
  simp only [volumeOf] at below ⊢
  rw [UInt32.toNat_add, UInt32.toNat_one, Nat.mod_eq_of_lt (by omega)]

/-! ## Images of one group -/

/-- What may differ between two images: the bitmaps, the free counts, the inodes and the data. -/
structure Image where
  blockBits : List UInt8
  inodeBits : List UInt8
  freeBlocks : UInt16
  freeInodes : UInt16
  inodes : Nat → Inode
  blocks : Nat → Buf

namespace Image

/-- Superblock in block 1, descriptor in block 2, bitmaps in blocks 3 and 4, inode table in blocks
5 and 6, data from block 7 on. -/
def superblock (im : Image) : Superblock :=
  { Superblock.decode (fun _ => 0) with
    sInodesCount := 16
    sBlocksCount := 32
    sFreeBlocksCount := im.freeBlocks.toUInt32
    sFreeInodesCount := im.freeInodes.toUInt32
    sFirstDataBlock := 1
    sBlocksPerGroup := 32
    sInodesPerGroup := 16
    sMagic := superblockMagic
    sFirstIno := 11
    sInodeSize := 128 }

def groupDesc (im : Image) : GroupDesc :=
  { GroupDesc.decode (fun _ => 0) with
    bgBlockBitmap := 3
    bgInodeBitmap := 4
    bgInodeTable := 5
    bgFreeBlocksCount := im.freeBlocks
    bgFreeInodesCount := im.freeInodes
    bgUsedDirsCount := 1 }

def data (im : Image) : Buf := fun a =>
  match a / 1024 with
  | 0 => 0
  | 1 => ofList im.superblock.encode (a % 1024)
  | 2 => ofList im.groupDesc.encode (a % 1024)
  | 3 => ofList im.blockBits (a % 1024)
  | 4 => ofList im.inodeBits (a % 1024)
  | 5 => ofList (im.inodes (a % 1024 / 128 + 1)).encode (a % 128)
  | 6 => ofList (im.inodes (a % 1024 / 128 + 9)).encode (a % 128)
  | b => im.blocks b (a % 1024)

def disk (im : Image) : BlockDevice where
  data := im.data
  bad _ := false

def volume (im : Image) : Volume := volumeOf im.disk im.superblock

theorem disk_healthy (im : Image) : im.disk.Healthy := fun _ => rfl

theorem agree_super (im : Image) :
    AgreeOn 0 1024 (shift im.data 1024) (ofList im.superblock.encode) := by
  intro k _ bound
  simp only [shift, data, show (1024 + k) / 1024 = 1 by omega, show (1024 + k) % 1024 = k by omega]

theorem agree_desc (im : Image) :
    AgreeOn 0 1024 (shift im.data 2048) (ofList im.groupDesc.encode) := by
  intro k _ bound
  simp only [shift, data, show (2048 + k) / 1024 = 2 by omega, show (2048 + k) % 1024 = k by omega]

theorem stored_superblock (im : Image) :
    Superblock.decode (clip Superblock.byteSize (shift im.disk.data superblockOffset)) =
      im.superblock :=
  (Superblock.decode_congr ((agreeOn_clip _ _).trans (im.agree_super.mono (Nat.le_refl 0)
    (by decide)))).trans (Superblock.decode_encode _)

theorem blockGroupCount_eq (im : Image) : im.volume.blockGroupCount = 1 := by
  change ((32 : UInt32) - 1 + 32 - 1).toNat / (32 : UInt32).toNat = 1
  decide

theorem mounted (im : Image) : ext2Initialize im.disk = .ok im.volume := by
  have blockSize : (volumeOf im.disk im.superblock).blockSize = 1024 := rfl
  have inodeSize : (volumeOf im.disk im.superblock).inodeSize = 128 := rfl
  have blocksPerGroup : (volumeOf im.disk im.superblock).blocksPerGroup = 32 := rfl
  have inodesPerGroup : (volumeOf im.disk im.superblock).inodesPerGroup = 16 := rfl
  have groups : (volumeOf im.disk im.superblock).blockGroupCount = 1 := im.blockGroupCount_eq
  have magic : im.superblock.sMagic = superblockMagic := rfl
  have features : im.superblock.sFeatureIncompat = 0 := rfl
  rw [ext2Initialize, readAbsBytes_eq (im.disk_healthy.serves _ _) (by decide)]
  dsimp only
  rw [im.stored_superblock, blockSize, inodeSize, blocksPerGroup, inodesPerGroup, groups, magic,
    features]
  rfl

/-! ### The layout of the images -/

def geometry : Geometry where
  blockSize := 1024
  inodeSize := 128
  firstDataBlock := 1
  blockCount := 32
  groups := 1
  blocksPerGroup := 32
  inodesPerGroup := 16
  firstInode := 11
  blockBitmap g := if g < 1 then 3 else 0
  inodeBitmap g := if g < 1 then 4 else 0
  inodeTable g := if g < 1 then 5 else 0

theorem metaBlock_eq (m : Meta) (occurs : geometry.Occurs m) :
    match m with
    | .super => geometry.metaBlock m = 1
    | .descTable k => k = 0 ∧ geometry.metaBlock m = 2
    | .blockBitmap g => g = 0 ∧ geometry.metaBlock m = 3
    | .inodeBitmap g => g = 0 ∧ geometry.metaBlock m = 4
    | .inodeTable g k => g = 0 ∧ k < 2 ∧ geometry.metaBlock m = 5 + k := by
  cases m with
  | super => rfl
  | descTable k =>
    have : k * 1024 < 1 * 32 := occurs
    obtain rfl : k = 0 := by omega
    exact ⟨rfl, rfl⟩
  | blockBitmap g =>
    obtain rfl : g = 0 := Nat.lt_one_iff.mp occurs
    exact ⟨rfl, rfl⟩
  | inodeBitmap g =>
    obtain rfl : g = 0 := Nat.lt_one_iff.mp occurs
    exact ⟨rfl, rfl⟩
  | inodeTable g k =>
    obtain rfl : g = 0 := Nat.lt_one_iff.mp occurs.1
    have : k * 1024 < 16 * 128 := occurs.2
    exact ⟨rfl, by omega, rfl⟩

def layout : Layout where
  toGeometry := geometry
  blockSize_cases := .inl rfl
  inodeSize_ge := by decide
  inodeSize_le := by decide
  blocksPerGroup_pos := by decide
  blocksPerGroup_le := by decide
  inodesPerGroup_pos := by decide
  inodesPerGroup_le := by decide
  firstDataBlock_lt := by decide
  groups_eq := by decide
  inodeCount_lt := by decide
  sectors_addressable := by decide
  descs_addressable := by decide
  meta_inside m occurs := by
    have place := metaBlock_eq m occurs
    change geometry.metaBlock m < 32
    cases m <;> omega
  meta_inj m m' occurs occurs' same := by
    have place := metaBlock_eq m occurs
    have place' := metaBlock_eq m' occurs'
    cases m <;> cases m' <;> simp only [Meta.descTable.injEq, Meta.blockBitmap.injEq,
      Meta.inodeBitmap.injEq, Meta.inodeTable.injEq, reduceCtorEq] <;> omega

theorem volume_groupDesc (im : Image) : im.volume.groupDesc 0 = im.groupDesc := by
  have blockSize : im.volume.blockSize = 1024 := rfl
  have firstDataBlock : im.volume.firstDataBlock = 1 := rfl
  have media : im.volume.disk.data = im.data := rfl
  rw [Volume.groupDesc, blockSize, firstDataBlock, media]
  exact (GroupDesc.decode_congr (im.agree_desc.mono (Nat.le_refl 0) (by decide))).trans
    (GroupDesc.decode_encode _)

theorem geometry_eq (im : Image) : layout.toGeometry = im.volume.geometry := by
  have first (g : Nat) (field : GroupDesc → UInt32) :
      (if g < 1 then (field im.groupDesc).toNat else 0) =
        if g < im.volume.blockGroupCount then (field (im.volume.groupDesc g)).toNat else 0 := by
    rw [im.blockGroupCount_eq]
    split
    · next below =>
      obtain rfl : g = 0 := by omega
      rw [im.volume_groupDesc]
    · rfl
  change geometry = _
  simp only [Volume.geometry, geometry, Geometry.mk.injEq]
  exact ⟨rfl, rfl, rfl, rfl, im.blockGroupCount_eq.symm, rfl, rfl, rfl,
    funext fun g => first g GroupDesc.bgBlockBitmap, funext fun g => first g GroupDesc.bgInodeBitmap,
    funext fun g => first g GroupDesc.bgInodeTable⟩

theorem hasLayout (im : Image) : im.volume.HasLayout layout :=
  mounted_hasLayout im.disk_healthy im.mounted im.geometry_eq rfl

/-! ### What an image stores -/

theorem tablesAddressable : layout.TablesAddressable := by
  intro g inside
  obtain rfl : g = 0 := Nat.lt_one_iff.mp inside
  decide

theorem shows (im : Image) : im.volume.Shows layout (layout.view im.volume) :=
  ⟨im.hasLayout, tablesAddressable, rfl⟩

theorem isData_iff (b : Nat) : layout.IsData b ↔ b < 32 ∧ b ∉ [1, 2, 3, 4, 5, 6] := by
  constructor
  · rintro ⟨upper, free⟩
    refine ⟨upper, fun known => ?_⟩
    simp only [List.mem_cons, List.not_mem_nil, or_false] at known
    rcases known with rfl | rfl | rfl | rfl | rfl | rfl
    · exact free .super trivial rfl
    · exact free (.descTable 0) (show 0 * 1024 < 1 * GroupDesc.byteSize by decide) rfl
    · exact free (.blockBitmap 0) Nat.one_pos rfl
    · exact free (.inodeBitmap 0) Nat.one_pos rfl
    · exact free (.inodeTable 0 0) ⟨Nat.one_pos, by decide⟩ rfl
    · exact free (.inodeTable 0 1) ⟨Nat.one_pos, by decide⟩ rfl
  · rintro ⟨upper, free⟩
    refine ⟨upper, fun m occurs same => free ?_⟩
    have place := metaBlock_eq m occurs
    change geometry.metaBlock m = b at same
    simp only [List.mem_cons, List.not_mem_nil, or_false]
    cases m <;> simp only at place <;> omega

/-- What a volume of this layout stores, in a form that can be evaluated. -/
def seen (v : Volume) : View where
  blockSize := 1024
  inode i := if 1 ≤ i ∧ i ≤ 16 then Inode.decode (layout.bytes v (.inode i)) else Inode.zero
  block b := if b < 32 ∧ b ∉ [1, 2, 3, 4, 5, 6] then layout.bytes v (.data b) else fun _ => 0
  usedInodes := {i | (1 ≤ i ∧ i ≤ 16) ∧ layout.inodeBit v i = true}
  usedBlocks := {b | (1 ≤ b ∧ b < 32) ∧ layout.blockBit v b = true}

open Classical in
theorem view_eq_seen (v : Volume) : layout.view v = seen v :=
  View.ext rfl (funext fun _ => if_congr Iff.rfl rfl rfl)
    (funext fun b => if_congr (isData_iff b) rfl rfl) rfl rfl

/-- The check that the inodes of `S` own their blocks. -/
theorem owns {v : Volume} {S : List Nat} (checked : (∀ i, i ∈ S → 1 ≤ i ∧ i ≤ 16) ∧
      (∀ b, b ∈ [1, 2, 3, 4, 5, 6] ++ S.flatMap (seen v).owned → (1 ≤ b ∧ b < 32) ∧ layout.blockBit v b = true) ∧
      ([1, 2, 3, 4, 5, 6] ++ S.flatMap (seen v).owned).Nodup) :
    layout.Owns (layout.view v) {i | i ∈ S} := by
  obtain ⟨inodes, marked, nodup⟩ := checked
  obtain ⟨_, nodup, apart⟩ := List.nodup_append'.mp nodup
  obtain ⟨once, disjoint⟩ := List.nodup_flatMap.mp nodup
  rw [view_eq_seen]
  have mine {i b : Nat} (member : i ∈ S) (known : b ∈ (seen v).owned i) :
      b ∈ S.flatMap (seen v).owned := List.mem_flatMap.mpr ⟨i, member, known⟩
  have used {i b : Nat} (member : i ∈ S) (known : b ∈ (seen v).owned i) :=
    marked b (List.mem_append_right _ (mine member known))
  refine
    { metaUsed := fun m occurs _ => marked _ (List.mem_append_left _ ?_)
      bootUsed := fun inside => absurd inside.1 (by decide)
      inodes := inodes
      data := fun i member b known => (isData_iff b).mpr ⟨(used member known).1.2, fun low => ?_⟩
      used := fun i member b known => used member known
      nodup := once
      apart := fun i member j member' other b known known' => ?_ }
  · have place := metaBlock_eq m occurs
    change geometry.metaBlock m ∈ _
    simp only [List.mem_cons, List.not_mem_nil, or_false]
    cases m <;> simp only at place <;> omega
  · exact apart low (mine member known)
  · have symmetric : Std.Symm (Function.onFun List.Disjoint (seen v).owned) :=
      ⟨fun _ _ apart => List.Disjoint.symm apart⟩
    exact disjoint.forall member member' other known known'

/-- A freshly made volume: an empty root directory in block 7. -/
def fresh : Image where
  blockBits := [0x7f]
  inodeBits := [0xff, 0x03]
  freeBlocks := 24
  freeInodes := 6
  inodes i :=
    if i = inodeRoot then
      Inode.setPtr { Inode.zero with iMode := 0x41ED, iLinksCount := 2, iSize := 1024, iBlocks := 2 } 0 7
    else Inode.zero
  blocks b := if b = 7 then initialDirectoryBlock 1024 inodeRoot inodeRoot else fun _ => 0

/-- The same volume with an empty file `/a` in inode 11. -/
def oneFile : Image where
  blockBits := [0x7f]
  inodeBits := [0xff, 0x07]
  freeBlocks := 24
  freeInodes := 5
  inodes i := if i = 11 then setupNewFileInode else fresh.inodes i
  blocks b :=
    if b = 7 then insertEntry (put16 (fresh.blocks 7) (12 + 4) 12) 24 1000 11 [97] ftRegFile
    else fun _ => 0

end Image

end GinnOS.Ext2
