import GinnOS.Ext2.Alloc
import GinnOS.Ext2.Inode

/-! # Volume layout

Where everything lies on a well-formed volume, independently of what is stored
there.  A `Layout` carries the proofs that its metadata blocks are pairwise
distinct, inside the volume and within reach of the driver's 32-bit arithmetic.

Every write of the driver goes to one *region* (the superblock, a group
descriptor, a bitmap, an inode slot or a data block), and distinct regions do
not overlap (`region_unique`).  So a write is `Layout.store`, with one law for
the region that was written (`bytes_store_self`) and one for all others
(`bytes_store_other`).
-/

namespace GinnOS.Ext2

open Lib Lib.Buf

variable {b i a j g : Nat} {r : Region} {v : Volume} {src : Buf}

/-! ## Geometry -/

/-- The metadata blocks of a volume. -/
inductive Meta where
  | super
  | descTable (k : Nat)
  | blockBitmap (g : Nat)
  | inodeBitmap (g : Nat)
  | inodeTable (g k : Nat)
  deriving DecidableEq

/-- The numbers that place the metadata of a volume. -/
structure Geometry where
  blockSize : Nat
  inodeSize : Nat
  firstDataBlock : Nat
  blockCount : Nat
  groups : Nat
  blocksPerGroup : Nat
  inodesPerGroup : Nat
  firstInode : Nat
  blockBitmap : Nat → Nat
  inodeBitmap : Nat → Nat
  inodeTable : Nat → Nat

namespace Geometry

/-- Inodes are numbered from 1 to `inodeCount`. -/
def inodeCount (G : Geometry) : Nat := G.groups * G.inodesPerGroup

def metaBlock (G : Geometry) : Meta → Nat
  | .super => superblockOffset / G.blockSize
  | .descTable k => G.firstDataBlock + 1 + k
  | .blockBitmap g => G.blockBitmap g
  | .inodeBitmap g => G.inodeBitmap g
  | .inodeTable g k => G.inodeTable g + k

/-- The pieces of metadata that a volume has. -/
def Occurs (G : Geometry) : Meta → Prop
  | .super => True
  | .descTable k => k * G.blockSize < G.groups * GroupDesc.byteSize
  | .blockBitmap g => g < G.groups
  | .inodeBitmap g => g < G.groups
  | .inodeTable g k => g < G.groups ∧ k * G.blockSize < G.inodesPerGroup * G.inodeSize

def IsData (G : Geometry) (block : Nat) : Prop :=
  block < G.blockCount ∧ ∀ m, G.Occurs m → G.metaBlock m ≠ block

def IsInode (G : Geometry) (i : Nat) : Prop := 1 ≤ i ∧ i ≤ G.inodeCount

/-- The group that an inode or block belongs to, and its place there. -/
def inodeGroup (G : Geometry) (i : Nat) : Nat := (i - 1) / G.inodesPerGroup

def inodeIndex (G : Geometry) (i : Nat) : Nat := (i - 1) % G.inodesPerGroup

def blockGroup (G : Geometry) (b : Nat) : Nat := (b - G.firstDataBlock) / G.blocksPerGroup

def blockIndex (G : Geometry) (b : Nat) : Nat := (b - G.firstDataBlock) % G.blocksPerGroup

/-- Blocks that the block bitmaps describe. -/
def InVolume (G : Geometry) (b : Nat) : Prop := G.firstDataBlock ≤ b ∧ b < G.blockCount

/-- Every byte of every inode table has a 32-bit offset. -/
def TablesAddressable (G : Geometry) : Prop :=
  ∀ g, g < G.groups → G.inodeTable g * G.blockSize + G.inodesPerGroup * G.inodeSize ≤ 4294967296

end Geometry

/-- A geometry that the driver can work on. -/
structure Layout extends Geometry where
  blockSize_cases : blockSize = 1024 ∨ blockSize = 2048 ∨ blockSize = 4096
  inodeSize_ge : 128 ≤ inodeSize
  inodeSize_le : inodeSize ≤ 256
  blocksPerGroup_pos : 0 < blocksPerGroup
  blocksPerGroup_le : blocksPerGroup ≤ 8 * blockSize
  inodesPerGroup_pos : 0 < inodesPerGroup
  inodesPerGroup_le : inodesPerGroup ≤ 8 * blockSize
  firstDataBlock_lt : firstDataBlock < blockCount
  groups_eq : groups = (blockCount - firstDataBlock + blocksPerGroup - 1) / blocksPerGroup
  inodeCount_lt : groups * inodesPerGroup < 4294967296
  sectors_addressable : blockCount * (blockSize / sectorSize) ≤ 4294967296
  descs_addressable : (firstDataBlock + 1) * blockSize + groups * GroupDesc.byteSize ≤ 4294967296
  meta_inside : ∀ m, toGeometry.Occurs m → toGeometry.metaBlock m < blockCount
  meta_inj : ∀ m m', toGeometry.Occurs m → toGeometry.Occurs m' →
    toGeometry.metaBlock m = toGeometry.metaBlock m' → m = m'

namespace Layout

variable (L : Layout)

theorem blockSize_pos : 0 < L.blockSize := by
  rcases L.blockSize_cases with size | size | size <;> omega

theorem blockGroup_lt (inside : L.InVolume b) : L.blockGroup b < L.groups := by
  have positive := L.blocksPerGroup_pos
  obtain ⟨lower, upper⟩ := inside
  rw [Geometry.blockGroup, L.groups_eq, Nat.div_lt_iff_lt_mul positive]
  have whole := Nat.div_add_mod (L.blockCount - L.firstDataBlock + L.blocksPerGroup - 1)
    L.blocksPerGroup
  have rest := Nat.mod_lt (L.blockCount - L.firstDataBlock + L.blocksPerGroup - 1) positive
  rw [Nat.mul_comm] at whole
  omega

theorem inodeGroup_lt (inside : L.IsInode i) : L.inodeGroup i < L.groups := by
  obtain ⟨lower, upper⟩ := inside
  rw [Geometry.inodeGroup, Nat.div_lt_iff_lt_mul L.inodesPerGroup_pos]
  have count : L.inodeCount = L.groups * L.inodesPerGroup := rfl
  omega

theorem inode_lt (inside : L.IsInode i) : i < 4294967296 :=
  Nat.lt_of_le_of_lt inside.2 L.inodeCount_lt

theorem inodeIndex_lt (i : Nat) : L.inodeIndex i < L.inodesPerGroup :=
  Nat.mod_lt _ L.inodesPerGroup_pos

theorem blockIndex_lt (b : Nat) : L.blockIndex b < L.blocksPerGroup :=
  Nat.mod_lt _ L.blocksPerGroup_pos

theorem inodeSlot_le (i : Nat) :
    L.inodeIndex i * L.inodeSize + L.inodeSize ≤ L.inodesPerGroup * L.inodeSize := by
  have step : (L.inodeIndex i + 1) * L.inodeSize ≤ L.inodesPerGroup * L.inodeSize :=
    Nat.mul_le_mul_right _ (L.inodeIndex_lt i)
  rwa [Nat.add_mul, Nat.one_mul] at step

end Layout

/-! ## Regions -/

/-- What a single write of the driver can change. -/
inductive Region where
  | super
  | desc (g : Nat)
  | blockBitmap (g : Nat)
  | inodeBitmap (g : Nat)
  | inode (i : Nat)
  | data (b : Nat)
  deriving DecidableEq

namespace Layout

variable (L : Layout)

def start : Region → Nat
  | .super => superblockOffset
  | .desc g => (L.firstDataBlock + 1) * L.blockSize + g * GroupDesc.byteSize
  | .blockBitmap g => L.blockBitmap g * L.blockSize
  | .inodeBitmap g => L.inodeBitmap g * L.blockSize
  | .inode i => L.inodeTable (L.inodeGroup i) * L.blockSize + L.inodeIndex i * L.inodeSize
  | .data b => b * L.blockSize

def size : Region → Nat
  | .super => Superblock.byteSize
  | .desc _ => GroupDesc.byteSize
  | .blockBitmap _ => L.blockSize
  | .inodeBitmap _ => L.blockSize
  | .inode _ => L.inodeSize
  | .data _ => L.blockSize

def Valid : Region → Prop
  | .super => True
  | .desc g => g < L.groups
  | .blockBitmap g => g < L.groups
  | .inodeBitmap g => g < L.groups
  | .inode i => L.IsInode i
  | .data b => L.IsData b

def Covers (r : Region) (a : Nat) : Prop := L.start r ≤ a ∧ a < L.start r + L.size r

/-- The metadata block that an address of a region lies in, if the region is metadata. -/
def metaAt : Region → Nat → Option Meta
  | .super, _ => some .super
  | .desc _, a => some (.descTable (a / L.blockSize - (L.firstDataBlock + 1)))
  | .blockBitmap g, _ => some (.blockBitmap g)
  | .inodeBitmap g, _ => some (.inodeBitmap g)
  | .inode i, a =>
    some (.inodeTable (L.inodeGroup i) (a / L.blockSize - L.inodeTable (L.inodeGroup i)))
  | .data _, _ => none

/-- A range that starts at block `first` and is `length` long covers blocks `first + k`. -/
theorem block_of_range (first length : Nat) (lower : first * L.blockSize ≤ a)
    (upper : a < first * L.blockSize + length) :
    a / L.blockSize = first + (a / L.blockSize - first) ∧
      (a / L.blockSize - first) * L.blockSize < length := by
  have positive := L.blockSize_pos
  have below : first ≤ a / L.blockSize := (Nat.le_div_iff_mul_le positive).mpr lower
  have whole : a / L.blockSize * L.blockSize ≤ a := Nat.div_mul_le_self a L.blockSize
  refine ⟨by omega, ?_⟩
  rw [Nat.sub_mul]
  omega

theorem block_of_block (lower : b * L.blockSize ≤ a)
    (upper : a < b * L.blockSize + L.blockSize) : a / L.blockSize = b := by
  apply Nat.div_eq_of_lt_le lower
  rw [Nat.add_mul, Nat.one_mul]
  exact upper

/-- An address of a metadata region lies in the metadata block `metaAt` names; an address of a
data region lies in that data block. -/
theorem metaAt_spec (valid : L.Valid r) (covers : L.Covers r a) :
    match L.metaAt r a with
    | some m => L.Occurs m ∧ a / L.blockSize = L.metaBlock m
    | none => ∃ b, r = .data b ∧ a / L.blockSize = b := by
  obtain ⟨lower, upper⟩ := covers
  cases r with
  | super =>
    refine ⟨trivial, ?_⟩
    simp only [start, size, superblockOffset, Superblock.byteSize] at lower upper
    simp only [Geometry.metaBlock, superblockOffset]
    rcases L.blockSize_cases with bs | bs | bs <;> rw [bs] <;> omega
  | desc g =>
    simp only [start, size] at lower upper
    have slot : g * GroupDesc.byteSize + GroupDesc.byteSize ≤ L.groups * GroupDesc.byteSize := by
      have := Nat.mul_le_mul_right GroupDesc.byteSize (show g + 1 ≤ L.groups from valid)
      rwa [Nat.add_mul, Nat.one_mul] at this
    obtain ⟨block, inside⟩ := L.block_of_range (L.firstDataBlock + 1)
      (L.groups * GroupDesc.byteSize) (a := a) (by omega) (by omega)
    exact ⟨inside, block⟩
  | blockBitmap g => exact ⟨valid, L.block_of_block lower upper⟩
  | inodeBitmap g => exact ⟨valid, L.block_of_block lower upper⟩
  | inode i =>
    simp only [start, size] at lower upper
    have slot := L.inodeSlot_le i
    obtain ⟨block, inside⟩ := L.block_of_range (L.inodeTable (L.inodeGroup i))
      (L.inodesPerGroup * L.inodeSize) (a := a) (by omega) (by omega)
    exact ⟨⟨L.inodeGroup_lt valid, inside⟩, block⟩
  | data b => exact ⟨b, rfl, L.block_of_block lower upper⟩

theorem slot_unique {base width : Nat} (first : base + i * width ≤ a)
    (first' : a < base + i * width + width) (second : base + j * width ≤ a)
    (second' : a < base + j * width + width) : i = j := by
  rcases Nat.lt_trichotomy i j with less | same | more
  · have := Nat.mul_le_mul_right width (show i + 1 ≤ j from less)
    rw [Nat.add_mul, Nat.one_mul] at this
    omega
  · exact same
  · have := Nat.mul_le_mul_right width (show j + 1 ≤ i from more)
    rw [Nat.add_mul, Nat.one_mul] at this
    omega

theorem inode_unique (first : L.IsInode i) (second : L.IsInode j)
    (group : L.inodeGroup i = L.inodeGroup j) (index : L.inodeIndex i = L.inodeIndex j) : i = j := by
  have := Nat.div_add_mod (i - 1) L.inodesPerGroup
  have := Nat.div_add_mod (j - 1) L.inodesPerGroup
  simp only [Geometry.inodeGroup, Geometry.inodeIndex] at group index
  rw [group, index] at *
  have := first.1
  have := second.1
  omega

theorem region_unique {r' : Region} (valid : L.Valid r) (valid' : L.Valid r')
    (covers : L.Covers r a) (covers' : L.Covers r' a) : r = r' := by
  have spec := L.metaAt_spec valid covers
  have spec' := L.metaAt_spec valid' covers'
  cases known : L.metaAt r a with
  | none =>
    rw [known] at spec
    obtain ⟨b, rfl, block⟩ := spec
    cases known' : L.metaAt r' a with
    | none =>
      rw [known'] at spec'
      obtain ⟨b', rfl, block'⟩ := spec'
      rw [← block, ← block']
    | some m' =>
      rw [known'] at spec'
      exact absurd (spec'.2.symm.trans block) (valid.2 m' spec'.1)
  | some m =>
    rw [known] at spec
    cases known' : L.metaAt r' a with
    | none =>
      rw [known'] at spec'
      obtain ⟨b', rfl, block'⟩ := spec'
      exact absurd (spec.2.symm.trans block') (valid'.2 m spec.1)
    | some m' =>
      rw [known'] at spec'
      obtain rfl : m = m' := L.meta_inj m m' spec.1 spec'.1 (spec.2.symm.trans spec'.2)
      obtain ⟨lower, upper⟩ := covers
      obtain ⟨lower', upper'⟩ := covers'
      -- One metadata block: the regions are of one kind, and equal slots of it.
      cases r <;> cases r' <;> simp only [metaAt, Option.some.injEq, reduceCtorEq] at known known' <;>
        subst known <;> simp only [reduceCtorEq, Meta.blockBitmap.injEq, Meta.inodeBitmap.injEq,
          Meta.inodeTable.injEq] at known'
      · rfl
      · next g g' => rw [slot_unique lower upper lower' upper']
      · rw [known']
      · rw [known']
      · next i j =>
        simp only [start, size, known'.1] at lower upper lower' upper'
        rw [L.inode_unique valid valid' known'.1.symm (slot_unique lower upper lower' upper')]

/-! ## Bytes of a region -/

def bytes (v : Volume) (r : Region) : Buf := clip (L.size r) (shift v.disk.data (L.start r))

def store (v : Volume) (r : Region) (src : Buf) : Volume :=
  { v with disk := { v.disk with data := splice v.disk.data (L.start r) (L.size r) src } }

@[simp] theorem bytes_store_self (v : Volume) (r : Region) (src : Buf) :
    L.bytes (L.store v r src) r = clip (L.size r) src := by
  apply clip_congr
  intro k _ inside
  simp only [store, shift]
  rw [splice_inside (by omega) (by omega), Nat.add_sub_cancel_left]

theorem bytes_store_other {s : Region} (valid : L.Valid r)
    (valid' : L.Valid s) (other : s ≠ r) : L.bytes (L.store v r src) s = L.bytes v s := by
  apply clip_congr
  intro k _ inside
  apply splice_outside
  by_contra covered
  exact other (L.region_unique valid' valid (a := L.start s + k)
    ⟨by omega, by omega⟩ ⟨by omega, by omega⟩)

def desc (v : Volume) (g : Nat) : GroupDesc := GroupDesc.decode (L.bytes v (.desc g))

theorem desc_store_self (v : Volume) (g : Nat) (d : GroupDesc) :
    L.desc (L.store v (.desc g) (ofList d.encode)) g = d := by
  rw [desc, bytes_store_self]
  exact (GroupDesc.decode_congr (agreeOn_clip _ _)).trans (GroupDesc.decode_encode d)

theorem desc_store_other (valid : L.Valid r)
    (inside : g < L.groups) (other : r ≠ .desc g) : L.desc (L.store v r src) g = L.desc v g := by
  unfold desc
  rw [L.bytes_store_other (s := .desc g) valid inside (Ne.symm other)]

end Layout

/-! ## Volumes with a layout -/

/-- The volume's geometry fields and descriptors are those of the layout, and its device never
fails. -/
structure Volume.HasLayout (v : Volume) (L : Layout) : Prop where
  healthy : v.disk.Healthy
  blockSize : v.blockSize = L.blockSize
  sectorsPerBlock : v.sectorsPerBlock = L.blockSize / sectorSize
  inodeSize : v.inodeSize = L.inodeSize
  firstDataBlock : v.firstDataBlock = L.firstDataBlock
  blockCount : v.blockCount = L.blockCount
  inodeCount : v.inodeCount = L.inodeCount
  firstNonReservedInode : v.firstNonReservedInode = L.firstInode
  blockGroupCount : v.blockGroupCount = L.groups
  blocksPerGroup : v.blocksPerGroup = L.blocksPerGroup
  inodesPerGroup : v.inodesPerGroup = L.inodesPerGroup
  bgdtStartBlock : v.bgdtStartBlock = L.firstDataBlock + 1
  blockBitmap : ∀ g, g < L.groups → (L.desc v g).bgBlockBitmap.toNat = L.blockBitmap g
  inodeBitmap : ∀ g, g < L.groups → (L.desc v g).bgInodeBitmap.toNat = L.inodeBitmap g
  inodeTable : ∀ g, g < L.groups → (L.desc v g).bgInodeTable.toNat = L.inodeTable g

namespace Volume.HasLayout

variable {v : Volume} {L : Layout} (has : v.HasLayout L)

include has

theorem ofDescs {v' : Volume} (same : v' = { v with disk := v'.disk, superblock := v'.superblock })
    (healthy : v'.disk.Healthy)
    (descs : ∀ g, g < L.groups → (L.desc v' g).bgBlockBitmap = (L.desc v g).bgBlockBitmap ∧
      (L.desc v' g).bgInodeBitmap = (L.desc v g).bgInodeBitmap ∧
      (L.desc v' g).bgInodeTable = (L.desc v g).bgInodeTable) : v'.HasLayout L := by
  have key (g : Nat) (inside : g < L.groups) := descs g inside
  rw [same] at *
  exact
    { healthy := healthy
      blockSize := has.blockSize
      sectorsPerBlock := has.sectorsPerBlock
      inodeSize := has.inodeSize
      firstDataBlock := has.firstDataBlock
      blockCount := has.blockCount
      inodeCount := has.inodeCount
      firstNonReservedInode := has.firstNonReservedInode
      blockGroupCount := has.blockGroupCount
      blocksPerGroup := has.blocksPerGroup
      inodesPerGroup := has.inodesPerGroup
      bgdtStartBlock := has.bgdtStartBlock
      blockBitmap := fun g inside => by rw [(key g inside).1]; exact has.blockBitmap g inside
      inodeBitmap := fun g inside => by rw [(key g inside).2.1]; exact has.inodeBitmap g inside
      inodeTable := fun g inside => by rw [(key g inside).2.2]; exact has.inodeTable g inside }

/-- Writing anything but a descriptor keeps the layout. -/
theorem store (valid : L.Valid r) (src : Buf) (other : ∀ g, r ≠ .desc g) :
    (L.store v r src).HasLayout L := by
  refine has.ofDescs rfl has.healthy fun g inside => ?_
  rw [L.desc_store_other valid inside (other g)]
  exact ⟨rfl, rfl, rfl⟩

theorem storeDesc (inside : g < L.groups) (d : GroupDesc)
    (blocks : d.bgBlockBitmap = (L.desc v g).bgBlockBitmap)
    (inodes : d.bgInodeBitmap = (L.desc v g).bgInodeBitmap)
    (table : d.bgInodeTable = (L.desc v g).bgInodeTable) :
    (L.store v (.desc g) (ofList d.encode)).HasLayout L := by
  refine has.ofDescs rfl has.healthy fun g' inside' => ?_
  by_cases same : g' = g
  · subst same
    rw [L.desc_store_self]
    exact ⟨blocks, inodes, table⟩
  · rw [L.desc_store_other (r := .desc g) inside inside' (by simpa using Ne.symm same)]
    exact ⟨rfl, rfl, rfl⟩

theorem withSuperblock (sb : Superblock) : Volume.HasLayout { v with superblock := sb } L :=
  has.ofDescs rfl has.healthy fun _ _ => ⟨rfl, rfl, rfl⟩

/-! ## Access to regions -/

omit has in
theorem sectors_cases (L : Layout) :
    sectorSize * (L.blockSize / sectorSize) = L.blockSize ∧ 0 < L.blockSize / sectorSize ∧
      L.blockSize / sectorSize % 256 = L.blockSize / sectorSize := by
  rcases L.blockSize_cases with size | size | size <;> rw [size] <;> decide

theorem sector_eq (inside : b < L.blockCount) :
    u32 (b * v.sectorsPerBlock) = b * (L.blockSize / sectorSize) ∧
      sectorSize * (b * (L.blockSize / sectorSize)) = b * L.blockSize := by
  obtain ⟨whole, positive, _⟩ := sectors_cases L
  have below : b * (L.blockSize / sectorSize) < L.blockCount * (L.blockSize / sectorSize) :=
    Nat.mul_lt_mul_of_pos_right inside positive
  have limit := L.sectors_addressable
  rw [has.sectorsPerBlock]
  refine ⟨u32_of_lt (by omega), ?_⟩
  rw [Nat.mul_left_comm, whole]

theorem readBlock_eq (inside : b < L.blockCount) :
    readBlock v b = some (clip L.blockSize (shift v.disk.data (b * L.blockSize))) := by
  obtain ⟨whole, positive, byte⟩ := sectors_cases L
  obtain ⟨sector, start⟩ := has.sector_eq inside
  rw [readBlock, if_neg (by rw [has.sectorsPerBlock]; omega), sector, has.sectorsPerBlock, byte,
    has.healthy.read_eq positive, start, whole]

theorem writeBlock_eq (inside : b < L.blockCount) (src : Buf) :
    writeBlock v b src = (true, { v with disk := { v.disk with
      data := splice v.disk.data (b * L.blockSize) L.blockSize src } }) := by
  obtain ⟨whole, positive, byte⟩ := sectors_cases L
  obtain ⟨sector, start⟩ := has.sector_eq inside
  rw [writeBlock, if_neg (by rw [has.sectorsPerBlock]; omega), sector, has.sectorsPerBlock, byte,
    has.healthy.write_eq positive, start, whole]

theorem groupDescOffset_eq (inside : g < L.groups) :
    groupDescOffset v g = L.start (.desc g) ∧
      L.start (.desc g) + GroupDesc.byteSize ≤ 4294967296 := by
  have slot : g * GroupDesc.byteSize + GroupDesc.byteSize ≤ L.groups * GroupDesc.byteSize := by
    have := Nat.mul_le_mul_right GroupDesc.byteSize (show g + 1 ≤ L.groups from inside)
    rwa [Nat.add_mul, Nat.one_mul] at this
  have limit := L.descs_addressable
  have positive : 0 < GroupDesc.byteSize := by decide
  simp only [groupDescOffset, Layout.start, has.bgdtStartBlock, has.blockSize]
  generalize (L.firstDataBlock + 1) * L.blockSize = base at limit ⊢
  generalize g * GroupDesc.byteSize = offset at slot ⊢
  rw [u32_of_lt (n := base) (by omega), u32_of_lt (n := offset) (by omega), u32_of_lt (by omega)]
  exact ⟨rfl, by omega⟩

theorem group_known (inside : g < L.groups) : ¬ g ≥ v.blockGroupCount := by
  rw [has.blockGroupCount]
  omega

theorem inodeGroup_known (inside : L.IsInode i) : (i - 1) / v.inodesPerGroup < L.groups := by
  rw [has.inodesPerGroup]
  exact L.inodeGroup_lt inside

theorem readGroupDesc_eq (inside : g < L.groups) :
    readGroupDesc v g = some (L.desc v g) := by
  obtain ⟨offset, fits⟩ := has.groupDescOffset_eq inside
  rw [readGroupDesc, offset, readAbsBytes_eq (has.healthy.serves _ _) fits]
  rfl

theorem writeGroupDesc_eq (inside : g < L.groups) (d : GroupDesc) :
    writeGroupDesc v g d = (true, L.store v (.desc g) (ofList d.encode)) := by
  obtain ⟨offset, fits⟩ := has.groupDescOffset_eq inside
  rw [writeGroupDesc, if_neg (has.group_known inside), offset, writeAbsBytes_eq (has.healthy.serves _ _) fits]
  rfl

theorem writeSuperblock_eq :
    writeSuperblock v = (true, L.store v .super (ofList v.superblock.encode)) := by
  rw [writeSuperblock, writeAbsBytes_eq (has.healthy.serves _ _) (by decide)]
  rfl

theorem readBlockBitmap_eq (inside : g < L.groups) :
    readBlockBitmap v g = some (L.bytes v (.blockBitmap g)) := by
  simp only [readBlockBitmap, readBitmap, if_neg (has.group_known inside), has.readGroupDesc_eq inside,
    has.blockBitmap g inside]
  exact has.readBlock_eq (L.meta_inside (.blockBitmap g) inside)

theorem writeBlockBitmap_eq (inside : g < L.groups) (bitmap : Buf) :
    writeBlockBitmap v g bitmap = (true, L.store v (.blockBitmap g) bitmap) := by
  simp only [writeBlockBitmap, writeBitmap, if_neg (has.group_known inside), has.readGroupDesc_eq inside,
    has.blockBitmap g inside]
  exact has.writeBlock_eq (L.meta_inside (.blockBitmap g) inside) bitmap

theorem readInodeBitmap_eq (inside : g < L.groups) :
    readInodeBitmap v g = some (L.bytes v (.inodeBitmap g)) := by
  simp only [readInodeBitmap, readBitmap, if_neg (has.group_known inside), has.readGroupDesc_eq inside,
    has.inodeBitmap g inside]
  exact has.readBlock_eq (L.meta_inside (.inodeBitmap g) inside)

theorem writeInodeBitmap_eq (inside : g < L.groups) (bitmap : Buf) :
    writeInodeBitmap v g bitmap = (true, L.store v (.inodeBitmap g) bitmap) := by
  simp only [writeInodeBitmap, writeBitmap, if_neg (has.group_known inside), has.readGroupDesc_eq inside,
    has.inodeBitmap g inside]
  exact has.writeBlock_eq (L.meta_inside (.inodeBitmap g) inside) bitmap

end Volume.HasLayout

end GinnOS.Ext2
