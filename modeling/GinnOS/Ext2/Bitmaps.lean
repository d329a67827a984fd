import GinnOS.Ext2.Layout

/-! # What the allocator can do

Inversion lemmas for `ext2_alloc.c` on a volume with a layout.  An allocation
finds no group with a free element and changes nothing, or marks the first clear
bit of one group and then updates the free counts (`allocBlock_cases`,
`allocInode_cases`).  A release clears one bit and updates the counts
(`freeBlock_eq`, `freeInode_eq`).  The update itself is refused and changes
nothing, or rewrites one descriptor and the superblock
(`updateGroupAndSuperCounts_eq`).
-/

namespace GinnOS.Ext2

open Lib Lib.Buf

variable {bitmap : Buf} {f limit start g b i k : Nat} {v : Volume} {r : Region} {value : Bool}

/-! ## Bitmap search -/

theorem bitmapTest_eq (bitmap : Buf) (i : Nat) : bitmapTest bitmap i = bit bitmap i :=
  and_mask_ne_zero bitmap i

theorem bit_bitmapSet (bitmap : Buf) (i j : Nat) (value : Bool) :
    bit (bitmapSet bitmap i value) j = if j = i then value else bit bitmap j := by
  cases value with
  | true => simpa [bitmapSet] using bit_orMask bitmap i j
  | false => simpa [bitmapSet] using bit_andMask bitmap i j

theorem bitmapFindFreeLoop_some (count i : Nat)
    (found : bitmapFindFreeLoop bitmap count i = some f) :
    i ≤ f ∧ f < i + count ∧ bit bitmap f = false := by
  induction count generalizing i with
  | zero => simp [bitmapFindFreeLoop] at found
  | succ count ih =>
    rw [bitmapFindFreeLoop, bitmapTest_eq] at found
    cases here : bit bitmap i with
    | false =>
      simp only [here, Bool.not_false, if_true, Option.some.injEq] at found
      subst found
      exact ⟨Nat.le_refl i, by omega, here⟩
    | true =>
      simp only [here, Bool.not_true, Bool.false_eq_true, if_false] at found
      obtain ⟨lower, upper, clear⟩ := ih (i + 1) found
      exact ⟨by omega, by omega, clear⟩

theorem bitmapFindFreeLoop_none (count i : Nat)
    (found : bitmapFindFreeLoop bitmap count i = none) :
    ∀ j, i ≤ j → j < i + count → bit bitmap j = true := by
  induction count generalizing i with
  | zero =>
    intro j lower upper
    omega
  | succ count ih =>
    rw [bitmapFindFreeLoop, bitmapTest_eq] at found
    cases here : bit bitmap i with
    | false => simp [here] at found
    | true =>
      simp only [here, Bool.not_true, Bool.false_eq_true, if_false] at found
      intro j lower upper
      by_cases same : j = i
      · rw [same, here]
      · exact ih (i + 1) found j (by omega) (by omega)

/-- `bitmap_find_free` returns a clear bit of the range. -/
theorem bitmapFindFree_some
    (found : bitmapFindFree bitmap limit start = some f) :
    start ≤ f ∧ f < limit ∧ bit bitmap f = false := by
  obtain ⟨lower, upper, clear⟩ := bitmapFindFreeLoop_some _ _ found
  exact ⟨lower, by omega, clear⟩

/-- `bitmap_find_free` fails only when every bit of the range is set. -/
theorem bitmapFindFree_none
    (found : bitmapFindFree bitmap limit start = none) :
    ∀ j, start ≤ j → j < limit → bit bitmap j = true :=
  fun j lower upper => bitmapFindFreeLoop_none _ _ found j lower (by omega)

/-! ## Elements of a group -/

/-- What the allocator hands out. -/
inductive Kind where
  | block
  | inode
  deriving DecidableEq

namespace Geometry

/-- The number of blocks in a group; the last group may be short. -/
def groupBlocks (G : Geometry) (g : Nat) : Nat :=
  min G.blocksPerGroup (G.blockCount - (G.firstDataBlock + g * G.blocksPerGroup))

/-- Block `f` of group `g`. -/
def blockNumber (G : Geometry) (g f : Nat) : Nat := G.firstDataBlock + g * G.blocksPerGroup + f

/-- Inode `f` of group `g`. -/
def inodeNumber (G : Geometry) (g f : Nat) : Nat := g * G.inodesPerGroup + f + 1

end Geometry

namespace Layout

variable (L : Layout)

theorem groupStart_lt (inside : g < L.groups) :
    L.firstDataBlock + g * L.blocksPerGroup < L.blockCount := by
  have positive := L.blocksPerGroup_pos
  have count : g + 1 ≤ (L.blockCount - L.firstDataBlock + L.blocksPerGroup - 1) / L.blocksPerGroup := by
    rw [← L.groups_eq]
    exact inside
  rw [Nat.le_div_iff_mul_le positive, Nat.add_mul, Nat.one_mul] at count
  omega

/-- Sector numbers have 32 bits, so there are at most 2³¹ blocks. -/
theorem blockCount_le : L.blockCount ≤ 2147483648 := by
  have limit := L.sectors_addressable
  have two : 2 ≤ L.blockSize / sectorSize := by
    rcases L.blockSize_cases with size | size | size <;> rw [size] <;> decide
  have := Nat.mul_le_mul_left L.blockCount two
  omega

theorem bitmap_bits_le : L.blocksPerGroup ≤ 32768 ∧ L.inodesPerGroup ≤ 32768 := by
  have blocks := L.blocksPerGroup_le
  have inodes := L.inodesPerGroup_le
  rcases L.blockSize_cases with size | size | size <;> rw [size] at blocks inodes <;> omega

theorem blockNumber_spec (inside : g < L.groups) (bound : f < L.groupBlocks g) :
    L.InVolume (L.blockNumber g f) ∧ L.blockGroup (L.blockNumber g f) = g ∧
      L.blockIndex (L.blockNumber g f) = f := by
  simp only [Geometry.groupBlocks, Nat.lt_min] at bound
  have relative : L.blockNumber g f - L.firstDataBlock = f + L.blocksPerGroup * g := by
    rw [Geometry.blockNumber, Nat.mul_comm]
    omega
  refine ⟨⟨?_, ?_⟩, ?_, ?_⟩
  · unfold Geometry.blockNumber
    omega
  · unfold Geometry.blockNumber
    omega
  · rw [Geometry.blockGroup, relative, Nat.add_mul_div_left _ _ L.blocksPerGroup_pos,
      Nat.div_eq_of_lt bound.1, Nat.zero_add]
  · rw [Geometry.blockIndex, relative, Nat.add_mul_mod_self_left, Nat.mod_eq_of_lt bound.1]

theorem blockNumber_group (inside : L.InVolume b) :
    L.blockNumber (L.blockGroup b) (L.blockIndex b) = b ∧
      L.blockIndex b < L.groupBlocks (L.blockGroup b) := by
  have whole := Nat.div_add_mod (b - L.firstDataBlock) L.blocksPerGroup
  have same : L.blockNumber (L.blockGroup b) (L.blockIndex b) = b := by
    unfold Geometry.blockNumber Geometry.blockGroup Geometry.blockIndex
    rw [Nat.mul_comm]
    have := inside.1
    omega
  refine ⟨same, ?_⟩
  unfold Geometry.blockNumber at same
  have := inside.2
  have := L.blockIndex_lt b
  simp only [Geometry.groupBlocks, Nat.lt_min]
  omega

theorem inodeNumber_spec (inside : g < L.groups) (bound : f < L.inodesPerGroup) :
    L.IsInode (L.inodeNumber g f) ∧ L.inodeGroup (L.inodeNumber g f) = g ∧
      L.inodeIndex (L.inodeNumber g f) = f := by
  have relative : L.inodeNumber g f - 1 = f + L.inodesPerGroup * g := by
    rw [Geometry.inodeNumber, Nat.mul_comm]
    omega
  refine ⟨⟨?_, ?_⟩, ?_, ?_⟩
  · unfold Geometry.inodeNumber
    omega
  · have step := Nat.mul_le_mul_right L.inodesPerGroup (show g + 1 ≤ L.groups from inside)
    rw [Nat.add_mul, Nat.one_mul] at step
    unfold Geometry.inodeNumber Geometry.inodeCount
    omega
  · rw [Geometry.inodeGroup, relative, Nat.add_mul_div_left _ _ L.inodesPerGroup_pos,
      Nat.div_eq_of_lt bound, Nat.zero_add]
  · rw [Geometry.inodeIndex, relative, Nat.add_mul_mod_self_left, Nat.mod_eq_of_lt bound]

theorem inodeNumber_group (inside : L.IsInode i) :
    L.inodeNumber (L.inodeGroup i) (L.inodeIndex i) = i := by
  have whole := Nat.div_add_mod (i - 1) L.inodesPerGroup
  unfold Geometry.inodeNumber Geometry.inodeGroup Geometry.inodeIndex
  rw [Nat.mul_comm]
  have := inside.1
  omega

/-! ## Marking -/

def blockBit (v : Volume) (b : Nat) : Bool := bit (L.bytes v (.blockBitmap (L.blockGroup b))) (L.blockIndex b)

def inodeBit (v : Volume) (i : Nat) : Bool := bit (L.bytes v (.inodeBitmap (L.inodeGroup i))) (L.inodeIndex i)

theorem valid_blockBitmap (inside : L.InVolume b) :
    L.Valid (.blockBitmap (L.blockGroup b)) := L.blockGroup_lt inside

theorem valid_inodeBitmap (inside : L.IsInode i) :
    L.Valid (.inodeBitmap (L.inodeGroup i)) := L.inodeGroup_lt inside

def mark (v : Volume) (r : Region) (index : Nat) (value : Bool) : Volume :=
  L.store v r (bitmapSet (L.bytes v r) index value)

def markBlock (v : Volume) (b : Nat) (value : Bool) : Volume :=
  L.mark v (.blockBitmap (L.blockGroup b)) (L.blockIndex b) value

def markInode (v : Volume) (i : Nat) (value : Bool) : Volume :=
  L.mark v (.inodeBitmap (L.inodeGroup i)) (L.inodeIndex i) value

/-- A marked bit has its new value, every other bit of every region its old one. -/
theorem bit_mark {s : Region} {index : Nat} (valid : L.Valid r)
    (valid' : L.Valid s) (bound : k < 8 * L.size s) :
    bit (L.bytes (L.mark v r index value) s) k =
      if s = r ∧ k = index then value else bit (L.bytes v s) k := by
  unfold mark
  by_cases same : s = r
  · subst same
    rw [L.bytes_store_self, bit_congr (agreeOn_clip _ _) bound, bit_bitmapSet]
    simp
  · rw [L.bytes_store_other valid valid' same]
    simp [same]

/-! ### Elements of either kind -/

/-- The elements of the volume: blocks that the bitmaps describe, and inode numbers. -/
def IsElement : Kind × Nat → Prop
  | (.block, b) => L.InVolume b
  | (.inode, i) => L.IsInode i

def elementBit (v : Volume) : Kind × Nat → Bool
  | (.block, b) => L.blockBit v b
  | (.inode, i) => L.inodeBit v i

def groupOf : Kind × Nat → Nat
  | (.block, b) => L.blockGroup b
  | (.inode, i) => L.inodeGroup i

def indexOf : Kind × Nat → Nat
  | (.block, b) => L.blockIndex b
  | (.inode, i) => L.inodeIndex i

def bitmapOf : Kind → Nat → Region
  | .block, g => .blockBitmap g
  | .inode, g => .inodeBitmap g

/-- How many bits of a group's bitmap stand for elements. -/
def bitsOf : Kind → Nat → Nat
  | .block, g => L.groupBlocks g
  | .inode, _ => L.inodesPerGroup

def markElement (v : Volume) (x : Kind × Nat) (value : Bool) : Volume :=
  L.mark v (bitmapOf x.1 (L.groupOf x)) (L.indexOf x) value

variable {x y : Kind × Nat} {kind : Kind}

theorem groupOf_lt (valid : L.IsElement x) : L.groupOf x < L.groups := by
  rcases x with ⟨_ | _, n⟩
  · exact L.blockGroup_lt valid
  · exact L.inodeGroup_lt valid

theorem indexOf_lt (valid : L.IsElement x) : L.indexOf x < L.bitsOf x.1 (L.groupOf x) := by
  rcases x with ⟨_ | _, n⟩
  · exact (L.blockNumber_group valid).2
  · exact L.inodeIndex_lt n

theorem bitsOf_le (kind : Kind) (g : Nat) : L.bitsOf kind g ≤ 8 * L.blockSize := by
  have blocks := L.blocksPerGroup_le
  have inodes := L.inodesPerGroup_le
  cases kind with
  | block => exact (Nat.min_le_left _ _).trans blocks
  | inode => exact inodes

theorem valid_bitmapOf (inside : g < L.groups) : L.Valid (bitmapOf kind g) := by
  cases kind <;> exact inside

theorem elementBit_eq : L.elementBit v x = bit (L.bytes v (bitmapOf x.1 (L.groupOf x))) (L.indexOf x) := by
  rcases x with ⟨_ | _, n⟩ <;> rfl

/-- Bit `k` of a bitmap of group `g` after element `x` is marked. -/
theorem bit_markElement (v : Volume) (value : Bool) (valid : L.IsElement x) (inside : g < L.groups)
    (bound : k < L.bitsOf kind g) :
    bit (L.bytes (L.markElement v x value) (bitmapOf kind g)) k =
      if kind = x.1 ∧ g = L.groupOf x ∧ k = L.indexOf x then value
      else bit (L.bytes v (bitmapOf kind g)) k := by
  have size : L.size (bitmapOf kind g) = L.blockSize := by cases kind <;> rfl
  have same : bitmapOf kind g = bitmapOf x.1 (L.groupOf x) ↔ kind = x.1 ∧ g = L.groupOf x := by
    rcases x with ⟨_ | _, n⟩ <;> cases kind <;> simp [bitmapOf]
  rw [markElement, L.bit_mark (L.valid_bitmapOf (L.groupOf_lt valid)) (L.valid_bitmapOf inside)
    (by rw [size]; exact bound.trans_le (L.bitsOf_le kind g))]
  simp only [same, and_assoc]

theorem elementBit_mark (valid : L.IsElement x) (valid' : L.IsElement y) :
    L.elementBit (L.markElement v x value) y = if y = x then value else L.elementBit v y := by
  rw [elementBit_eq, L.bit_markElement v value valid (L.groupOf_lt valid') (L.indexOf_lt valid'),
    ← elementBit_eq]
  have apart : y.1 = x.1 ∧ L.groupOf y = L.groupOf x ∧ L.indexOf y = L.indexOf x ↔ y = x := by
    refine ⟨?_, fun same => by simp [same]⟩
    rintro ⟨sameKind, group, index⟩
    obtain ⟨kind, n⟩ := x
    obtain ⟨kind', m⟩ := y
    obtain rfl : kind' = kind := sameKind
    refine congrArg _ ?_
    cases kind' with
    | block =>
      simp only [groupOf, indexOf] at group index
      rw [← (L.blockNumber_group valid').1, ← (L.blockNumber_group valid).1, group, index]
    | inode => exact L.inode_unique valid' valid group index
  simp only [apart]

theorem blockBit_markBlock {c : Nat} (inside : L.InVolume b) (inside' : L.InVolume c) :
    L.blockBit (L.markBlock v b value) c = if c = b then value else L.blockBit v c :=
  (L.elementBit_mark (x := (.block, b)) (y := (.block, c)) inside inside').trans (by simp [elementBit])

theorem inodeBit_markInode {j : Nat} (inside : L.IsInode i) (inside' : L.IsInode j) :
    L.inodeBit (L.markInode v i value) j = if j = i then value else L.inodeBit v j :=
  (L.elementBit_mark (x := (.inode, i)) (y := (.inode, j)) inside inside').trans (by simp [elementBit])

/-! ## Free counts -/

end Layout

/-- The guards of `update_group_and_super_counts`. -/
def Refused (d : GroupDesc) (sb : Superblock) (freeBlocksDelta freeInodesDelta usedDirsDelta : Int) :
    Prop :=
  underflows d.bgFreeBlocksCount freeBlocksDelta ∨ underflows d.bgFreeInodesCount freeInodesDelta ∨
    underflows d.bgUsedDirsCount usedDirsDelta ∨
    (d.bgFreeBlocksCount.toNat + freeBlocksDelta < 0 ∨ d.bgFreeInodesCount.toNat + freeInodesDelta < 0 ∨
      d.bgUsedDirsCount.toNat + usedDirsDelta < 0) ∨
    (i32 sb.sFreeBlocksCount.toNat + freeBlocksDelta < 0 ∨
      i32 sb.sFreeInodesCount.toNat + freeInodesDelta < 0)

def GroupDesc.adjust (d : GroupDesc) (freeBlocksDelta freeInodesDelta usedDirsDelta : Int) : GroupDesc :=
  { d with
    bgFreeBlocksCount := UInt16.ofNat (d.bgFreeBlocksCount.toNat + freeBlocksDelta).toNat
    bgFreeInodesCount := UInt16.ofNat (d.bgFreeInodesCount.toNat + freeInodesDelta).toNat
    bgUsedDirsCount := UInt16.ofNat (d.bgUsedDirsCount.toNat + usedDirsDelta).toNat }

def Superblock.adjust (sb : Superblock) (freeBlocksDelta freeInodesDelta : Int) : Superblock :=
  { sb with
    sFreeBlocksCount := UInt32.ofNat (i32 sb.sFreeBlocksCount.toNat + freeBlocksDelta).toNat
    sFreeInodesCount := UInt32.ofNat (i32 sb.sFreeInodesCount.toNat + freeInodesDelta).toNat }

namespace Layout

variable (L : Layout)

/-- The volume after the counts of group `g` and the totals have changed. -/
def recount (v : Volume) (g : Nat) (freeBlocksDelta freeInodesDelta usedDirsDelta : Int) : Volume :=
  let sb := v.superblock.adjust freeBlocksDelta freeInodesDelta
  let d := (L.desc v g).adjust freeBlocksDelta freeInodesDelta usedDirsDelta
  L.store (L.store { v with superblock := sb } (.desc g) (ofList d.encode)) .super (ofList sb.encode)

variable {v : Volume} {g : Nat} {freeBlocksDelta freeInodesDelta usedDirsDelta : Int}

theorem bytes_recount (inside : g < L.groups) (valid : L.Valid r) (desc : r ≠ .desc g)
    (super : r ≠ .super) :
    L.bytes (L.recount v g freeBlocksDelta freeInodesDelta usedDirsDelta) r = L.bytes v r := by
  unfold recount
  rw [L.bytes_store_other (r := .super) trivial valid super,
    L.bytes_store_other (r := .desc g) inside valid desc]
  rfl

theorem desc_recount {g' : Nat} (inside : g < L.groups) (inside' : g' < L.groups) :
    L.desc (L.recount v g freeBlocksDelta freeInodesDelta usedDirsDelta) g' =
      if g' = g then (L.desc v g).adjust freeBlocksDelta freeInodesDelta usedDirsDelta
      else L.desc v g' := by
  unfold recount
  rw [L.desc_store_other (r := .super) trivial inside' (by simp)]
  by_cases same : g' = g
  · subst same
    rw [L.desc_store_self, if_pos rfl]
  · rw [L.desc_store_other (r := .desc g) inside inside' (by simpa using Ne.symm same), if_neg same]
    rfl

/-! ## Outcomes of an allocation -/

/-- No group from `group` on has both a positive free count and a clear block bit. -/
def BlocksExhausted (v : Volume) (group : Nat) : Prop :=
  ∀ g, group ≤ g → g < L.groups → (L.desc v g).bgFreeBlocksCount = 0 ∨
    ∀ k, k < L.groupBlocks g → bit (L.bytes v (.blockBitmap g)) k = true

/-- No group from `group` on has both a positive free count and a clear inode bit that the search
considers. -/
def InodesExhausted (v : Volume) (group : Nat) : Prop :=
  ∀ g, group ≤ g → g < L.groups → (L.desc v g).bgFreeInodesCount = 0 ∨
    ∀ k, inodeStartBit v g ≤ k → k < L.inodesPerGroup → bit (L.bytes v (.inodeBitmap g)) k = true

/-- The result marks a free block, and returns it if the counts could be updated. -/
def TakesBlock (v : Volume) (result : Option Nat × Volume) : Prop :=
  ∃ b ok counted, L.InVolume b ∧ L.blockBit v b = false ∧
    (L.desc v (L.blockGroup b)).bgFreeBlocksCount ≠ 0 ∧
    updateGroupAndSuperCounts (L.markBlock v b true) (L.blockGroup b) (-1) 0 0 = (ok, counted) ∧
    result = (if ok then some b else none, counted)

/-- The result marks a free inode, and returns it if the counts could be updated. -/
def TakesInode (v : Volume) (result : Option Nat × Volume) : Prop :=
  ∃ i ok counted, L.IsInode i ∧ L.inodeBit v i = false ∧
    (L.desc v (L.inodeGroup i)).bgFreeInodesCount ≠ 0 ∧
    updateGroupAndSuperCounts (L.markInode v i true) (L.inodeGroup i) 0 (-1) 0 = (ok, counted) ∧
    result = (if ok then some i else none, counted)

end Layout

namespace Volume.HasLayout

variable {v : Volume} {L : Layout} (has : v.HasLayout L)

include has

theorem storeAdjusted (inside : g < L.groups)
    (freeBlocksDelta freeInodesDelta usedDirsDelta : Int) (sb : Superblock) :
    (L.store { v with superblock := sb } (.desc g) (ofList
      ((L.desc v g).adjust freeBlocksDelta freeInodesDelta usedDirsDelta).encode)).HasLayout L := by
  have same : L.desc { v with superblock := sb } g = L.desc v g := rfl
  refine (has.withSuperblock sb).storeDesc inside _ ?_ ?_ ?_ <;> rw [same] <;> rfl

theorem recount (inside : g < L.groups)
    (freeBlocksDelta freeInodesDelta usedDirsDelta : Int) :
    (L.recount v g freeBlocksDelta freeInodesDelta usedDirsDelta).HasLayout L :=
  (has.storeAdjusted inside _ _ _ _).store (r := .super) trivial _ (by simp)

theorem mark (valid : L.Valid r) (bitmap : ∀ g, r ≠ .desc g) (index : Nat)
    (value : Bool) : (L.mark v r index value).HasLayout L :=
  has.store valid _ bitmap

theorem markBlock (inside : L.InVolume b) (value : Bool) :
    (L.markBlock v b value).HasLayout L :=
  has.mark (L.valid_blockBitmap inside) (by simp) _ _

theorem markInode (inside : L.IsInode i) (value : Bool) :
    (L.markInode v i value).HasLayout L :=
  has.mark (L.valid_inodeBitmap inside) (by simp) _ _

/-- The update of the counts is refused, or rewrites one descriptor and the superblock. -/
theorem updateGroupAndSuperCounts_eq (inside : g < L.groups)
    (freeBlocksDelta freeInodesDelta usedDirsDelta : Int) :
    (Refused (L.desc v g) v.superblock freeBlocksDelta freeInodesDelta usedDirsDelta ∧
      updateGroupAndSuperCounts v g freeBlocksDelta freeInodesDelta usedDirsDelta = (false, v)) ∨
    (¬ Refused (L.desc v g) v.superblock freeBlocksDelta freeInodesDelta usedDirsDelta ∧
      updateGroupAndSuperCounts v g freeBlocksDelta freeInodesDelta usedDirsDelta =
        (true, L.recount v g freeBlocksDelta freeInodesDelta usedDirsDelta)) := by
  simp only [updateGroupAndSuperCounts, if_neg (has.group_known inside), has.readGroupDesc_eq inside]
  split
  · next blocks => exact .inl ⟨.inl blocks, rfl⟩
  split
  · next inodes => exact .inl ⟨.inr (.inl inodes), rfl⟩
  split
  · next dirs => exact .inl ⟨.inr (.inr (.inl dirs)), rfl⟩
  split
  · next group => exact .inl ⟨.inr (.inr (.inr (.inl group))), rfl⟩
  split
  · next total => exact .inl ⟨.inr (.inr (.inr (.inr total))), rfl⟩
  · next blocks inodes dirs group total =>
    refine .inr ⟨fun refused => ?_, ?_⟩
    · rcases refused with bad | bad | bad | bad | bad <;> contradiction
    · have described := (has.withSuperblock (v.superblock.adjust freeBlocksDelta freeInodesDelta))
      have stored := has.storeAdjusted inside freeBlocksDelta freeInodesDelta usedDirsDelta
        (v.superblock.adjust freeBlocksDelta freeInodesDelta)
      have first := described.writeGroupDesc_eq inside
        ((L.desc v g).adjust freeBlocksDelta freeInodesDelta usedDirsDelta)
      simp only [Superblock.adjust, GroupDesc.adjust] at first
      rw [first]
      exact stored.writeSuperblock_eq

/-! ## Allocation -/

/-- `alloc_block` computes the first block of a group without overflow. -/
theorem groupStartBlock_eq (inside : g < L.groups) :
    groupStartBlock v g = L.firstDataBlock + g * L.blocksPerGroup := by
  have start := L.groupStart_lt inside
  have limit := L.blockCount_le
  rw [groupStartBlock, has.firstDataBlock, has.blocksPerGroup,
    u32_of_lt (n := g * L.blocksPerGroup) (by omega), u32_of_lt (by omega)]

theorem blockBitLimit_eq (inside : g < L.groups) :
    blockBitLimit v g = L.groupBlocks g := by
  have start := L.groupStart_lt inside
  have limit := L.blockCount_le
  have bits := L.bitmap_bits_le
  rw [blockBitLimit, has.groupStartBlock_eq inside, has.blocksPerGroup, has.blockCount,
    u32_of_lt (by omega), Geometry.groupBlocks]
  split <;> omega

theorem inodeBitLimit_eq (inside : g < L.groups) :
    inodeBitLimit v g = L.inodesPerGroup := by
  have step : g * L.inodesPerGroup + L.inodesPerGroup ≤ L.groups * L.inodesPerGroup := by
    have := Nat.mul_le_mul_right L.inodesPerGroup (show g + 1 ≤ L.groups from inside)
    rwa [Nat.add_mul, Nat.one_mul] at this
  have limit := L.inodeCount_lt
  rw [inodeBitLimit, has.inodesPerGroup, has.inodeCount, has.blockGroupCount]
  split
  · have remaining : u32Sub L.inodeCount (g * L.inodesPerGroup) = L.inodeCount - g * L.inodesPerGroup := by
      have count : L.inodeCount = L.groups * L.inodesPerGroup := rfl
      rw [u32Sub, u32_of_lt (n := g * L.inodesPerGroup) (by omega), u32]
      omega
    have short : ¬ L.inodeCount - g * L.inodesPerGroup < L.inodesPerGroup := by
      have count : L.inodeCount = L.groups * L.inodesPerGroup := rfl
      omega
    simp only [remaining, if_neg short]
  · rfl

omit has in
/-- A search passes over groups that are `Full`, up to the first other one. -/
theorem search_groups (loop : Nat → Nat → Option Nat × Volume) {Full : Nat → Prop}
    {Takes : Option Nat × Volume → Prop} (done : ∀ group, loop 0 group = (none, v))
    (step : ∀ count group, group < L.groups →
      Full group ∧ loop (count + 1) group = loop count (group + 1) ∨ Takes (loop (count + 1) group))
    (count : Nat) : ∀ group, group + count = L.groups →
      (loop count group = (none, v) ∧ ∀ g, group ≤ g → g < L.groups → Full g) ∨ Takes (loop count group) := by
  induction count with
  | zero =>
    intro group total
    exact .inl ⟨done group, fun g lower upper => absurd upper (by omega)⟩
  | succ count ih =>
    intro group total
    rcases step count group (by omega) with ⟨full, next⟩ | takes
    · rw [next]
      refine (ih (group + 1) (by omega)).imp ?_ id
      rintro ⟨failed, rest⟩
      refine ⟨failed, fun g lower upper => ?_⟩
      by_cases same : g = group
      · rw [same]; exact full
      · exact rest g (by omega) upper
    · exact .inr takes

/-- The group loop of `alloc_block` passes over groups without a free block, and takes the first
clear bit of the first other group. -/
theorem allocBlockLoop_cases (count : Nat) : ∀ group, group + count = L.groups →
    (allocBlockLoop v count group = (none, v) ∧ L.BlocksExhausted v group) ∨
      L.TakesBlock v (allocBlockLoop v count group) := by
  refine search_groups (allocBlockLoop v) (fun _ => rfl) (fun count group inside => ?_) count
  by_cases none_free : (L.desc v group).bgFreeBlocksCount = 0
  · refine .inl ⟨.inl none_free, ?_⟩
    simp only [allocBlockLoop, has.readGroupDesc_eq inside, if_pos none_free]
  · have started : ¬ groupStartBlock v group ≥ v.blockCount := by
      have := L.groupStart_lt inside
      rw [has.groupStartBlock_eq inside, has.blockCount]
      omega
    cases search : bitmapFindFree (L.bytes v (.blockBitmap group)) (L.groupBlocks group) 0 with
    | none =>
      refine .inl ⟨.inr fun k bound => bitmapFindFree_none search k (Nat.zero_le k) bound, ?_⟩
      simp only [allocBlockLoop, has.readGroupDesc_eq inside, if_neg none_free,
        has.readBlockBitmap_eq inside, if_neg started, has.blockBitLimit_eq inside, search]
    | some freeBit =>
      obtain ⟨_, bound, clear⟩ := bitmapFindFree_some search
      obtain ⟨valid, ofGroup, ofIndex⟩ := L.blockNumber_spec inside bound
      have number : u32 (groupStartBlock v group + freeBit) = L.blockNumber group freeBit := by
        have := valid.2
        have := L.blockCount_le
        rw [has.groupStartBlock_eq inside]
        exact u32_of_lt (by unfold Geometry.blockNumber at *; omega)
      rcases updated : updateGroupAndSuperCounts (L.markBlock v (L.blockNumber group freeBit) true)
        (L.blockGroup (L.blockNumber group freeBit)) (-1) 0 0 with ⟨ok, counted⟩
      refine .inr ⟨L.blockNumber group freeBit, ok, counted, valid, ?_, ?_, updated, ?_⟩
      · rw [Layout.blockBit, ofGroup, ofIndex, clear]
      · rw [ofGroup]; exact none_free
      · simp only [Layout.markBlock, Layout.mark, ofGroup, ofIndex] at updated
        simp only [allocBlockLoop, has.readGroupDesc_eq inside, if_neg none_free,
          has.readBlockBitmap_eq inside, if_neg started, has.blockBitLimit_eq inside, search,
          has.writeBlockBitmap_eq inside, number, updated]
        cases ok <;> rfl

/-- What `alloc_block` can do. -/
theorem allocBlock_cases :
    (allocBlock v = (none, v) ∧ L.BlocksExhausted v 0) ∨ L.TakesBlock v (allocBlock v) := by
  rw [allocBlock, has.blockGroupCount]
  exact has.allocBlockLoop_cases L.groups 0 (by omega)

/-- The group loop of `alloc_inode`. -/
theorem allocInodeLoop_cases (count : Nat) : ∀ group, group + count = L.groups →
    (allocInodeLoop v count group = (none, v) ∧ L.InodesExhausted v group) ∨
      L.TakesInode v (allocInodeLoop v count group) := by
  refine search_groups (allocInodeLoop v) (fun _ => rfl) (fun count group inside => ?_) count
  by_cases none_free : (L.desc v group).bgFreeInodesCount = 0
  · refine .inl ⟨.inl none_free, ?_⟩
    simp only [allocInodeLoop, has.readGroupDesc_eq inside, if_pos none_free]
  · cases search : bitmapFindFree (L.bytes v (.inodeBitmap group)) L.inodesPerGroup
        (inodeStartBit v group) with
    | none =>
      refine .inl ⟨.inr fun k lower bound => bitmapFindFree_none search k lower bound, ?_⟩
      simp only [allocInodeLoop, has.readGroupDesc_eq inside, if_neg none_free,
        has.readInodeBitmap_eq inside, has.inodeBitLimit_eq inside, search]
    | some freeBit =>
      obtain ⟨_, bound, clear⟩ := bitmapFindFree_some search
      obtain ⟨valid, ofGroup, ofIndex⟩ := L.inodeNumber_spec inside bound
      have number : u32 (u32 (group * v.inodesPerGroup) + freeBit + 1) =
          L.inodeNumber group freeBit := by
        have := valid.2
        have := L.inodeCount_lt
        have count : L.inodeCount = L.groups * L.inodesPerGroup := rfl
        unfold Geometry.inodeNumber at *
        rw [has.inodesPerGroup, u32_of_lt (n := group * L.inodesPerGroup) (by omega),
          u32_of_lt (by omega)]
      rcases updated : updateGroupAndSuperCounts (L.markInode v (L.inodeNumber group freeBit) true)
        (L.inodeGroup (L.inodeNumber group freeBit)) 0 (-1) 0 with ⟨ok, counted⟩
      refine .inr ⟨L.inodeNumber group freeBit, ok, counted, valid, ?_, ?_, updated, ?_⟩
      · rw [Layout.inodeBit, ofGroup, ofIndex, clear]
      · rw [ofGroup]; exact none_free
      · simp only [Layout.markInode, Layout.mark, ofGroup, ofIndex] at updated
        simp only [allocInodeLoop, has.readGroupDesc_eq inside, if_neg none_free,
          has.readInodeBitmap_eq inside, has.inodeBitLimit_eq inside, search,
          has.writeInodeBitmap_eq inside, number, updated]
        cases ok <;> rfl

/-- What `alloc_inode` can do. -/
theorem allocInode_cases :
    (allocInode v = (none, v) ∧ L.InodesExhausted v 0) ∨ L.TakesInode v (allocInode v) := by
  rw [allocInode, has.blockGroupCount]
  exact has.allocInodeLoop_cases L.groups 0 (by omega)

/-! ## Release -/

/-- `free_block` clears the bit of the block and updates the counts of its group. -/
theorem freeBlock_eq (inside : L.InVolume b) :
    freeBlock v b = updateGroupAndSuperCounts (L.markBlock v b false) (L.blockGroup b) 1 0 0 := by
  have group := L.blockGroup_lt inside
  obtain ⟨lower, groupEq, indexEq⟩ : ¬ b < v.firstDataBlock ∧ (b - v.firstDataBlock) / v.blocksPerGroup = L.blockGroup b ∧
      (b - v.firstDataBlock) % v.blocksPerGroup = L.blockIndex b := by
    rw [has.firstDataBlock, has.blocksPerGroup]
    exact ⟨Nat.not_lt.mpr inside.1, rfl, rfl⟩
  simp only [freeBlock, if_neg lower, groupEq, indexEq, if_neg (has.group_known group), has.readGroupDesc_eq group,
    has.readBlockBitmap_eq group, has.writeBlockBitmap_eq group]
  rfl

theorem inode_slot (inside : L.IsInode i) : ¬ i = 0 ∧
    (i - 1) / v.inodesPerGroup = L.inodeGroup i ∧ (i - 1) % v.inodesPerGroup = L.inodeIndex i := by
  rw [has.inodesPerGroup]
  exact ⟨Nat.ne_of_gt inside.1, rfl, rfl⟩

/-- `free_inode` clears the bit of the inode and updates the counts of its group. -/
theorem freeInode_eq (inside : L.IsInode i) :
    freeInode v i = updateGroupAndSuperCounts (L.markInode v i false) (L.inodeGroup i) 0 1 0 := by
  have group := L.inodeGroup_lt inside
  obtain ⟨positive, groupEq, indexEq⟩ := has.inode_slot inside
  simp only [freeInode, if_neg positive, groupEq, indexEq, if_neg (has.group_known group), has.readGroupDesc_eq group,
    has.readInodeBitmap_eq group, has.writeInodeBitmap_eq group]
  rfl

end Volume.HasLayout

end GinnOS.Ext2
