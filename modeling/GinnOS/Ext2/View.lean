import GinnOS.Ext2.Bitmaps

/-! # What a volume stores

A `View` forgets where things lie: it has an inode for every inode number, the
bytes of every data block, and the sets of inodes and blocks that are marked
used.  `v.Shows L V` says that the volume `v` has the layout `L` and stores `V`.
The primitives of the driver are then updates of the view, one law each, and
nothing above this module looks at bytes of metadata again.
-/

namespace GinnOS.Ext2

open Lib Lib.Buf

@[ext] structure View where
  blockSize : Nat
  inode : Nat → Inode
  block : Nat → Buf
  usedInodes : Set Nat
  usedBlocks : Set Nat

namespace View

@[simps blockSize block usedInodes usedBlocks]
def setInode (V : View) (i : Nat) (x : Inode) : View := { V with inode := Function.update V.inode i x }

@[simps blockSize inode usedInodes usedBlocks]
def setBlock (V : View) (b : Nat) (bytes : Buf) : View :=
  { V with block := Function.update V.block b bytes }

@[simps] def useInode (V : View) (i : Nat) : View := { V with usedInodes := insert i V.usedInodes }

@[simps] def freeInode (V : View) (i : Nat) : View := { V with usedInodes := V.usedInodes \ {i} }

@[simps] def useBlock (V : View) (b : Nat) : View := { V with usedBlocks := insert b V.usedBlocks }

@[simps] def freeBlock (V : View) (b : Nat) : View := { V with usedBlocks := V.usedBlocks \ {b} }

@[simp] theorem setInode_self (V : View) (i : Nat) (x : Inode) : (V.setInode i x).inode i = x := by
  simp [setInode]

@[simp] theorem setBlock_self (V : View) (b : Nat) (bytes : Buf) :
    (V.setBlock b bytes).block b = bytes := by
  simp [setBlock]

theorem setInode_other {V : View} {i j : Nat} {x : Inode} (other : j ≠ i) :
    (V.setInode i x).inode j = V.inode j := by
  simp [setInode, other]

theorem setBlock_other {V : View} {b c : Nat} {bytes : Buf} (other : c ≠ b) :
    (V.setBlock b bytes).block c = V.block c := by
  simp [setBlock, other]

end View

/-! ## The view of a volume -/

namespace Layout

variable (L : Layout)

open Classical in
/-- Numbers that name nothing on the volume show as zero. -/
noncomputable def view (v : Volume) : View where
  blockSize := L.blockSize
  inode i := if L.IsInode i then Inode.decode (L.bytes v (.inode i)) else Inode.zero
  block b := if L.IsData b then L.bytes v (.data b) else fun _ => 0
  usedInodes := {i | L.IsInode i ∧ L.inodeBit v i = true}
  usedBlocks := {b | L.InVolume b ∧ L.blockBit v b = true}

end Layout

/-- The volume has the layout, its inode tables are within reach, and it stores the view. -/
structure Volume.Shows (v : Volume) (L : Layout) (V : View) : Prop where
  has : v.HasLayout L
  tables : L.TablesAddressable
  view_eq : L.view v = V

/-- `ext2_read_inode` computes the place of an inode as `inode_location` does. -/
theorem ext2ReadInode_eq {v : Volume} {i offset group : Nat} {desc : GroupDesc}
    (located : inodeLocation v i = some (desc, offset, group)) :
    ext2ReadInode v i = match readAbsBytes v.disk offset v.inodeSize with
      | none => .error .io
      | some buffer => .ok (Inode.decode buffer) := by
  unfold inodeLocation at located
  unfold ext2ReadInode
  split at located
  · cases located
  · next positive =>
    rw [if_neg positive]
    simp only at located ⊢
    split at located
    · cases located
    · next known =>
      rw [if_neg known]
      split at located
      · cases located
      · next read =>
        cases located
        simp only [read] <;> rfl

namespace Volume.Shows

variable {v : Volume} {L : Layout} {V : View} (shows : v.Shows L V)

include shows

theorem blockSize_eq : V.blockSize = L.blockSize := by
  rw [← shows.view_eq]
  rfl

theorem inode_eq {i : Nat} (inside : L.IsInode i) : Inode.decode (L.bytes v (.inode i)) = V.inode i := by
  rw [← shows.view_eq]
  exact (if_pos inside).symm

theorem block_eq {b : Nat} (data : L.IsData b) : L.bytes v (.data b) = V.block b := by
  rw [← shows.view_eq]
  exact (if_pos data).symm

theorem mem_usedInodes (i : Nat) : i ∈ V.usedInodes ↔ L.IsInode i ∧ L.inodeBit v i = true := by
  rw [← shows.view_eq]
  rfl

theorem mem_usedBlocks (b : Nat) : b ∈ V.usedBlocks ↔ L.InVolume b ∧ L.blockBit v b = true := by
  rw [← shows.view_eq]
  rfl

/-- What a write to one region changes in the view. -/
theorem store {r : Region} (valid : L.Valid r) (src : Buf) (has : (L.store v r src).HasLayout L) :
    (L.store v r src).Shows L (match r with
      | .inode i => V.setInode i (Inode.decode (clip L.inodeSize src))
      | .data b => V.setBlock b (clip L.blockSize src)
      | .inodeBitmap _ =>
        { V with usedInodes := {i | L.IsInode i ∧ L.inodeBit (L.store v r src) i = true} }
      | .blockBitmap _ =>
        { V with usedBlocks := {b | L.InVolume b ∧ L.blockBit (L.store v r src) b = true} }
      | .super | .desc _ => V) := by
  obtain ⟨_, tables, rfl⟩ := shows
  have inode {i : Nat} (other : .inode i ≠ r) :
      (L.view (L.store v r src)).inode i = (L.view v).inode i := by
    simp only [Layout.view]
    split
    · next inside => rw [L.bytes_store_other (s := .inode i) valid inside other]
    · rfl
  have block {b : Nat} (other : .data b ≠ r) :
      (L.view (L.store v r src)).block b = (L.view v).block b := by
    simp only [Layout.view]
    split
    · next data => exact L.bytes_store_other (s := .data b) valid data other
    · rfl
  have inodeBits (other : ∀ g, .inodeBitmap g ≠ r) :
      (L.view (L.store v r src)).usedInodes = (L.view v).usedInodes := by
    refine Set.ext fun i => and_congr_right fun inside => ?_
    rw [Layout.inodeBit, L.bytes_store_other valid (L.valid_inodeBitmap inside) (other _)]
    rfl
  have blockBits (other : ∀ g, .blockBitmap g ≠ r) :
      (L.view (L.store v r src)).usedBlocks = (L.view v).usedBlocks := by
    refine Set.ext fun b => and_congr_right fun inside => ?_
    rw [Layout.blockBit, L.bytes_store_other valid (L.valid_blockBitmap inside) (other _)]
    rfl
  refine ⟨has, tables, ?_⟩
  cases r with
  | inode i =>
    refine View.ext rfl (funext fun j => ?_) (funext fun b => block (by simp)) (inodeBits (by simp)) (blockBits (by simp))
    by_cases same : j = i
    · subst same
      rw [View.setInode_self]
      exact (if_pos valid).trans (congrArg Inode.decode (L.bytes_store_self v _ src))
    · rw [View.setInode_other same, inode (by simpa using same)]
  | data b =>
    refine View.ext rfl (funext fun i => inode (by simp)) (funext fun c => ?_) (inodeBits (by simp)) (blockBits (by simp))
    by_cases same : c = b
    · subst same
      rw [View.setBlock_self]
      exact (if_pos valid).trans (L.bytes_store_self v _ src)
    · rw [View.setBlock_other same, block (by simpa using same)]
  | inodeBitmap g =>
    exact View.ext rfl (funext fun i => inode (by simp)) (funext fun b => block (by simp)) rfl (blockBits (by simp))
  | blockBitmap g =>
    exact View.ext rfl (funext fun i => inode (by simp)) (funext fun b => block (by simp)) (inodeBits (by simp)) rfl
  | super | desc _ =>
    exact View.ext rfl (funext fun i => inode (by simp)) (funext fun b => block (by simp)) (inodeBits (by simp))
      (blockBits (by simp))

/-! ### Blocks -/

theorem readBlock {b : Nat} (data : L.IsData b) : readBlock v b = some (V.block b) := by
  rw [shows.has.readBlock_eq data.1, ← shows.block_eq data]
  rfl

theorem writeBlock {b : Nat} (data : L.IsData b) (src : Buf) :
    ∃ v', writeBlock v b src = (true, v') ∧ v'.Shows L (V.setBlock b (clip L.blockSize src)) :=
  ⟨_, shows.has.writeBlock_eq data.1 src,
    shows.store (r := .data b) data src (shows.has.store (r := .data b) data src nofun)⟩

/-! ### Inodes -/

theorem inodeOffset_eq {i : Nat} (inside : L.IsInode i) :
    u32 (u32 ((L.desc v (L.inodeGroup i)).bgInodeTable.toNat * v.blockSize) +
        u32 (L.inodeIndex i * v.inodeSize)) = L.start (.inode i) ∧
      L.start (.inode i) + L.inodeSize ≤ 4294967296 := by
  have group := L.inodeGroup_lt inside
  have limit := shows.tables _ group
  have slot := L.inodeSlot_le i
  have width := L.inodeSize_ge
  rw [shows.has.inodeTable _ group, shows.has.blockSize, shows.has.inodeSize]
  simp only [Layout.start]
  generalize L.inodeTable (L.inodeGroup i) * L.blockSize = base at limit ⊢
  generalize L.inodeIndex i * L.inodeSize = offset at slot ⊢
  rw [u32_of_lt (n := base) (by omega), u32_of_lt (n := offset) (by omega), u32_of_lt (by omega)]
  exact ⟨rfl, by omega⟩

/-- `inode_location` of an inode of the volume. -/
theorem inodeLocation_eq {i : Nat} (inside : L.IsInode i) :
    inodeLocation v i = some (L.desc v (L.inodeGroup i), L.start (.inode i), L.inodeGroup i) := by
  have group := L.inodeGroup_lt inside
  obtain ⟨positive, groupEq, indexEq⟩ := shows.has.inode_slot inside
  simp only [inodeLocation, if_neg positive, groupEq, indexEq, if_neg (shows.has.group_known group),
    shows.has.readGroupDesc_eq group, shows.inodeOffset_eq inside]

theorem readInode {i : Nat} (inside : L.IsInode i) : ext2ReadInode v i = .ok (V.inode i) := by
  obtain ⟨_, fits⟩ := shows.inodeOffset_eq inside
  rw [ext2ReadInode_eq (shows.inodeLocation_eq inside), shows.has.inodeSize,
    readAbsBytes_eq (shows.has.healthy.serves _ _) fits, ← shows.inode_eq inside]
  rfl

theorem writeInode {i : Nat} (inside : L.IsInode i) (x : Inode) :
    ∃ v', writeInode v i x = (true, v') ∧ v'.Shows L (V.setInode i x) := by
  obtain ⟨_, fits⟩ := shows.inodeOffset_eq inside
  have narrow : ¬ v.inodeSize > maxInodeSize := by
    rw [shows.has.inodeSize]
    exact Nat.not_lt.mpr L.inodeSize_le
  have written : Ext2.writeInode v i x = (true, L.store v (.inode i) (ofList x.encode)) := by
    have stored := writeAbsBytes_eq (shows.has.healthy.serves _ _) fits (ofList x.encode)
    rw [← shows.has.inodeSize] at stored
    simp only [Ext2.writeInode, if_neg narrow, shows.inodeLocation_eq inside, stored, Layout.store,
      Layout.size, ← shows.has.inodeSize]
  have stored := shows.store (r := .inode i) inside _
    (shows.has.store (r := .inode i) inside (ofList x.encode) (by simp))
  have decoded : Inode.decode (clip L.inodeSize (ofList x.encode)) = x :=
    (Inode.decode_congr ((agreeOn_clip _ _).mono (Nat.le_refl 0) L.inodeSize_ge)).trans (Inode.decode_encode x)
  rw [decoded] at stored
  exact ⟨_, written, stored⟩

/-! ### Bitmaps -/

theorem markBlock {b : Nat} {value : Bool} (inside : L.InVolume b) {used : Set Nat}
    (marked : used = if value then insert b V.usedBlocks else V.usedBlocks \ {b}) :
    (L.markBlock v b value).Shows L { V with usedBlocks := used } := by
  have bits : {c | L.InVolume c ∧ L.blockBit (L.markBlock v b value) c = true} = used := by
    ext c
    rw [marked, Set.mem_ofPred_eq]
    by_cases same : c = b
    · subst same
      cases value <;> simp [inside, L.blockBit_markBlock inside inside]
    · cases value <;> simp +contextual [same, L.blockBit_markBlock inside, shows.mem_usedBlocks]
  subst bits
  exact shows.store (L.valid_blockBitmap inside) _ (shows.has.markBlock inside value)

theorem markInode {i : Nat} {value : Bool} (inside : L.IsInode i) {used : Set Nat}
    (marked : used = if value then insert i V.usedInodes else V.usedInodes \ {i}) :
    (L.markInode v i value).Shows L { V with usedInodes := used } := by
  have bits : {j | L.IsInode j ∧ L.inodeBit (L.markInode v i value) j = true} = used := by
    ext j
    rw [marked, Set.mem_ofPred_eq]
    by_cases same : j = i
    · subst same
      cases value <;> simp [inside, L.inodeBit_markInode inside inside]
    · cases value <;> simp +contextual [same, L.inodeBit_markInode inside, shows.mem_usedInodes]
  subst bits
  exact shows.store (L.valid_inodeBitmap inside) _ (shows.has.markInode inside value)

theorem updateCounts {g : Nat} (inside : g < L.groups)
    (freeBlocksDelta freeInodesDelta usedDirsDelta : Int) :
    ∃ ok v', updateGroupAndSuperCounts v g freeBlocksDelta freeInodesDelta usedDirsDelta = (ok, v') ∧
      v'.Shows L V := by
  rcases shows.has.updateGroupAndSuperCounts_eq inside freeBlocksDelta freeInodesDelta usedDirsDelta with
    ⟨_, refused⟩ | ⟨_, updated⟩
  · exact ⟨false, v, refused, shows⟩
  · have renamed : { v with superblock := v.superblock.adjust freeBlocksDelta freeInodesDelta }.Shows L V :=
      ⟨shows.has.withSuperblock _, shows.tables, shows.view_eq⟩
    have described := renamed.store (r := .desc g) inside _ (shows.has.storeAdjusted inside
      freeBlocksDelta freeInodesDelta usedDirsDelta _)
    exact ⟨true, _, updated, described.store (r := .super) trivial _ (shows.has.recount inside _ _ _)⟩

/-! ### Allocation and release -/

/-- `alloc_block` returns a block that was not used; when it fails it may still have marked one,
because the counts are updated after the bitmap. -/
theorem allocBlock :
    (∃ b v', allocBlock v = (some b, v') ∧ L.InVolume b ∧ b ∉ V.usedBlocks ∧
      v'.Shows L (V.useBlock b)) ∨
    ∃ v', allocBlock v = (none, v') ∧ (v'.Shows L V ∨
      ∃ b, L.InVolume b ∧ b ∉ V.usedBlocks ∧ v'.Shows L (V.useBlock b)) := by
  rcases shows.has.allocBlock_cases with ⟨failed, _⟩ | ⟨b, ok, counted, inside, clear, _, updated, result⟩
  · exact .inr ⟨v, failed, .inl shows⟩
  · have unused : b ∉ V.usedBlocks := by
      rw [shows.mem_usedBlocks, clear]
      simp
    have marked : (L.markBlock v b true).Shows L (V.useBlock b) := shows.markBlock inside rfl
    obtain ⟨ok', v', updated', shown⟩ := marked.updateCounts (L.blockGroup_lt inside) (-1) 0 0
    obtain ⟨rfl, rfl⟩ := Prod.mk.inj (updated.symm.trans updated')
    cases ok with
    | true => exact .inl ⟨b, counted, result, inside, unused, shown⟩
    | false => exact .inr ⟨counted, result, .inr ⟨b, inside, unused, shown⟩⟩

/-- `alloc_inode` likewise. -/
theorem allocInode :
    (∃ i v', allocInode v = (some i, v') ∧ L.IsInode i ∧ i ∉ V.usedInodes ∧
      v'.Shows L (V.useInode i)) ∨
    ∃ v', allocInode v = (none, v') ∧ (v'.Shows L V ∨
      ∃ i, L.IsInode i ∧ i ∉ V.usedInodes ∧ v'.Shows L (V.useInode i)) := by
  rcases shows.has.allocInode_cases with ⟨failed, _⟩ | ⟨i, ok, counted, inside, clear, _, updated, result⟩
  · exact .inr ⟨v, failed, .inl shows⟩
  · have unused : i ∉ V.usedInodes := by
      rw [shows.mem_usedInodes, clear]
      simp
    have marked : (L.markInode v i true).Shows L (V.useInode i) := shows.markInode inside rfl
    obtain ⟨ok', v', updated', shown⟩ := marked.updateCounts (L.inodeGroup_lt inside) 0 (-1) 0
    obtain ⟨rfl, rfl⟩ := Prod.mk.inj (updated.symm.trans updated')
    cases ok with
    | true => exact .inl ⟨i, counted, result, inside, unused, shown⟩
    | false => exact .inr ⟨counted, result, .inr ⟨i, inside, unused, shown⟩⟩

/-- `free_block` clears the bit whether or not it can update the counts. -/
theorem freeBlock {b : Nat} (inside : L.InVolume b) :
    ∃ ok v', freeBlock v b = (ok, v') ∧ v'.Shows L (V.freeBlock b) := by
  have marked : (L.markBlock v b false).Shows L (V.freeBlock b) := shows.markBlock inside rfl
  rw [shows.has.freeBlock_eq inside]
  exact marked.updateCounts (L.blockGroup_lt inside) 1 0 0

theorem freeInode {i : Nat} (inside : L.IsInode i) :
    ∃ ok v', freeInode v i = (ok, v') ∧ v'.Shows L (V.freeInode i) := by
  have marked : (L.markInode v i false).Shows L (V.freeInode i) := shows.markInode inside rfl
  rw [shows.has.freeInode_eq inside]
  exact marked.updateCounts (L.inodeGroup_lt inside) 0 1 0

end Volume.Shows

end GinnOS.Ext2
