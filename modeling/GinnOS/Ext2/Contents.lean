import GinnOS.Ext2.Owns
import GinnOS.Ext2.File

/-! # Reading, writing and truncating files

The three operations on file contents, stated on `View.content`:

* `Shows.ext2ReadFile` — the bytes read are the content of the range, cut at the
  size of the file;
* `Shows.ext2WriteFile` — a successful write overlays the content with the source
  and raises the size to the end of the range; a failed one may have overlaid a
  part of it; no other file or directory changes in either case;
* `Shows.ext2TruncateFile` — the size becomes zero and the content stays.
-/

namespace GinnOS.Ext2

open Lib Lib.Buf

variable {V W : View} {x y : Inode} {j offset length i k : Nat} {L : Layout} {S : Set Nat}

/-! ## Positions -/

namespace View

theorem content_chunk {position : Nat} (positive : 0 < V.blockSize)
    (inside : position % V.blockSize + j < V.blockSize) :
    V.content x (position + j) = V.leaf x (position / V.blockSize) (position % V.blockSize + j) := by
  have whole := Nat.div_add_mod position V.blockSize
  have split : position + j = position % V.blockSize + j + V.blockSize * (position / V.blockSize) := by
    omega
  unfold content
  rw [split, Nat.add_mul_div_left _ _ positive, Nat.div_eq_of_lt inside, Nat.zero_add,
    Nat.add_mul_mod_self_left, Nat.mod_eq_of_lt inside]

end View

theorem Layout.position_reachable (L : Layout) (position : Nat) (bound : position < 4294967296) :
    position / L.blockSize <
      ndirBlocks + L.blockSize / 4 + (L.blockSize / 4) ^ 2 + (L.blockSize / 4) ^ 3 := by
  rcases L.blockSize_cases with size | size | size <;> rw [size] <;> simp only [ndirBlocks, Nat.reduceDiv, Nat.reducePow, Nat.reduceAdd] <;> omega

namespace Volume.Shows

variable {v : Volume} {L : Layout} {V : View} (shows : v.Shows L V)

include shows

theorem blockSize_pos : 0 < V.blockSize := by
  rw [shows.blockSize_eq]
  exact L.blockSize_pos

/-! ## Reading -/

/-- The copy loop: from `copied` on, the buffer is filled with the content. -/
theorem readFileLoop_eq (data : ∀ b, b ∈ V.blocks x → L.IsData b)
    (fits : offset + length ≤ 4294967296) (fuel : Nat) : ∀ (copied : Nat) (out : Buf),
      copied ≤ length → length - copied ≤ fuel →
      readFileLoop v x offset length fuel copied out =
        (.ok, splice out copied (length - copied) (shift (V.content x) (offset + copied))) := by
  induction fuel with
  | zero =>
    intro copied out bound enough
    have done : length - copied = 0 := by omega
    simp [readFileLoop, done]
  | succ fuel ih =>
    intro copied out bound enough
    by_cases more : copied < length
    · have positive := shows.blockSize_pos
      have sizes : v.blockSize = V.blockSize := by rw [shows.has.blockSize, shows.blockSize_eq]
      have place : u32 (offset + copied) = offset + copied := u32_of_lt (by omega)
      have below : (offset + copied) % V.blockSize < V.blockSize := Nat.mod_lt _ positive
      have range := L.position_reachable (offset + copied) (by omega)
      rw [← shows.blockSize_eq] at range
      have found := shows.resolveDataBlock data range
      generalize chunk : min (length - copied) (V.blockSize - (offset + copied) % V.blockSize) = take
      -- What one round copies is the content, whether or not the block is a hole.
      have filled (buffer : Buf)
          (same : ∀ j, j < take → buffer j = V.content x (offset + copied + j)) :
          readFileLoop v x offset length fuel (copied + take) (splice out copied take buffer) =
            (.ok, splice out copied (length - copied) (shift (V.content x) (offset + copied))) := by
        have copy : splice out copied take buffer =
            splice out copied take (shift (V.content x) (offset + copied)) := by
          funext k
          by_cases within : copied ≤ k ∧ k < copied + take
          · rw [splice_inside within.1 within.2, splice_inside within.1 within.2, same _ (by omega)]
            rfl
          · rw [splice_outside (by omega), splice_outside (by omega)]
        have shifted : shift (V.content x) (offset + (copied + take)) =
            shift (shift (V.content x) (offset + copied)) take := by
          funext k
          simp only [shift]
          congr 1
          omega
        rw [copy, ih _ _ (by omega) (by omega), shifted, splice_splice_shift]
        congr 2
        omega
      simp only [readFileLoop, if_pos more, place, sizes, found, chunk]
      split
      · next hole =>
        apply filled
        intro j inside
        rw [View.content_chunk positive (by omega), View.leaf, if_pos hole]
      · next present =>
        have read := shows.readBlock (data _ (View.resolve_mem present))
        simp only [read]
        apply filled
        intro j inside
        rw [View.content_chunk positive (by omega), View.leaf, if_neg present]
        rfl
    · have done : length - copied = 0 := by omega
      simp [readFileLoop, more, done]

/-- `ext2_read_file` on a regular file. -/
theorem ext2ReadFile (inside : L.IsInode i) (regular : inodeIsRegular (V.inode i) = true)
    (data : ∀ b, b ∈ V.blocks (V.inode i) → L.IsData b)
    (offsetBound : offset < 4294967296) (lengthBound : length < 4294967296) (out : Buf) :
    ext2ReadFile v i offset length out =
      if length = 0 then (.ok, out)
      else if (V.inode i).iSize.toNat ≤ offset then (.range, out)
      else if 4294967296 ≤ offset + length then (.inval, out)
      else (.ok, splice out 0 (min length ((V.inode i).iSize.toNat - offset))
        (shift (V.content (V.inode i)) offset)) := by
  simp only [Ext2.ext2ReadFile, shows.readInode inside, regular, Bool.not_true, Bool.false_eq_true,
    if_false]
  split
  · rfl
  split
  · rfl
  by_cases wraps : 4294967296 ≤ offset + length
  · rw [if_pos wraps, if_pos]
    simp only [u32]
    omega
  · have sum : u32 (offset + length) = offset + length := u32_of_lt (by omega)
    rw [if_neg wraps, if_neg (by omega), sum]
    have clipped : (if offset + length > (V.inode i).iSize.toNat then (V.inode i).iSize.toNat - offset
        else length) = min length ((V.inode i).iSize.toNat - offset) := by
      split <;> omega
    rw [clipped, shows.readFileLoop_eq data (by omega) _ 0 out (by omega) (by omega)]
    simp

end Volume.Shows

/-! ## Writing

The block loop works on a copy `y` of the inode, which reaches the disk only at
the end.  `Writing` is its invariant: the view that the disk would show with `y`
in place of the inode owns its blocks, and the first `written` bytes of the source
are in place. -/

/-- The content of a file after `n` bytes of `src` at `offset`. -/
def overlay (old : Nat → UInt8) (offset n : Nat) (src : Buf) (position : Nat) : UInt8 :=
  if offset ≤ position ∧ position < offset + n then src (position - offset) else old position

theorem overlay_zero (old : Nat → UInt8) (offset : Nat) (src : Buf) : overlay old offset 0 src = old := by
  funext position
  exact if_neg (by omega)

structure Writing (L : Layout) (V : View) (S : Set Nat) (i offset : Nat) (src : Buf) (written : Nat)
    (W : View) (y : Inode) : Prop where
  owns : L.Owns (W.setInode i y) S
  blockSize : W.blockSize = V.blockSize
  inodes : W.inode = V.inode
  usedInodes : W.usedInodes = V.usedInodes
  usedBlocks : V.usedBlocks ⊆ W.usedBlocks
  others : ∀ j, j ∈ S → j ≠ i → ∀ b, b ∈ V.owned j → W.block b = V.block b
  mode : y.iMode = (V.inode i).iMode
  size : y.iSize = (V.inode i).iSize
  pointers : ∀ k, (V.inode i).ptr k ≠ 0 ∨ ¬ k < ndirBlocks → y.ptr k = (V.inode i).ptr k
  indirect : ∀ b, b ∈ V.indirect (V.inode i) → W.block b = V.block b
  content : ∀ position, W.content y position = overlay (V.content (V.inode i)) offset written src position

namespace Writing

variable {L : Layout} {V W : View} {S : Set Nat} {i offset written : Nat} {src : Buf} {y : Inode}

theorem start (owns : L.Owns V S) : Writing L V S i offset src 0 V (V.inode i) where
  owns := by
    have same : V.setInode i (V.inode i) = V := by simp [View.setInode]
    rw [same]
    exact owns
  blockSize := rfl
  inodes := rfl
  usedInodes := rfl
  usedBlocks := fun _ member => member
  others _ _ _ _ _ := rfl
  mode := rfl
  size := rfl
  pointers _ _ := rfl
  indirect _ _ := rfl
  content position := by rw [overlay_zero]

variable (writing : Writing L V S i offset src written W y)

include writing

theorem hasBlocks (regular : inodeIsRegular (V.inode i) = true) : y.hasBlocks = true := by
  have same : inodeIsRegular y = inodeIsRegular (V.inode i) := by simp [inodeIsRegular, writing.mode]
  simp [Inode.hasBlocks, same, regular]

theorem owned_self (regular : inodeIsRegular (V.inode i) = true) :
    (W.setInode i y).owned i = W.blocks y :=
  View.owned_setInode_self (writing.hasBlocks regular)

theorem owned_other (member : j ∈ S) (other : j ≠ i) :
    (W.setInode i y).owned j = V.owned j := by
  have keeps : V.Keeps (W.setInode i y) (S \ {i}) :=
    { blockSize := writing.blockSize
      inodes := fun j member => by
        rw [View.setInode_other member.2, writing.inodes]
        exact Inode.Similar.refl _
      blocks := fun j member => writing.others j member.1 member.2 }
  exact keeps.owned ⟨member, other⟩

theorem leak (b : Nat) : Writing L V S i offset src written (W.useBlock b) y :=
  { writing with
    owns := by
      refine writing.owns.keep (W := (W.useBlock b).setInode i y) ?_ (Set.subset_insert _ _)
      exact ⟨rfl, fun _ _ => Inode.Similar.refl _, fun _ _ _ _ => rfl⟩
    usedBlocks := fun _ member => Set.mem_insert_of_mem _ (writing.usedBlocks member)
    content := fun position => by
      rw [← writing.content position]
      exact congrFun (View.content_congr (V := W) (W := W.useBlock b) rfl (fun _ => rfl)
        fun _ _ => rfl) position }

section Step

variable (member : i ∈ S) (regular : inodeIsRegular (V.inode i) = true)

include member regular

/-- `assign_data_block` hangs a zeroed block into a hole: the content does not change. -/
theorem assign {b : Nat} {y' : Inode} (bound : k < ndirBlocks) (hole : y.ptr k = 0)
    (inside : L.InVolume b) (unused : b ∉ W.usedBlocks)
    (pointers : ∀ j, y'.ptr j = if j = k then b else y.ptr j) (mode : y'.iMode = y.iMode)
    (size : y'.iSize = y.iSize) :
    Writing L V S i offset src written ((W.useBlock b).setBlock b fun _ => 0) y' := by
  obtain ⟨data, present, nobody⟩ := writing.owns.fresh_block inside unused
  have mine : b ∉ W.blocks y := by
    rw [← writing.owned_self regular]
    exact nobody i member
  have nodup : (W.blocks y).Nodup := by
    rw [← writing.owned_self regular]
    exact writing.owns.nodup i member
  -- The bitmap does not matter for the blocks and the content.
  have same : (W.useBlock b).blocks y = W.blocks y :=
    View.blocks_congr (V := W) (W := W.useBlock b) rfl (fun _ => rfl) fun _ _ => rfl
  have fresh : b ∉ (W.useBlock b).blocks y := by
    rw [same]
    exact mine
  have leaves (j : Nat) : ((W.useBlock b).setBlock b fun _ => 0).leaf y' j =
      if j = k then fun _ => 0 else (W.useBlock b).leaf y j :=
    View.newLeaf_leaf bound present fresh pointers j
  have has : y'.hasBlocks = true := by
    rw [← writing.hasBlocks regular]
    simp [Inode.hasBlocks, inodeIsRegular, inodeIsDir, mode]
  have others : ∀ j, j ∈ S → j ≠ i → ∀ c, c ∈ V.owned j → c ≠ b := by
    rintro j member' other c known rfl
    exact nobody j member' ((writing.owned_other member' other).symm ▸ known)
  refine
    { owns := ?_
      blockSize := writing.blockSize
      inodes := writing.inodes
      usedInodes := writing.usedInodes
      usedBlocks := fun _ old => Set.mem_insert_of_mem _ (writing.usedBlocks old)
      others := ?_
      mode := mode.trans writing.mode
      size := size.trans writing.size
      pointers := ?_
      indirect := ?_
      content := ?_ }
  · rw [← Set.insert_eq_of_mem member]
    refine writing.owns.change ?_ (Set.subset_insert _ _) (writing.owns.inodes i member) ?_ ?_
    · refine ⟨rfl, fun j known => ?_, fun j known c inside => ?_⟩
      · rw [View.setInode_other known.2, View.setInode_other known.2]
        exact Inode.Similar.refl _
      · rw [writing.owned_other known.1 known.2] at inside
        exact View.setBlock_other (others j known.1 known.2 c inside)
    · intro c inside
      rw [View.owned_setInode_self has,
        View.newLeaf_mem_blocks bound hole present fresh pointers, same] at inside
      rcases inside with rfl | old
      · exact .inr ⟨data, Set.mem_insert _ _, nobody⟩
      · rw [writing.owned_self regular]
        exact .inl ⟨member, old⟩
    · rw [View.owned_setInode_self has]
      exact View.newLeaf_nodup (by rw [same]; exact nodup) bound present fresh pointers
  · intro j member' other c known
    rw [View.setBlock_other (others j member' other c known)]
    exact writing.others j member' other c known
  · intro j known
    have kept := writing.pointers j known
    have other : j ≠ k := by
      rintro rfl
      rcases known with nonzero | high
      · exact nonzero (kept.symm.trans hole)
      · exact high bound
    rw [pointers, if_neg other, kept]
  · intro c known
    have old : c ∈ W.blocks y := by
      apply View.mem_blocks.mpr
      right
      rw [View.indirect_congr writing.blockSize writing.indirect]
      · exact known
      all_goals exact writing.pointers _ (.inr (by decide))
    have other : c ≠ b := by
      rintro rfl
      exact mine old
    rw [View.setBlock_other other]
    exact writing.indirect c known
  · intro position
    rw [View.content_of_leaf (View.setBlock_blockSize _ _ _) leaves, ← writing.content position]
    split
    · next here =>
      -- The hole read as zeros before.
      unfold View.content View.leaf
      have absent : W.resolve y (position / W.blockSize) = 0 := by
        rw [show position / W.blockSize = k from here, View.resolve_direct bound, hole]
      rw [if_pos absent]
    · exact congrFun (View.content_congr (V := W) (W := W.useBlock b) rfl (fun _ => rfl)
        fun _ _ => rfl) position

/-- One round of the loop writes a chunk of block `k`. -/
theorem chunk {r n : Nat} (positive : 0 < V.blockSize) (bound : k < ndirBlocks)
    (present : y.ptr k ≠ 0) (place : offset + written = V.blockSize * k + r) (inside : r + n ≤ V.blockSize) :
    Writing L V S i offset src (written + n) (W.setBlock (y.ptr k) (clip V.blockSize
      (splice (W.block (y.ptr k)) r n (shift src written)))) y := by
  have nodup : (W.blocks y).Nodup := by
    rw [← writing.owned_self regular]
    exact writing.owns.nodup i member
  have mine : y.ptr k ∈ (W.setInode i y).owned i := by
    rw [writing.owned_self regular]
    exact View.direct_mem_blocks bound present
  have others : ∀ j, j ∈ S → j ≠ i → ∀ c, c ∈ V.owned j → c ≠ y.ptr k := by
    rintro j member' other c known rfl
    exact writing.owns.apart i member j member' (Ne.symm other) _ mine
      ((writing.owned_other member' other).symm ▸ known)
  generalize stored : clip V.blockSize (splice (W.block (y.ptr k)) r n (shift src written)) = bytes
  have leaves (j : Nat) : (W.setBlock (y.ptr k) bytes).leaf y j =
      if j = k then bytes else W.leaf y j :=
    View.setLeaf_leaf nodup bound present j
  refine
    { owns := ?_
      blockSize := writing.blockSize
      inodes := writing.inodes
      usedInodes := writing.usedInodes
      usedBlocks := writing.usedBlocks
      others := ?_
      mode := writing.mode
      size := writing.size
      pointers := writing.pointers
      indirect := ?_
      content := ?_ }
  · rw [← Set.insert_eq_of_mem member]
    have has := writing.hasBlocks regular
    refine writing.owns.change ?_ (fun _ old => old) (writing.owns.inodes i member) ?_ ?_
    · refine ⟨rfl, fun j known => ?_, fun j known c inside => ?_⟩
      · rw [View.setInode_other known.2, View.setInode_other known.2]
        exact Inode.Similar.refl _
      · rw [writing.owned_other known.1 known.2] at inside
        exact View.setBlock_other (others j known.1 known.2 c inside)
    · intro c inside
      rw [View.owned_setInode_self has, View.setLeaf_blocks nodup bound present] at inside
      rw [writing.owned_self regular]
      exact .inl ⟨member, inside⟩
    · rw [View.owned_setInode_self has, View.setLeaf_blocks nodup bound present]
      exact nodup
  · intro j member' other c known
    rw [View.setBlock_other (others j member' other c known)]
    exact writing.others j member' other c known
  · intro c known
    have old : c ∈ W.indirect y := by
      rw [View.indirect_congr writing.blockSize writing.indirect]
      · exact known
      all_goals exact writing.pointers _ (.inr (by decide))
    rw [View.setLeaf_same nodup bound present c old]
    exact writing.indirect c known
  · intro position
    rw [View.content_of_leaf (View.setBlock_blockSize _ _ _) leaves, writing.content position,
      writing.blockSize]
    have whole := Nat.div_add_mod position V.blockSize
    have below := Nat.mod_lt position positive
    split
    · next here =>
      rw [here] at whole
      -- Inside the block: the chunk comes from the source, the rest was there before.
      have before : W.block (y.ptr k) (position % V.blockSize) =
          overlay (V.content (V.inode i)) offset written src position := by
        rw [← writing.content position]
        unfold View.content View.leaf
        rw [writing.blockSize, here, View.resolve_direct bound, if_neg present]
      rw [← stored, clip_of_lt _ below]
      by_cases copied : r ≤ position % V.blockSize ∧ position % V.blockSize < r + n
      · rw [splice_inside copied.1 copied.2]
        unfold overlay
        rw [if_pos (by omega)]
        simp only [shift]
        congr 1
        omega
      · rw [splice_outside (by omega), before]
        unfold overlay
        by_cases early : offset ≤ position ∧ position < offset + written
        · rw [if_pos early, if_pos (by omega)]
        · rw [if_neg early, if_neg (by omega)]
    · next elsewhere =>
      unfold overlay
      by_cases early : offset ≤ position ∧ position < offset + written
      · rw [if_pos early, if_pos (by omega)]
      · rw [if_neg early, if_neg]
        intro late
        -- A position of the chunk lies in block `k`.
        apply elsewhere
        apply Nat.div_eq_of_lt_le
        · rw [Nat.mul_comm]
          omega
        · rw [Nat.mul_comm, Nat.mul_add, Nat.mul_one]
          omega

end Step

theorem blocks_disk : W.blocks (V.inode i) = V.blocks (V.inode i) := by
  unfold View.blocks
  rw [View.indirect_congr writing.blockSize writing.indirect rfl rfl rfl]
  rfl

theorem keeps : V.Keeps W (S \ {i}) where
  blockSize := writing.blockSize
  inodes j _ := by
    rw [writing.inodes]
    exact Inode.Similar.refl _
  blocks j member := writing.others j member.1 member.2

theorem owns_disk (owns : L.Owns V S) (member : i ∈ S) : L.Owns W S := by
  have same : W.owned i = V.owned i := by
    unfold View.owned
    rw [writing.inodes, writing.blocks_disk]
  rw [← Set.insert_eq_of_mem member]
  refine owns.change writing.keeps writing.usedBlocks (owns.inodes i member) ?_ ?_
  · intro b known
    exact .inl ⟨member, same ▸ known⟩
  · rw [same]
    exact owns.nodup i member

/-- What the file on the disk shows then: each byte is old, or from the source. -/
theorem content_disk (position : Nat) :
    W.content (V.inode i) position = V.content (V.inode i) position ∨
      (offset ≤ position ∧ position < offset + written ∧
        W.content (V.inode i) position = src (position - offset)) := by
  have copy : W.content y position = V.content (V.inode i) position ∨
      (offset ≤ position ∧ position < offset + written ∧ W.content y position = src (position - offset)) := by
    rw [writing.content position, overlay]
    by_cases inside : offset ≤ position ∧ position < offset + written
    · rw [if_pos inside]
      exact .inr ⟨inside.1, inside.2, rfl⟩
    · rw [if_neg inside]
      exact .inl rfl
  have resolved (known : (V.inode i).ptr (position / V.blockSize) ≠ 0 ∨
      ¬ position / V.blockSize < ndirBlocks) : W.content (V.inode i) position = W.content y position := by
    have walk : W.resolve y (position / V.blockSize) = W.resolve (V.inode i) (position / V.blockSize) := by
      by_cases bound : position / V.blockSize < ndirBlocks
      · rw [View.resolve_direct bound, View.resolve_direct bound, writing.pointers _ known]
      · refine View.resolve_congr_indirect rfl (fun _ _ => rfl) ?_ ?_ ?_ bound
        all_goals exact writing.pointers _ (.inr (by decide))
    unfold View.content View.leaf
    rw [writing.blockSize, walk]
  by_cases bound : position / V.blockSize < ndirBlocks
  · by_cases absent : (V.inode i).ptr (position / V.blockSize) = 0
    · -- A hole of the inode on the disk: a block that the loop hung into it is lost.
      left
      unfold View.content View.leaf
      rw [writing.blockSize, View.resolve_direct bound, View.resolve_direct bound, if_pos absent,
        if_pos absent]
    · rw [resolved (.inl absent)]
      exact copy
  · rw [resolved (.inr bound)]
    exact copy

end Writing

/-! ## The write loop -/

section Loop

variable {L : Layout} {V : View} {S : Set Nat} {i offset : Nat} {src : Buf} (member : i ∈ S)
  (regular : inodeIsRegular (V.inode i) = true)

include member regular

/-- `assign_data_block` refuses (a high index, no space), or leaves a block in place at `k`. -/
theorem Writing.assignDataBlock {written : Nat} {w : Volume}
    (shows : w.Shows L W) (writing : Writing L V S i offset src written W y) :
    (∃ w' W', assignDataBlock w y k = (none, y, w') ∧ w'.Shows L W' ∧
      Writing L V S i offset src written W' y) ∨
    ∃ y' w' W', assignDataBlock w y k = (some (y'.ptr k), y', w') ∧ w'.Shows L W' ∧ k < ndirBlocks ∧
      y'.ptr k ≠ 0 ∧ Writing L V S i offset src written W' y' := by
  unfold Ext2.assignDataBlock
  by_cases high : k ≥ ndirBlocks
  · rw [if_pos high]
    exact .inl ⟨w, W, rfl, shows, writing⟩
  have bound : k < ndirBlocks := by omega
  rw [if_neg high]
  by_cases hole : y.ptr k = 0
  · rw [if_neg (by simpa using hole)]
    rcases shows.allocBlock with ⟨b, w1, result, inside, unused, shows1⟩ | ⟨w1, result, leaked⟩
    · -- A block was found: it is zeroed and hung in.
      obtain ⟨data, present, _⟩ := writing.owns.fresh_block inside unused
      obtain ⟨w2, zeroed, shows2⟩ := shows1.writeBlock data fun _ => 0
      have zero : clip L.blockSize (fun _ => 0) = fun _ => 0 := by
        funext j
        simp [clip]
      rw [zero] at shows2
      have small : b < 4294967296 := by
        have := inside.2
        have := L.blockCount_le
        omega
      have index : k < 15 := by
        have : ndirBlocks = 12 := rfl
        omega
      simp only [result, zeroed]
      refine .inr ⟨{ y.setPtr k b with
          iBlocks := y.iBlocks + UInt32.ofNat (w.blockSize / sectorSize) }, w2, _, ?_, shows2, bound, ?_, ?_⟩
      · have here : Inode.ptr { y.setPtr k b with
            iBlocks := y.iBlocks + UInt32.ofNat (w.blockSize / sectorSize) } k = b := by
          exact (Inode.ptr_setPtr small index k).trans (if_pos rfl)
        rw [here]
      · exact ((Inode.ptr_setPtr small index k).trans (if_pos rfl)).symm ▸ present
      · exact writing.assign member regular bound hole inside unused
          (fun j => Inode.ptr_setPtr small index j) rfl rfl
    · simp only [result]
      rcases leaked with shows' | ⟨b, _, _, shows'⟩
      · exact .inl ⟨w1, W, rfl, shows', writing⟩
      · exact .inl ⟨w1, W.useBlock b, rfl, shows', writing.leak b⟩
  · rw [if_pos hole]
    exact .inr ⟨y, w, W, rfl, shows, bound, hole, writing⟩

/-- The block loop: it stops early with a status, or all of the source is in place, which only
happens inside the direct blocks. -/
theorem Writing.writeFileLoop (offsetBound : offset < 4294967296) (fuel : Nat) :
    ∀ {written : Nat} {w : Volume} {W : View} {y : Inode}, w.Shows L W →
      Writing L V S i offset src written W y → written ≤ length → length - written ≤ fuel →
      (written = 0 ∨ offset + written ≤ ndirBlocks * V.blockSize) →
      ∃ status y' w' W' n, writeFileLoop offset length src fuel written w y = (status, y', w') ∧
        w'.Shows L W' ∧ Writing L V S i offset src n W' y' ∧ n ≤ length ∧
        (status = .ok → n = length ∧ (length = 0 ∨ offset + length ≤ ndirBlocks * V.blockSize)) := by
  induction fuel with
  | zero =>
    intro written w W y shows writing bound enough low
    have done : written = length := by omega
    refine ⟨.ok, y, w, W, written, rfl, shows, writing, bound, fun _ => ⟨done, ?_⟩⟩
    rw [← done]
    exact low
  | succ fuel ih =>
    intro written w W y shows writing bound enough low
    by_cases more : written < length
    · have positive : 0 < V.blockSize := by
        rw [← writing.blockSize]
        exact shows.blockSize_pos
      have sizes : w.blockSize = V.blockSize := by
        rw [shows.has.blockSize, ← shows.blockSize_eq, writing.blockSize]
      have limit : ndirBlocks * V.blockSize ≤ 49152 := by
        have known := L.blockSize_cases
        rw [← shows.blockSize_eq, writing.blockSize] at known
        rw [show ndirBlocks = 12 from rfl]
        omega
      have place : u32 (offset + written) = offset + written := u32_of_lt (by omega)
      have whole := Nat.div_add_mod (offset + written) V.blockSize
      have below := Nat.mod_lt (offset + written) positive
      generalize chunkEq : min (length - written) (V.blockSize - (offset + written) % V.blockSize) = n
      rcases writing.assignDataBlock (k := (offset + written) / V.blockSize) member regular shows with
        ⟨w1, W1, refused, shows1, writing1⟩ | ⟨y1, w1, W1, assigned, shows1, direct, present, writing1⟩
      · refine ⟨.nospc, y, w1, W1, written, ?_, shows1, writing1, bound, by simp⟩
        simp only [Ext2.writeFileLoop, if_pos more, place, sizes, refused]
      · have data : L.IsData (y1.ptr ((offset + written) / V.blockSize)) := by
          apply writing1.owns.data i member
          rw [writing1.owned_self regular]
          exact View.direct_mem_blocks direct present
        have read := shows1.readBlock data
        obtain ⟨w2, stored, shows2⟩ := shows1.writeBlock data (splice (W1.block
          (y1.ptr ((offset + written) / V.blockSize))) ((offset + written) % V.blockSize) n (shift src written))
        have size1 : L.blockSize = V.blockSize := by rw [← shows.blockSize_eq, writing.blockSize]
        rw [size1] at shows2
        have writing2 := writing1.chunk member regular positive direct present whole.symm
          (n := n) (by omega)
        -- The next round starts inside the direct blocks, because this one was there.
        have next : offset + (written + n) ≤ ndirBlocks * V.blockSize := by
          have step : (offset + written) / V.blockSize + 1 ≤ ndirBlocks := direct
          have := Nat.mul_le_mul_left V.blockSize step
          rw [Nat.mul_add, Nat.mul_one, Nat.mul_comm V.blockSize ndirBlocks] at this
          omega
        obtain ⟨status, y', w', W', m, result, shows', writing', bound', success⟩ :=
          ih shows2 writing2 (by omega) (by omega) (.inr next)
        refine ⟨status, y', w', W', m, ?_, shows', writing', bound', success⟩
        simp only [Ext2.writeFileLoop, if_pos more, place, sizes, assigned, chunkEq, read, stored, result]
    · have done : written = length := by omega
      refine ⟨.ok, y, w, W, written, ?_, shows, writing, bound, fun _ => ⟨done, ?_⟩⟩
      · simp [Ext2.writeFileLoop, more]
      · rw [← done]
        exact low

end Loop

/-! ## The operations -/

/-- What a change of the contents of file `i` leaves alone. -/
structure FileOnly (L : Layout) (S : Set Nat) (i : Nat) (V W : View) : Prop where
  owns : L.Owns W S
  keeps : V.Keeps W (S \ {i})
  inodes : ∀ j, j ≠ i → W.inode j = V.inode j
  usedInodes : W.usedInodes = V.usedInodes
  usedBlocks : V.usedBlocks ⊆ W.usedBlocks
  mode : (W.inode i).iMode = (V.inode i).iMode

theorem FileOnly.isRegular
    (only : FileOnly L S i V W) : inodeIsRegular (W.inode i) = inodeIsRegular (V.inode i) := by
  simp [inodeIsRegular, only.mode]

/-- The outcome of a write of at least one byte. -/
structure Wrote (L : Layout) (S : Set Nat) (i offset length : Nat) (src : Buf) (V W : View)
    (status : Kerr) : Prop extends FileOnly L S i V W where
  size_ok : status = .ok → (W.inode i).iSize.toNat = max (V.inode i).iSize.toNat (offset + length)
  content_ok : status = .ok →
    W.content (W.inode i) = overlay (V.content (V.inode i)) offset length src
  direct_ok : status = .ok → offset + length ≤ ndirBlocks * V.blockSize
  inode_failed : status ≠ .ok → W.inode i = V.inode i
  content_failed : status ≠ .ok → ∀ position,
    W.content (V.inode i) position = V.content (V.inode i) position ∨
      (offset ≤ position ∧ position < offset + length ∧
        W.content (V.inode i) position = src (position - offset))

theorem direct_lt : ndirBlocks * L.blockSize < 4294967296 := by
  have known := L.blockSize_cases
  rw [show ndirBlocks = 12 from rfl]
  omega

theorem Writing.finish {src : Buf}
    {z : Inode} (writing : Writing L V S i offset src length W y) (member : i ∈ S)
    (mode : z.iMode = y.iMode) (pointers : View.SamePointers y z) :
    FileOnly L S i V (W.setInode i z) ∧ (W.setInode i z).content ((W.setInode i z).inode i) =
      overlay (V.content (V.inode i)) offset length src := by
  have similar : (W.setInode i y).owned i = (W.setInode i z).owned i := by
    have kind : z.hasBlocks = y.hasBlocks := by
      simp [Inode.hasBlocks, inodeIsRegular, inodeIsDir, mode]
    unfold View.owned
    rw [View.setInode_self, View.setInode_self, kind]
    split
    · exact (View.blocks_congr (V := W.setInode i y) (W := W.setInode i z) rfl pointers
        fun _ _ => rfl).symm
    · rfl
  refine ⟨?_, ?_⟩
  · refine
      { owns := ?_
        keeps := ?_
        inodes := ?_
        usedInodes := writing.usedInodes
        usedBlocks := writing.usedBlocks
        mode := ?_ }
    · rw [← Set.insert_eq_of_mem member]
      refine writing.owns.change (W := W.setInode i z) ?_ (fun _ old => old)
        (writing.owns.inodes i member) ?_ ?_
      · refine ⟨rfl, fun j known => ?_, fun _ _ _ _ => rfl⟩
        rw [View.setInode_other known.2, View.setInode_other known.2]
        exact Inode.Similar.refl _
      · intro b known
        exact .inl ⟨member, similar ▸ known⟩
      · rw [← similar]
        exact writing.owns.nodup i member
    · refine ⟨writing.blockSize, fun j known => ?_, fun j known => writing.others j known.1 known.2⟩
      rw [View.setInode_other known.2, writing.inodes]
      exact Inode.Similar.refl _
    · intro j other
      rw [View.setInode_other other, writing.inodes]
    · rw [View.setInode_self, mode, writing.mode]
  · rw [View.setInode_self]
    funext position
    rw [← writing.content position]
    exact congrFun (View.content_congr (V := W) (W := W.setInode i z) rfl pointers
      fun _ _ => rfl) position

namespace Volume.Shows

variable {v : Volume} {L : Layout} {V : View} {S : Set Nat} {i : Nat} (shows : v.Shows L V)
  (owns : L.Owns V S) (member : i ∈ S) (regular : inodeIsRegular (V.inode i) = true)

include shows owns member regular

theorem ext2WriteFile (offsetBound : offset < 4294967296) (positive : 0 < length)
    (src : Buf) :
    ∃ status v' W, ext2WriteFile v i offset length src = (status, v') ∧ v'.Shows L W ∧
      Wrote L S i offset length src V W status := by
  have inside := owns.inodes i member
  have nonempty : ¬ length = 0 := by omega
  have start : Writing L V S i offset src 0 V (V.inode i) := Writing.start owns
  obtain ⟨status, y, w, W, n, result, shown, writing, bound, success⟩ :=
    Writing.writeFileLoop member regular offsetBound length shows start (Nat.zero_le _)
      (Nat.sub_le length 0) (.inl rfl)
  by_cases done : status = .ok
  · subst done
    obtain ⟨rfl, fits⟩ := success rfl
    have fits := fits.resolve_left nonempty
    have narrow := direct_lt (L := L)
    rw [← shows.blockSize_eq] at narrow
    have sum : u32 (offset + n) = offset + n := u32_of_lt (by omega)
    generalize stored : (if offset + n > y.iSize.toNat then
      { y with iSize := UInt32.ofNat (offset + n) } else y) = z
    have mode : z.iMode = y.iMode := by
      rw [← stored]
      split <;> rfl
    have pointers : View.SamePointers y z := by
      intro k
      rw [← stored]
      split <;> rfl
    have size : z.iSize.toNat = max (V.inode i).iSize.toNat (offset + n) := by
      rw [← writing.size, ← stored]
      split
      · simp only [UInt32.toNat_ofNat']
        rw [Nat.mod_eq_of_lt (by omega)]
        omega
      · omega
    obtain ⟨w', written, shown'⟩ := shown.writeInode inside z
    obtain ⟨only, content⟩ := writing.finish member mode pointers
    refine ⟨.ok, w', W.setInode i z, ?_, shown', ⟨only, ?_, fun _ => content, fun _ => fits, by simp,
      by simp⟩⟩
    · simp only [Ext2.ext2WriteFile, if_neg nonempty, shows.readInode inside, regular, Bool.not_true,
        Bool.false_eq_true, if_false, result, sum, stored, written]
    · intro _
      rw [View.setInode_self, size]
  · refine ⟨status, w, W, ?_, shown, ⟨⟨writing.owns_disk owns member, writing.keeps, ?_,
      writing.usedInodes, writing.usedBlocks, ?_⟩, ?_, ?_, ?_, ?_, ?_⟩⟩
    · simp only [Ext2.ext2WriteFile, if_neg nonempty, shows.readInode inside, regular, Bool.not_true,
        Bool.false_eq_true, if_false, result]
    · intro j _
      rw [writing.inodes]
    · rw [writing.inodes]
    · exact fun ok => absurd ok done
    · exact fun ok => absurd ok done
    · exact fun ok => absurd ok done
    · intro _
      rw [writing.inodes]
    · intro _ position
      refine (writing.content_disk position).imp id ?_
      rintro ⟨lower, upper, byte⟩
      exact ⟨lower, by omega, byte⟩

theorem ext2TruncateFile :
    ∃ v', ext2TruncateFile v i = (.ok, v') ∧
      v'.Shows L (V.setInode i { V.inode i with iSize := 0 }) ∧
      FileOnly L S i V (V.setInode i { V.inode i with iSize := 0 }) ∧
      V.content { V.inode i with iSize := 0 } = V.content (V.inode i) := by
  have inside := owns.inodes i member
  obtain ⟨v', written, shown⟩ := shows.writeInode inside { V.inode i with iSize := 0 }
  have start : Writing L V S i 0 (fun _ => 0) 0 V (V.inode i) := Writing.start owns
  obtain ⟨only, content⟩ := start.finish (z := { V.inode i with iSize := 0 }) member rfl fun _ => rfl
  refine ⟨v', ?_, shown, only, ?_⟩
  · simp only [Ext2.ext2TruncateFile, shows.readInode inside, regular, Bool.not_true, Bool.false_eq_true,
      if_false, written]
  · exact View.content_congr rfl (fun _ => rfl) fun _ _ => rfl

end Volume.Shows

end GinnOS.Ext2
