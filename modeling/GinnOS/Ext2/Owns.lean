import GinnOS.Ext2.Blocks

/-! # Block ownership

`L.Owns V S` is the safety invariant of the block allocator's clients: every
block that an inode of `S` reaches is a data block marked used, and no block is
reached twice.  A block that `alloc_block` returns is then new to all of them
(`Owns.fresh_block`), and a file whose inode and blocks are left alone keeps its
blocks and contents (`View.Keeps`).
-/

namespace GinnOS.Ext2

open Lib Lib.Buf

variable {x y : Inode} {V W : View} {i b : Nat} {S' S : Set Nat}

/-! ## Inodes with blocks -/

/-- The pointers of other inodes (devices, short symbolic links) are not block numbers. -/
def Inode.hasBlocks (x : Inode) : Bool := inodeIsRegular x || inodeIsDir x

/-- The two inodes differ in times, link counts and the like only. -/
structure Inode.Similar (x y : Inode) : Prop where
  mode : y.iMode = x.iMode
  size : y.iSize = x.iSize
  pointers : View.SamePointers x y

namespace Inode.Similar

theorem refl (x : Inode) : Inode.Similar x x := ⟨rfl, rfl, fun _ => rfl⟩

theorem trans {z : Inode} (first : Inode.Similar x y) (second : Inode.Similar y z) :
    Inode.Similar x z :=
  ⟨second.mode.trans first.mode, second.size.trans first.size,
    fun k => (second.pointers k).trans (first.pointers k)⟩

theorem isDir (similar : Inode.Similar x y) : inodeIsDir y = inodeIsDir x := by
  simp [inodeIsDir, similar.mode]

theorem isRegular (similar : Inode.Similar x y) :
    inodeIsRegular y = inodeIsRegular x := by
  simp [inodeIsRegular, similar.mode]

theorem hasBlocks (similar : Inode.Similar x y) : y.hasBlocks = x.hasBlocks := by
  simp [Inode.hasBlocks, similar.isDir, similar.isRegular]

end Inode.Similar

namespace View

/-- The blocks of inode `i`. -/
def owned (V : View) (i : Nat) : List Nat :=
  if (V.inode i).hasBlocks then V.blocks (V.inode i) else []

theorem owned_eq (has : (V.inode i).hasBlocks = true) :
    V.owned i = V.blocks (V.inode i) := if_pos has

theorem owned_setInode_self (has : x.hasBlocks = true) :
    (V.setInode i x).owned i = V.blocks x := by
  have known : ((V.setInode i x).inode i).hasBlocks = true := by
    rw [setInode_self]
    exact has
  rw [owned_eq known, setInode_self]
  exact blocks_congr (V := V) (W := V.setInode i x) rfl (fun _ => rfl) fun _ _ => rfl

theorem zero_not_owned (i : Nat) : 0 ∉ V.owned i := by
  unfold owned
  split
  · exact zero_not_mem_blocks _
  · simp

/-- The inodes of `S`, and the blocks that they own, are as before. -/
structure Keeps (V W : View) (S : Set Nat) : Prop where
  blockSize : W.blockSize = V.blockSize
  inodes : ∀ i, i ∈ S → Inode.Similar (V.inode i) (W.inode i)
  blocks : ∀ i, i ∈ S → ∀ b, b ∈ V.owned i → W.block b = V.block b

namespace Keeps

variable {V W : View} {S : Set Nat}

theorem refl (V : View) (S : Set Nat) : Keeps V V S :=
  ⟨rfl, fun _ _ => Inode.Similar.refl _, fun _ _ _ _ => rfl⟩

theorem mono (keeps : Keeps V W S) (subset : S' ⊆ S) : Keeps V W S' :=
  ⟨keeps.blockSize, fun i member => keeps.inodes i (subset member),
    fun i member => keeps.blocks i (subset member)⟩

variable (keeps : Keeps V W S) {i : Nat} (member : i ∈ S)

include keeps member

theorem owned : W.owned i = V.owned i := by
  have similar := keeps.inodes i member
  unfold View.owned
  rw [similar.hasBlocks]
  split
  · next has =>
    refine blocks_congr keeps.blockSize similar.pointers fun b inside => keeps.blocks i member b ?_
    rw [owned_eq has]
    exact inside
  · rfl

variable (has : (V.inode i).hasBlocks = true)

include has

theorem leaf (k : Nat) : W.leaf (W.inode i) k = V.leaf (V.inode i) k := by
  refine leaf_congr keeps.blockSize (keeps.inodes i member).pointers (fun b inside => ?_) k
  apply keeps.blocks i member b
  rw [owned_eq has]
  exact inside

theorem resolve (k : Nat) : W.resolve (W.inode i) k = V.resolve (V.inode i) k := by
  refine resolve_congr keeps.blockSize (keeps.inodes i member).pointers (fun b inside => ?_) k
  apply keeps.blocks i member b
  rw [owned_eq has]
  exact inside

theorem content : W.content (W.inode i) = V.content (V.inode i) := by
  refine content_congr keeps.blockSize (keeps.inodes i member).pointers fun b inside => ?_
  apply keeps.blocks i member b
  rw [owned_eq has]
  exact inside

end Keeps

/-- Views that differ outside the inodes of `S` and their blocks. -/
theorem Keeps.of_eq (size : W.blockSize = V.blockSize)
    (inodes : ∀ i, i ∈ S → W.inode i = V.inode i)
    (blocks : ∀ i, i ∈ S → ∀ b, b ∈ V.owned i → W.block b = V.block b) : V.Keeps W S where
  blockSize := size
  inodes i known := by
    rw [inodes i known]
    exact .refl _
  blocks := blocks

theorem Keeps.stamp (similar : Inode.Similar (V.inode i) y)
    (S : Set Nat) : V.Keeps (V.setInode i y) S where
  blockSize := rfl
  inodes j _ := by
    by_cases here : j = i
    · rw [here, setInode_self]
      exact similar
    · rw [setInode_other here]
      exact .refl _
  blocks _ _ _ _ := rfl

theorem Keeps.trans {X : View} (first : Keeps V W S) (second : Keeps W X S) :
    Keeps V X S where
  blockSize := second.blockSize.trans first.blockSize
  inodes i member := (first.inodes i member).trans (second.inodes i member)
  blocks i member b inside := by
    rw [second.blocks i member b (by rw [first.owned member]; exact inside),
      first.blocks i member b inside]

end View

/-! ## The invariant -/

structure Layout.Owns (L : Layout) (V : View) (S : Set Nat) : Prop where
  metaUsed : ∀ m, L.Occurs m → L.InVolume (L.metaBlock m) → L.metaBlock m ∈ V.usedBlocks
  bootUsed : L.InVolume 0 → 0 ∈ V.usedBlocks
  inodes : ∀ i, i ∈ S → L.IsInode i
  data : ∀ i, i ∈ S → ∀ b, b ∈ V.owned i → L.IsData b
  used : ∀ i, i ∈ S → ∀ b, b ∈ V.owned i → b ∈ V.usedBlocks
  nodup : ∀ i, i ∈ S → (V.owned i).Nodup
  apart : ∀ i, i ∈ S → ∀ j, j ∈ S → i ≠ j → ∀ b, b ∈ V.owned i → b ∉ V.owned j

namespace Layout.Owns

variable {L : Layout} {V W : View} {S : Set Nat} (owns : L.Owns V S)

include owns

theorem mono (subset : S' ⊆ S) : L.Owns V S' where
  metaUsed := owns.metaUsed
  bootUsed := owns.bootUsed
  inodes i member := owns.inodes i (subset member)
  data i member := owns.data i (subset member)
  used i member := owns.used i (subset member)
  nodup i member := owns.nodup i (subset member)
  apart i member j member' := owns.apart i (subset member) j (subset member')

theorem fresh_block (inside : L.InVolume b) (unused : b ∉ V.usedBlocks) :
    L.IsData b ∧ b ≠ 0 ∧ ∀ i, i ∈ S → b ∉ V.owned i := by
  refine ⟨⟨inside.2, ?_⟩, ?_, ?_⟩
  · rintro m occurs rfl
    exact unused (owns.metaUsed m occurs inside)
  · rintro rfl
    exact unused (owns.bootUsed inside)
  · intro i member known
    exact unused (owns.used i member b known)

theorem keep (keeps : V.Keeps W S) (used : V.usedBlocks ⊆ W.usedBlocks) : L.Owns W S where
  metaUsed m occurs inside := used (owns.metaUsed m occurs inside)
  bootUsed inside := used (owns.bootUsed inside)
  inodes := owns.inodes
  data i member b known := owns.data i member b (keeps.owned member ▸ known)
  used i member b known := used (owns.used i member b (keeps.owned member ▸ known))
  nodup i member := by
    rw [keeps.owned member]
    exact owns.nodup i member
  apart i member j member' other b known := by
    rw [keeps.owned member']
    exact owns.apart i member j member' other b (keeps.owned member ▸ known)

theorem change (keeps : V.Keeps W (S \ {i})) (used : V.usedBlocks ⊆ W.usedBlocks)
    (inside : L.IsInode i)
    (mine : ∀ b, b ∈ W.owned i → (i ∈ S ∧ b ∈ V.owned i) ∨
      (L.IsData b ∧ b ∈ W.usedBlocks ∧ ∀ j, j ∈ S → b ∉ V.owned j))
    (nodup : (W.owned i).Nodup) : L.Owns W (insert i S) := by
  -- A member of the new set is `i` itself, or an old inode that was kept.
  have split {j : Nat} (member : j ∈ insert i S) : j = i ∨ (j ≠ i ∧ j ∈ S ∧ W.owned j = V.owned j) := by
    by_cases same : j = i
    · exact .inl same
    · have old : j ∈ S := member.resolve_left same
      exact .inr ⟨same, old, keeps.owned ⟨old, same⟩⟩
  refine
    { metaUsed := fun m occurs inside => used (owns.metaUsed m occurs inside)
      bootUsed := fun inside => used (owns.bootUsed inside)
      inodes := ?_
      data := ?_
      used := ?_
      nodup := ?_
      apart := ?_ }
  · rintro j (rfl | member)
    · exact inside
    · exact owns.inodes j member
  · intro j member b known
    rcases split member with rfl | ⟨_, old, same⟩
    · rcases mine b known with ⟨old, before⟩ | ⟨data, _⟩
      · exact owns.data j old b before
      · exact data
    · exact owns.data j old b (same ▸ known)
  · intro j member b known
    rcases split member with rfl | ⟨_, old, same⟩
    · rcases mine b known with ⟨old, before⟩ | ⟨_, marked, _⟩
      · exact used (owns.used j old b before)
      · exact marked
    · exact used (owns.used j old b (same ▸ known))
  · intro j member
    rcases split member with rfl | ⟨_, old, same⟩
    · exact nodup
    · rw [same]
      exact owns.nodup j old
  · intro j member k member' other b known
    rcases split member with rfl | ⟨_, old, same⟩
    · rcases split member' with rfl | ⟨_, old', same'⟩
      · exact absurd rfl other
      · rw [same']
        rcases mine b known with ⟨old, before⟩ | ⟨_, _, nobody⟩
        · exact owns.apart j old k old' other b before
        · exact nobody k old'
    · rw [same] at known
      rcases split member' with rfl | ⟨_, old', same'⟩
      · intro known'
        rcases mine b known' with ⟨old', before⟩ | ⟨_, _, nobody⟩
        · exact owns.apart j old k old' other b known before
        · exact nobody j old known
      · rw [same']
        exact owns.apart j old k old' other b known

theorem fileBlock {v : Volume} (shows : v.Shows L V) (member : i ∈ S)
    (known : b ∈ V.owned i) : L.IsFileBlock b :=
  ⟨owns.data i member b known, ((shows.mem_usedBlocks b).mp (owns.used i member b known)).1⟩

end Layout.Owns

end GinnOS.Ext2
