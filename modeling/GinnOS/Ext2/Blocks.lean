import GinnOS.Ext2.View

/-! # The blocks of a file

An inode reaches its blocks through twelve direct pointers and three trees of
indirect blocks, of depth one, two and three.

* `View.tree` lists the blocks of such a tree in the order in which
  `free_inode_block_chain` frees them, `View.blocks` those of a whole inode.
* `View.resolve` is the walk of `resolve_data_block`, and `View.content` the
  byte stream it gives, with zeros in the holes.
* `blocks_congr`, `resolve_congr` and `content_congr` say that all of this
  depends on the inode's own blocks only: whatever else the driver writes, a file
  whose blocks are left alone keeps its contents.
-/

namespace GinnOS.Ext2

open Lib Lib.Buf List View

variable {depth b index k j : Nat} {x : Inode}

namespace View

variable (V : View)

def fanout : Nat := V.blockSize / 4

/-- Entry `index` of an indirect block; an absent block has absent entries. -/
def entry (b index : Nat) : Nat := if b = 0 then 0 else (le32 (V.block b) (4 * index)).toNat

def entries (b : Nat) : List Nat :=
  (List.range V.fanout).map fun j => (le32 (V.block b) (4 * j)).toNat

/-- All blocks that hang off a pointer, with the subtrees before their root. -/
def tree : (depth : Nat) → Nat → List Nat
  | 0, b => if b = 0 then [] else [b]
  | depth + 1, b => if b = 0 then [] else (V.entries b).flatMap (tree depth) ++ [b]

def direct (x : Inode) : List Nat := (List.range ndirBlocks).flatMap fun k => V.tree 0 (x.ptr k)

def indirect (x : Inode) : List Nat :=
  V.tree 1 (x.ptr 12) ++ (V.tree 2 (x.ptr 13) ++ V.tree 3 (x.ptr 14))

def blocks (x : Inode) : List Nat := V.direct x ++ V.indirect x

/-- Walk down a tree: the leading digit of `index` in base `fanout` selects the entry. -/
def descend : (depth : Nat) → (b index : Nat) → Nat
  | 0, b, _ => b
  | depth + 1, b, index =>
    descend depth (V.entry b (index / V.fanout ^ depth)) (index % V.fanout ^ depth)

/-- The physical block of a logical index, 0 for a hole. -/
def resolve (x : Inode) (k : Nat) : Nat :=
  if k < ndirBlocks then x.ptr k
  else if k - ndirBlocks < V.fanout then V.descend 1 (x.ptr 12) (k - ndirBlocks)
  else if k - ndirBlocks - V.fanout < V.fanout ^ 2 then
    V.descend 2 (x.ptr 13) (k - ndirBlocks - V.fanout)
  else if k - ndirBlocks - V.fanout - V.fanout ^ 2 < V.fanout ^ 3 then
    V.descend 3 (x.ptr 14) (k - ndirBlocks - V.fanout - V.fanout ^ 2)
  else 0

/-- Block `k` of a file; a hole reads as zeros. -/
def leaf (x : Inode) (k : Nat) : Buf :=
  if V.resolve x k = 0 then fun _ => 0 else V.block (V.resolve x k)

/-- The byte of a file at a position. -/
def content (x : Inode) (position : Nat) : UInt8 :=
  V.leaf x (position / V.blockSize) (position % V.blockSize)

/-! ## Everything depends on the file's own blocks -/

variable {V} {W : View}

@[simp] theorem tree_absent (depth : Nat) : V.tree depth 0 = [] := by
  cases depth with
  | zero => simp [tree]
  | succ depth => simp [tree]

theorem root_mem_tree (present : b ≠ 0) : b ∈ V.tree depth b := by
  cases depth with
  | zero => simp [tree, present]
  | succ depth => simp [tree, present]

theorem zero_not_mem_tree (depth b : Nat) : 0 ∉ V.tree depth b := by
  induction depth generalizing b with
  | zero =>
    by_cases absent : b = 0
    · simp [tree, absent]
    · simp [tree, absent, Ne.symm absent]
  | succ depth ih =>
    by_cases absent : b = 0
    · simp [tree, absent]
    · simp [tree, absent, Ne.symm absent, ih]

theorem subtree_subset (present : b ≠ 0) (bound : index < V.fanout) :
    V.tree depth (V.entry b index) ⊆ V.tree (depth + 1) b := by
  intro c member
  simp only [tree, present, if_false, mem_append, mem_flatMap]
  refine .inl ⟨V.entry b index, ?_, member⟩
  simp only [entries, mem_map, mem_range]
  exact ⟨index, bound, by simp [entry, present]⟩

theorem entries_congr (size : W.blockSize = V.blockSize) (same : W.block b = V.block b) :
    W.entries b = V.entries b := by
  simp only [entries, fanout, size, same]

theorem tree_congr (size : W.blockSize = V.blockSize)
    (same : ∀ c, c ∈ V.tree depth b → W.block c = V.block c) : W.tree depth b = V.tree depth b := by
  induction depth generalizing b with
  | zero => rfl
  | succ depth ih =>
    by_cases absent : b = 0
    · simp [absent]
    · have root := same b (root_mem_tree absent)
      simp only [tree, absent, if_false, entries_congr size root]
      congr 1
      -- Each entry's subtree is unchanged by induction.
      apply flatMap_congr
      intro e member
      apply ih
      intro c inside
      apply same
      simp only [tree, absent, if_false, mem_append, mem_flatMap]
      exact .inl ⟨e, member, inside⟩

theorem entry_congr (same : b ≠ 0 → W.block b = V.block b) :
    W.entry b index = V.entry b index := by
  by_cases absent : b = 0
  · simp [entry, absent]
  · simp [entry, absent, same absent]

@[simp] theorem entry_absent (index : Nat) : V.entry 0 index = 0 := by simp [entry]

@[simp] theorem descend_absent (depth index : Nat) : V.descend depth 0 index = 0 := by
  induction depth generalizing index with
  | zero => rfl
  | succ depth ih => simp [descend, ih]

theorem fanout_digit (bound : index < V.fanout ^ (depth + 1)) :
    0 < V.fanout ^ depth ∧ index / V.fanout ^ depth < V.fanout := by
  rw [Nat.pow_succ] at bound
  have positive : 0 < V.fanout ^ depth := by
    by_contra zero
    simp [Nat.eq_zero_of_not_pos zero] at bound
  exact ⟨positive, (Nat.div_lt_iff_lt_mul positive).mpr (by rwa [Nat.mul_comm])⟩

theorem descend_mem (bound : index < V.fanout ^ depth)
    (present : V.descend depth b index ≠ 0) : V.descend depth b index ∈ V.tree depth b := by
  induction depth generalizing b index with
  | zero => exact root_mem_tree present
  | succ depth ih =>
    have parent : b ≠ 0 := by
      rintro rfl
      simp at present
    obtain ⟨positive, digit⟩ := fanout_digit bound
    exact subtree_subset parent digit (ih (Nat.mod_lt _ positive) present)

theorem descend_congr (size : W.blockSize = V.blockSize)
    (bound : index < V.fanout ^ depth)
    (same : ∀ c, c ∈ V.tree depth b → W.block c = V.block c) :
    W.descend depth b index = V.descend depth b index := by
  induction depth generalizing b index with
  | zero => rfl
  | succ depth ih =>
    have fanout : W.fanout = V.fanout := by simp [fanout, size]
    by_cases absent : b = 0
    · simp [absent]
    · obtain ⟨positive, digit⟩ := fanout_digit bound
      simp only [descend, fanout]
      rw [entry_congr fun _ => same b (root_mem_tree absent)]
      apply ih (Nat.mod_lt _ positive)
      intro c inside
      exact same c (subtree_subset absent digit inside)

/-! ## Whole inodes -/

theorem mem_direct :
    b ∈ V.direct x ↔ ∃ k, k < ndirBlocks ∧ x.ptr k = b ∧ b ≠ 0 := by
  simp only [direct, mem_flatMap, mem_range]
  constructor
  · rintro ⟨k, bound, member⟩
    by_cases absent : x.ptr k = 0
    · simp [tree, absent] at member
    · simp only [tree, absent, if_false, mem_singleton] at member
      exact ⟨k, bound, member.symm, member ▸ absent⟩
  · rintro ⟨k, bound, rfl, present⟩
    exact ⟨k, bound, by simp [tree, present]⟩

theorem mem_blocks : b ∈ V.blocks x ↔ b ∈ V.direct x ∨ b ∈ V.indirect x :=
  mem_append

theorem zero_not_mem_blocks (x : Inode) : 0 ∉ V.blocks x := by
  simp [blocks, mem_direct, indirect, zero_not_mem_tree]

theorem direct_mem_blocks (bound : k < ndirBlocks) (present : x.ptr k ≠ 0) :
    x.ptr k ∈ V.blocks x := mem_blocks.mpr (.inl (mem_direct.mpr ⟨k, bound, rfl, present⟩))

theorem blocks_absent (absent : ∀ k, x.ptr k = 0) : V.blocks x = [] := by
  simp [blocks, direct, indirect, absent]

theorem content_absent (absent : ∀ k, x.ptr k = 0) : V.content x = fun _ => 0 := by
  funext position
  have hole : V.resolve x (position / V.blockSize) = 0 := by simp [resolve, absent]
  simp [content, leaf, hole]

theorem trees_subset (V : View) (x : Inode) : V.tree 1 (x.ptr 12) ⊆ V.indirect x ∧
    V.tree 2 (x.ptr 13) ⊆ V.indirect x ∧ V.tree 3 (x.ptr 14) ⊆ V.indirect x := by
  refine ⟨fun b member => ?_, fun b member => ?_, fun b member => ?_⟩ <;> simp [indirect, member]

@[simp] theorem resolve_direct (bound : k < ndirBlocks) :
    V.resolve x k = x.ptr k := if_pos bound

theorem resolve_indirect (bound : ¬ k < ndirBlocks) :
    (∃ depth root index, V.tree depth root ⊆ V.indirect x ∧ index < V.fanout ^ depth ∧
      V.resolve x k = V.descend depth root index) ∨ V.resolve x k = 0 := by
  obtain ⟨first, second, third⟩ := V.trees_subset x
  unfold resolve
  rw [if_neg bound]
  split
  · next single => exact .inl ⟨1, x.ptr 12, _, first, by simpa using single, rfl⟩
  split
  · next double => exact .inl ⟨2, x.ptr 13, _, second, double, rfl⟩
  split
  · next triple => exact .inl ⟨3, x.ptr 14, _, third, triple, rfl⟩
  · exact .inr rfl

theorem resolve_mem_indirect (bound : ¬ k < ndirBlocks)
    (present : V.resolve x k ≠ 0) : V.resolve x k ∈ V.indirect x := by
  rcases resolve_indirect (V := V) (x := x) bound with ⟨depth, root, index, inside, digits, walk⟩ | hole
  · rw [walk] at present ⊢
    exact inside (descend_mem digits present)
  · exact absurd hole present

/-- What `resolve` returns is a block of the inode. -/
theorem resolve_mem (present : V.resolve x k ≠ 0) : V.resolve x k ∈ V.blocks x := by
  by_cases bound : k < ndirBlocks
  · rw [resolve_direct bound] at present ⊢
    exact direct_mem_blocks bound present
  · exact mem_blocks.mpr (.inr (resolve_mem_indirect bound present))

section Congruence

variable (size : W.blockSize = V.blockSize) {x y : Inode}
  (same : ∀ b, b ∈ V.indirect x → W.block b = V.block b)
  (single : y.ptr 12 = x.ptr 12) (double : y.ptr 13 = x.ptr 13) (triple : y.ptr 14 = x.ptr 14)

include size same single double triple

theorem indirect_congr : W.indirect y = V.indirect x := by
  have trees {d b : Nat} (inside : V.tree d b ⊆ V.indirect x) : W.tree d b = V.tree d b :=
    tree_congr size fun c member => same c (inside member)
  obtain ⟨first, second, third⟩ := V.trees_subset x
  unfold indirect
  rw [single, double, triple, trees first, trees second, trees third]

theorem resolve_congr_indirect (bound : ¬ k < ndirBlocks) :
    W.resolve y k = V.resolve x k := by
  have fanout : W.fanout = V.fanout := by simp [fanout, size]
  have walks {depth root index : Nat} (inside : V.tree depth root ⊆ V.indirect x)
      (digits : index < V.fanout ^ depth) :
      W.descend depth root index = V.descend depth root index :=
    descend_congr size digits fun c member => same c (inside member)
  obtain ⟨first, second, third⟩ := V.trees_subset x
  unfold resolve
  rw [if_neg bound, if_neg bound, fanout, single, double, triple]
  split
  · next digits => exact walks first (by simpa using digits)
  split
  · next digits => exact walks second digits
  split
  · next digits => exact walks third digits
  · rfl

end Congruence

def SamePointers (x y : Inode) : Prop := ∀ k, y.ptr k = x.ptr k

section Congruence

variable (size : W.blockSize = V.blockSize) {x y : Inode} (pointers : SamePointers x y)
  (same : ∀ b, b ∈ V.blocks x → W.block b = V.block b)

include size pointers same

theorem blocks_congr : W.blocks y = V.blocks x := by
  unfold blocks
  rw [indirect_congr size (fun b member => same b (mem_blocks.mpr (.inr member))) (pointers 12)
    (pointers 13) (pointers 14)]
  congr 1
  unfold direct
  simp only [pointers _]
  rfl

theorem resolve_congr (k : Nat) : W.resolve y k = V.resolve x k := by
  by_cases bound : k < ndirBlocks
  · rw [resolve_direct bound, resolve_direct bound, pointers k]
  · exact resolve_congr_indirect size (fun b member => same b (mem_blocks.mpr (.inr member)))
      (pointers 12) (pointers 13) (pointers 14) bound

theorem leaf_congr (k : Nat) : W.leaf y k = V.leaf x k := by
  unfold leaf
  rw [resolve_congr size pointers same k]
  split
  · rfl
  · next present => exact same _ (resolve_mem present)

theorem content_congr : W.content y = V.content x := by
  funext position
  unfold content
  rw [size, leaf_congr size pointers same]

end Congruence

/-! ## Writing one direct block -/

theorem nodup_direct : (V.direct x).Nodup ↔
    ∀ j k, j < ndirBlocks → k < ndirBlocks → x.ptr j = x.ptr k → x.ptr j ≠ 0 → j = k := by
  unfold direct
  rw [nodup_flatMap]
  constructor
  · rintro ⟨_, apart⟩ j k inside inside' same present
    by_contra other
    have : Std.Symm (Function.onFun Disjoint fun k => V.tree 0 (x.ptr k)) :=
      ⟨fun _ _ disjoint => disjoint.symm⟩
    have separate := apart.forall (mem_range.mpr inside) (mem_range.mpr inside') other
    exact separate (a := x.ptr j) (by simp [tree, present]) (by simp [tree, ← same, present])
  · intro unique
    refine ⟨?_, nodup_range.pairwise_of_forall_ne ?_⟩
    · intro k _
      unfold tree
      split <;> simp
    · intro j inside k inside' other b first second
      rw [mem_range] at inside inside'
      by_cases present : x.ptr j = 0
      · simp [tree, present] at first
      by_cases present' : x.ptr k = 0
      · simp [tree, present'] at second
      simp only [tree, present, present', if_false, mem_singleton] at first second
      exact other (unique j k inside inside' (first.symm.trans second) present)

theorem direct_unique (nodup : (V.blocks x).Nodup) (inside : j < ndirBlocks)
    (inside' : k < ndirBlocks) (same : x.ptr j = x.ptr k) (present : x.ptr j ≠ 0) : j = k :=
  nodup_direct.mp (nodup_append.mp nodup).1 j k inside inside' same present

theorem direct_not_indirect (nodup : (V.blocks x).Nodup)
    (bound : k < ndirBlocks) (present : x.ptr k ≠ 0) : x.ptr k ∉ V.indirect x := by
  intro member
  have apart := (nodup_append.mp nodup).2.2
  exact apart _ (mem_direct.mpr ⟨k, bound, rfl, present⟩) _ member rfl

section Leaf

variable {x : Inode} {k : Nat} {bytes : Buf} (nodup : (V.blocks x).Nodup) (bound : k < ndirBlocks)
  (present : x.ptr k ≠ 0)

include nodup bound present

theorem setLeaf_same : ∀ b, b ∈ V.indirect x → (V.setBlock (x.ptr k) bytes).block b = V.block b := by
  intro b member
  apply setBlock_other
  rintro rfl
  exact direct_not_indirect nodup bound present member

theorem setLeaf_blocks : (V.setBlock (x.ptr k) bytes).blocks x = V.blocks x := by
  unfold blocks
  rw [indirect_congr (setBlock_blockSize _ _ _) (setLeaf_same nodup bound present) rfl rfl rfl]
  rfl

theorem setLeaf_resolve (j : Nat) : (V.setBlock (x.ptr k) bytes).resolve x j = V.resolve x j := by
  by_cases inside : j < ndirBlocks
  · rw [resolve_direct inside, resolve_direct inside]
  · exact resolve_congr_indirect (setBlock_blockSize _ _ _) (setLeaf_same nodup bound present) rfl rfl rfl inside

/-- Overwriting direct block `k` of a file changes that block of the file and nothing else in it. -/
theorem setLeaf_leaf (j : Nat) :
    (V.setBlock (x.ptr k) bytes).leaf x j = if j = k then bytes else V.leaf x j := by
  unfold leaf
  rw [setLeaf_resolve nodup bound present]
  by_cases same : j = k
  · subst same
    rw [resolve_direct bound, if_neg present, if_pos rfl, setBlock_self]
  · rw [if_neg same]
    by_cases hole : V.resolve x j = 0
    · rw [if_pos hole, if_pos hole]
    · rw [if_neg hole, if_neg hole]
      apply setBlock_other
      intro clash
      by_cases inside : j < ndirBlocks
      · rw [resolve_direct inside] at clash
        exact same (direct_unique nodup inside bound clash (by rw [clash]; exact present))
      · exact direct_not_indirect nodup bound present (clash ▸ resolve_mem_indirect inside hole)

end Leaf

section NewLeaf

variable {x y : Inode} {k b : Nat} {bytes : Buf} (nodup : (V.blocks x).Nodup) (bound : k < ndirBlocks)
  (hole : x.ptr k = 0) (present : b ≠ 0) (fresh : b ∉ V.blocks x)
  (pointers : ∀ j, y.ptr j = if j = k then b else x.ptr j)

include bound fresh pointers

theorem newLeaf_indirect : (V.setBlock b bytes).indirect y = V.indirect x := by
  have direct : k < 12 := bound
  refine indirect_congr (setBlock_blockSize _ _ _) ?_ ?_ ?_ ?_
  · intro c member
    apply setBlock_other
    rintro rfl
    exact fresh (mem_blocks.mpr (.inr member))
  all_goals rw [pointers, if_neg (by omega)]

include hole present

theorem newLeaf_mem_blocks {c : Nat} :
    c ∈ (V.setBlock b bytes).blocks y ↔ c = b ∨ c ∈ V.blocks x := by
  rw [mem_blocks, mem_blocks, newLeaf_indirect bound fresh pointers, ← or_assoc]
  refine or_congr ?_ Iff.rfl
  rw [mem_direct, mem_direct]
  constructor
  · rintro ⟨j, inside, here, nonzero⟩
    rw [pointers] at here
    by_cases same : j = k
    · rw [if_pos same] at here
      exact .inl here.symm
    · rw [if_neg same] at here
      exact .inr ⟨j, inside, here, nonzero⟩
  · rintro (rfl | ⟨j, inside, here, nonzero⟩)
    · exact ⟨k, bound, by rw [pointers, if_pos rfl], present⟩
    · refine ⟨j, inside, ?_, nonzero⟩
      have other : j ≠ k := by
        rintro rfl
        exact nonzero (here.symm.trans hole)
      rw [pointers, if_neg other, here]

include nodup

omit hole in
theorem newLeaf_nodup : ((V.setBlock b bytes).blocks y).Nodup := by
  have direct : ∀ c, c ∈ (V.setBlock b bytes).direct y → c = b ∨ c ∈ V.direct x := by
    intro c member
    obtain ⟨j, inside, here, nonzero⟩ := mem_direct.mp member
    rw [pointers] at here
    by_cases same : j = k
    · rw [if_pos same] at here
      exact .inl here.symm
    · rw [if_neg same] at here
      exact .inr (mem_direct.mpr ⟨j, inside, here, nonzero⟩)
  rw [blocks, newLeaf_indirect bound fresh pointers, nodup_append]
  refine ⟨?_, (nodup_append.mp nodup).2.1, ?_⟩
  · rw [nodup_direct]
    intro i j inside inside' same nonzero
    rw [pointers, pointers] at same
    rw [pointers] at nonzero
    -- Two equal pointers are both old, or both the new one: the new block is fresh.
    by_cases first : i = k
    · by_cases second : j = k
      · rw [first, second]
      · rw [if_pos first, if_neg second] at same
        exact absurd (same ▸ direct_mem_blocks inside' (same ▸ present)) fresh
    · rw [if_neg first] at same nonzero
      by_cases second : j = k
      · rw [if_pos second] at same
        exact absurd (same ▸ direct_mem_blocks inside nonzero) fresh
      · rw [if_neg second] at same
        exact direct_unique nodup inside inside' same nonzero
  · intro c first d second clash
    subst clash
    rcases direct c first with rfl | old
    · exact fresh (mem_blocks.mpr (.inr second))
    · exact (nodup_append.mp nodup).2.2 c old c second rfl

omit nodup hole present in
theorem newLeaf_resolve (other : j ≠ k) :
    (V.setBlock b bytes).resolve y j = V.resolve x j := by
  by_cases inside : j < ndirBlocks
  · rw [resolve_direct inside, resolve_direct inside, pointers, if_neg other]
  · have direct : k < 12 := bound
    refine resolve_congr_indirect (setBlock_blockSize _ _ _) ?_ ?_ ?_ ?_ inside
    · intro c member
      apply setBlock_other
      rintro rfl
      exact fresh (mem_blocks.mpr (.inr member))
    all_goals rw [pointers, if_neg (by omega)]

omit nodup hole in
/-- Hanging a new block into hole `k` fills that block of the file and changes nothing else in it. -/
theorem newLeaf_leaf (j : Nat) :
    (V.setBlock b bytes).leaf y j = if j = k then bytes else V.leaf x j := by
  unfold leaf
  by_cases same : j = k
  · subst same
    rw [resolve_direct bound, pointers, if_pos rfl, if_neg present, if_pos rfl, setBlock_self]
  · rw [newLeaf_resolve bound fresh pointers same, if_neg same]
    split
    · rfl
    · next found =>
      apply setBlock_other
      rintro rfl
      exact fresh (resolve_mem found)

end NewLeaf

theorem content_of_leaf {y : Inode} {bytes : Buf} (size : W.blockSize = V.blockSize)
    (leaves : ∀ j, W.leaf y j = if j = k then bytes else V.leaf x j) (position : Nat) :
    W.content y position =
      if position / V.blockSize = k then bytes (position % V.blockSize) else V.content x position := by
  unfold content
  rw [size, leaves]
  split <;> rfl

def freeBlocks (V : View) (freed : Set Nat) : View := { V with usedBlocks := V.usedBlocks \ freed }

theorem freeBlocks_freeBlocks (V : View) (freed freed' : Set Nat) :
    (V.freeBlocks freed).freeBlocks freed' = V.freeBlocks (freed ∪ freed') := by
  simp only [freeBlocks, mk.injEq, true_and]
  ext b
  simp [and_assoc, not_or]

theorem freeBlocks_empty (V : View) : V.freeBlocks ∅ = V := by simp [freeBlocks]

end View

/-! ## The walks of the driver -/

/-- A block that a file may occupy: no metadata, and described by the bitmaps. -/
def Layout.IsFileBlock (L : Layout) (b : Nat) : Prop := L.IsData b ∧ L.InVolume b

namespace Volume.Shows

variable {v : Volume} {L : Layout} {V : View} (shows : v.Shows L V)

include shows

theorem fanout_eq : v.blockSize / 4 = V.fanout := by
  rw [fanout, shows.blockSize_eq, shows.has.blockSize]

theorem resolveEntry (data : b ≠ 0 → L.IsData b) :
    resolveEntry v b index = some (V.entry b index) := by
  by_cases absent : b = 0
  · simp [Ext2.resolveEntry, absent]
  · simp [Ext2.resolveEntry, entry, absent, shows.readBlock (data absent)]

/-- `resolve_data_block` on an inode whose blocks are data blocks. -/
theorem resolveDataBlock (data : ∀ b, b ∈ V.blocks x → L.IsData b)
    (range : k < ndirBlocks + V.fanout + V.fanout ^ 2 + V.fanout ^ 3) :
    resolveDataBlock v x k = some (V.resolve x k) := by
  -- The root of a tree, and every entry on the way down, is absent or a data block.
  have root {d b : Nat} (inside : V.tree d b ⊆ V.indirect x) (present : b ≠ 0) : L.IsData b :=
    data b (mem_blocks.mpr (.inr (inside (root_mem_tree present))))
  have below {d b index : Nat} (inside : V.tree (d + 1) b ⊆ V.indirect x) (digit : index < V.fanout) :
      V.tree d (V.entry b index) ⊆ V.indirect x := by
    intro c member
    by_cases absent : b = 0
    · simp [absent] at member
    · exact inside (subtree_subset absent digit member)
  obtain ⟨single, double, triple⟩ := V.trees_subset x
  simp only [Ext2.resolveDataBlock, shows.fanout_eq, resolve]
  split
  · rfl
  split
  · next digits =>
    rw [shows.resolveEntry (root single)]
    simp [descend]
  have square : V.fanout * V.fanout = V.fanout ^ 2 := (Nat.pow_two _).symm
  have positive : 0 < V.fanout := by
    rcases Nat.eq_zero_or_pos V.fanout with zero | positive
    · rw [zero] at range
      simp at range
      omega
    · exact positive
  rw [square]
  split
  · next digits =>
    have digit : (k - ndirBlocks - V.fanout) / V.fanout < V.fanout := by
      rw [Nat.div_lt_iff_lt_mul positive, square]
      exact digits
    rw [shows.resolveEntry (root double)]
    dsimp only
    rw [shows.resolveEntry (root (below double digit))]
    simp [descend]
  · next digits =>
    have inside : k - ndirBlocks - V.fanout - V.fanout ^ 2 < V.fanout ^ 3 := by omega
    generalize k - ndirBlocks - V.fanout - V.fanout ^ 2 = index at inside ⊢
    have squarePositive : 0 < V.fanout ^ 2 := Nat.pow_pos positive
    have first : index / V.fanout ^ 2 < V.fanout := by
      rw [Nat.div_lt_iff_lt_mul squarePositive, ← Nat.pow_succ']
      exact inside
    have second : index % V.fanout ^ 2 / V.fanout < V.fanout := by
      rw [Nat.div_lt_iff_lt_mul positive, square]
      exact Nat.mod_lt _ squarePositive
    rw [shows.resolveEntry (root triple)]
    dsimp only
    rw [shows.resolveEntry (root (below triple first))]
    dsimp only
    rw [shows.resolveEntry (root (below (below triple first) second)), if_pos inside]
    simp [descend]

/-! ### Freeing

Each loop of `free_inode_block_chain` comes down to freeing a list of blocks in order, up to the
first failure. -/

omit shows in
theorem blockEntries_eq {w : Volume} {W : View} (shown : w.Shows L W) (b : Nat) :
    blockEntries w (W.block b) = W.entries b := by
  simp only [blockEntries, entries, shown.fanout_eq]

section Chain

omit shows

variable {free : Volume → Nat → Bool × Volume} {freed : Set Nat}

theorem freeEach_append (front back : List Nat) : freeEach free v (front ++ back) =
    match freeEach free v front with
    | (false, v') => (false, v')
    | (true, v') => freeEach free v' back := by
  induction front generalizing v with
  | nil => rfl
  | cons b rest ih =>
    by_cases absent : b = 0
    · simp [freeEach, absent, ih]
    · rcases result : free v b with ⟨_ | _, v'⟩
      · simp [freeEach, absent, result]
      · simp [freeEach, absent, result, ih]

theorem freeEach_single (present : b ≠ 0) : freeEach free v [b] = free v b := by
  rcases result : free v b with ⟨_ | _, v'⟩ <;> simp [freeEach, present, result]

theorem freeEach_blocks (list : List Nat) (proper : ∀ c, c ∈ list → L.IsFileBlock c)
    (shown : v.Shows L (V.freeBlocks freed)) :
    ∃ ok v' more, freeEach Ext2.freeBlock v list = (ok, v') ∧ (∀ c, c ∈ more → c ∈ list) ∧
      v'.Shows L (V.freeBlocks (freed ∪ more)) ∧ (ok = true → ∀ c, c ∈ list → c ≠ 0 → c ∈ more) := by
  induction list generalizing v freed with
  | nil => exact ⟨true, v, ∅, rfl, by simp, by simpa using shown, by simp⟩
  | cons b rest ih =>
    obtain ⟨first, others⟩ := forall_mem_cons.mp proper
    by_cases absent : b = 0
    · obtain ⟨ok, v', more, result, inside, shown', complete⟩ := ih others shown
      refine ⟨ok, v', more, by rw [freeEach, if_pos absent, result],
        fun c member => mem_cons_of_mem b (inside c member), shown', fun done => ?_⟩
      exact forall_mem_cons.mpr ⟨fun present => absurd absent present, complete done⟩
    · obtain ⟨ok, v1, released, shown1⟩ := shown.freeBlock first.2
      have shown1 : v1.Shows L (V.freeBlocks (freed ∪ {b})) := by
        rw [← freeBlocks_freeBlocks]
        exact shown1
      cases ok with
      | false =>
        refine ⟨false, v1, {b}, by simp [freeEach, absent, released], fun c member => ?_, shown1, nofun⟩
        exact mem_cons.mpr (.inl member)
      | true =>
        obtain ⟨ok, v', more, result, inside, shown', complete⟩ := ih others shown1
        refine ⟨ok, v', {b} ∪ more, by simp [freeEach, absent, released, result], ?_, ?_, fun done => ?_⟩
        · rintro c (here | member)
          · exact mem_cons.mpr (.inl here)
          · exact mem_cons_of_mem b (inside c member)
        · rw [← Set.union_assoc]
          exact shown'
        · exact forall_mem_cons.mpr
            ⟨fun _ => .inl rfl, fun c member present => .inr (complete done c member present)⟩

theorem freeEach_trees
    (one : ∀ {v : Volume} {freed : Set Nat} {b : Nat}, v.Shows L (V.freeBlocks freed) → b ≠ 0 →
      (∀ c, c ∈ V.tree depth b → L.IsFileBlock c) →
      freeTree depth v b = freeEach Ext2.freeBlock v (V.tree depth b))
    (list : List Nat) (proper : ∀ c, c ∈ list.flatMap (V.tree depth) → L.IsFileBlock c)
    (shown : v.Shows L (V.freeBlocks freed)) :
    freeEach (freeTree depth) v list = freeEach Ext2.freeBlock v (list.flatMap (V.tree depth)) := by
  induction list generalizing v freed with
  | nil => rfl
  | cons b rest ih =>
    rw [flatMap_cons] at proper ⊢
    obtain ⟨here, others⟩ := forall_mem_append.mp proper
    by_cases absent : b = 0
    · simp [freeEach, absent, ih others shown]
    · obtain ⟨ok, v', more, result, _, shown', _⟩ := freeEach_blocks (V.tree depth b) here shown
      rw [freeEach_append, freeEach, if_neg absent, one shown absent here, result]
      cases ok with
      | false => rfl
      | true => exact ih others shown'

theorem freeTree_eq (depth : Nat) {v : Volume} {freed : Set Nat} {b : Nat}
    (shown : v.Shows L (V.freeBlocks freed)) (present : b ≠ 0)
    (proper : ∀ c, c ∈ V.tree depth b → L.IsFileBlock c) :
    freeTree depth v b = freeEach Ext2.freeBlock v (V.tree depth b) := by
  induction depth generalizing v freed b with
  | zero => rw [tree, if_neg present, freeEach_single present, freeTree]
  | succ depth ih =>
    have read : Ext2.readBlock v b = some (V.block b) :=
      shown.readBlock (proper b (root_mem_tree present)).1
    have entries : blockEntries v (V.block b) = V.entries b := blockEntries_eq shown b
    rw [tree, if_neg present] at proper ⊢
    simp only [freeTree, read, entries, freeEach_append, freeEach_single present,
      freeEach_trees ih (V.entries b) (forall_mem_append.mp proper).1 shown] <;> rfl

end Chain

theorem freeInodeBlockChain_eq (proper : ∀ b, b ∈ V.blocks x → L.IsFileBlock b) :
    freeInodeBlockChain v x = freeEach Ext2.freeBlock v (V.blocks x) := by
  have start : v.Shows L (V.freeBlocks ∅) := by
    rw [freeBlocks_empty]
    exact shows
  have direct : ((range ndirBlocks).map x.ptr).flatMap (V.tree 0) = V.direct x :=
    flatMap_map ..
  have single (d k : Nat) : [x.ptr k].flatMap (V.tree d) = V.tree d (x.ptr k) := by simp
  simp only [blocks, indirect, forall_mem_append] at proper
  obtain ⟨proper0, proper1, proper2, proper3⟩ := proper
  rw [← direct] at proper0
  rw [← single] at proper1 proper2 proper3
  unfold Ext2.freeInodeBlockChain blocks indirect
  rw [freeEach_trees (freeTree_eq 0) _ proper0 start, direct, freeEach_append]
  rw [direct] at proper0
  -- Each of the four rounds may stop early.
  obtain ⟨_ | _, v0, _, result0, _, shown0, _⟩ := freeEach_blocks (V.direct x) proper0 start
  · simp only [result0]
  simp only [result0, freeEach_append, freeEach_trees (freeTree_eq 1) _ proper1 shown0, single]
  obtain ⟨_ | _, v1, _, result1, _, shown1, _⟩ := freeEach_blocks _ (single 1 12 ▸ proper1) shown0
  · simp only [result1]
  simp only [result1, freeEach_trees (freeTree_eq 2) _ proper2 shown1, single]
  obtain ⟨_ | _, v2, _, result2, _, shown2, _⟩ := freeEach_blocks _ (single 2 13 ▸ proper2) shown1
  · simp only [result2]
  simp only [result2, freeEach_trees (freeTree_eq 3) _ proper3 shown2, single]

/-- `free_inode_block_chain` releases blocks of the inode only, and all of them on success. -/
theorem freeInodeBlockChain (proper : ∀ b, b ∈ V.blocks x → L.IsFileBlock b) :
    ∃ ok v' freed, freeInodeBlockChain v x = (ok, v') ∧ (∀ b, b ∈ freed → b ∈ V.blocks x) ∧
      v'.Shows L (V.freeBlocks freed) ∧ (ok = true → ∀ b, b ∈ V.blocks x → b ∈ freed) := by
  have start : v.Shows L (V.freeBlocks ∅) := by
    rw [freeBlocks_empty]
    exact shows
  obtain ⟨ok, v', freed, result, inside, shown, complete⟩ := freeEach_blocks (V.blocks x) proper start
  rw [Set.empty_union] at shown
  refine ⟨ok, v', freed, by rw [shows.freeInodeBlockChain_eq proper, result], inside, shown, ?_⟩
  exact fun done b member =>
    complete done b member fun zero => zero_not_mem_blocks x (zero ▸ member)

end Volume.Shows

end GinnOS.Ext2
