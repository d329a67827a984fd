import GinnOS.Ext2.Listing

/-! # Changing a directory

What the four functions that change a directory do to the view: they touch the
directory's own blocks and inode only (`FileOnly`), keep it well formed
(`View.DirOk`), and change its listing by one entry or its parent link.
-/

namespace GinnOS.Ext2

open Lib Lib.Buf List

variable {d k b count : Nat} {x y : Inode} {p : Rec → Bool} {before after ms rs : List Rec} {r : Rec}
  {bytes : Buf} {name : List UInt8}

namespace View

variable (V : View)

def dirRecords (d : Nat) : List Rec := V.recordsOf (V.inode d)

/-- The entries of inode `d`; a file has none. -/
def listing (d : Nat) : List DirectoryEntry :=
  if inodeIsDir (V.inode d) then Ext2.listing (V.dirRecords d) else []

/-- The parent of directory `d`, according to `..`. -/
def up (d : Nat) : Nat := upOf (V.dirRecords d)

structure DirOk (d : Nat) : Prop where
  shaped : V.Shaped (V.inode d)
  directory : IsDirectory d (V.dirRecords d)

variable {V} {W : View}

theorem listing_dir (isDir : inodeIsDir (V.inode d) = true) :
    V.listing d = Ext2.listing (V.dirRecords d) := if_pos isDir

theorem listing_file (isFile : inodeIsDir (V.inode d) = false) : V.listing d = [] := by
  simp [listing, isFile]

theorem hasBlocks_dir (isDir : inodeIsDir x = true) : x.hasBlocks = true := by
  simp [Inode.hasBlocks, isDir]

theorem blockRecords_congr (size : W.blockSize = V.blockSize)
    (leaf : W.leaf y k = V.leaf x k) : W.blockRecords y k = V.blockRecords x k := by
  rw [blockRecords, blockRecords, size, leaf]

namespace Keeps

variable {S : Set Nat} (keeps : V.Keeps W S) {d : Nat} (member : d ∈ S)
  (isDir : inodeIsDir (V.inode d) = true)

include keeps member

theorem isDir_eq : inodeIsDir (W.inode d) = inodeIsDir (V.inode d) := (keeps.inodes d member).isDir

theorem leafCount_eq : W.leafCount (W.inode d) = V.leafCount (V.inode d) := by
  rw [leafCount, leafCount, (keeps.inodes d member).size, keeps.blockSize]

include isDir

theorem dirRecords_eq : W.dirRecords d = V.dirRecords d := by
  have has := hasBlocks_dir isDir
  unfold dirRecords recordsOf
  rw [keeps.leafCount_eq member]
  refine flatMap_congr fun k _ => ?_
  exact blockRecords_congr keeps.blockSize (keeps.leaf member has k)

theorem dirOk (ok : V.DirOk d) : W.DirOk d := by
  have has := hasBlocks_dir isDir
  refine ⟨⟨?_, fun k => ?_, fun k inside => ?_⟩, ?_⟩
  · rw [keeps.leafCount_eq member, keeps.blockSize, (keeps.inodes d member).size]
    exact ok.shaped.size
  · rw [keeps.resolve member has, keeps.leafCount_eq member]
    exact ok.shaped.present k
  · rw [keeps.leafCount_eq member] at inside
    rw [keeps.blockSize, keeps.leaf member has]
    exact ok.shaped.tiled k inside
  · rw [keeps.dirRecords_eq member isDir]
    exact ok.directory

theorem up_eq : W.up d = V.up d := by rw [up, up, keeps.dirRecords_eq member isDir]

theorem first
    (first : V.First (V.inode d) p k before r after) : W.First (W.inode d) p k before r after := by
  have same (j : Nat) : W.blockRecords (W.inode d) j = V.blockRecords (V.inode d) j :=
    blockRecords_congr keeps.blockSize (keeps.leaf member (hasBlocks_dir isDir) j)
  refine ⟨first.direct, ?_, ?_, ?_, first.earlier, first.passes⟩
  · rw [keeps.leafCount_eq member]
    exact first.block
  · rw [same]
    exact first.split
  · intro j below
    rw [same]
    exact first.earlierBlocks j below

omit isDir in
theorem listing_eq : W.listing d = V.listing d := by
  unfold listing
  rw [keeps.isDir_eq member]
  split
  · next isDir => rw [keeps.dirRecords_eq member isDir]
  · rfl

end Keeps

/-! ## One block changes -/

theorem recordsOf_split (inside : k < V.leafCount x) :
    V.recordsOf x = (range k).flatMap (V.blockRecords x) ++ (V.blockRecords x k ++
      (range (V.leafCount x - (k + 1))).flatMap fun j => V.blockRecords x (k + 1 + j)) := by
  have count : V.leafCount x = k + 1 + (V.leafCount x - (k + 1)) := by omega
  unfold recordsOf
  nth_rewrite 1 [count]
  rw [range_add, range_succ, flatMap_append, flatMap_append, flatMap_map,
    append_assoc]
  simp

theorem recordsOf_replace
    (inside : k < V.leafCount x) (count : W.leafCount y = V.leafCount x)
    (split : V.blockRecords x k = before ++ r :: after)
    (changed : W.blockRecords y k = before ++ (ms ++ after))
    (others : ∀ j, j ≠ k → j < V.leafCount x → W.blockRecords y j = V.blockRecords x j) :
    ∃ front back, V.recordsOf x = front ++ r :: back ∧ W.recordsOf y = front ++ (ms ++ back) ∧
      (k = 0 → front = before) := by
  refine ⟨(range k).flatMap (V.blockRecords x) ++ before, after ++
    (range (V.leafCount x - (k + 1))).flatMap fun j => V.blockRecords x (k + 1 + j), ?_, ?_, ?_⟩
  · rw [recordsOf_split inside, split]
    simp
  · have low : (range k).flatMap (W.blockRecords y) =
        (range k).flatMap (V.blockRecords x) := by
      refine flatMap_congr fun j known => ?_
      rw [mem_range] at known
      exact others j (by omega) (by omega)
    have high : ((range (V.leafCount x - (k + 1))).flatMap fun j => W.blockRecords y (k + 1 + j)) =
        (range (V.leafCount x - (k + 1))).flatMap fun j => V.blockRecords x (k + 1 + j) := by
      refine flatMap_congr fun j known => ?_
      rw [mem_range] at known
      exact others (k + 1 + j) (by omega) (by omega)
    have inside' : k < W.leafCount y := by omega
    rw [recordsOf_split inside', count, changed, low, high]
    simp
  · rintro rfl
    rfl

theorem recordsOf_extend (count : W.leafCount y = V.leafCount x + 1)
    (new : W.blockRecords y (V.leafCount x) = rs)
    (others : ∀ j, j < V.leafCount x → W.blockRecords y j = V.blockRecords x j) :
    W.recordsOf y = V.recordsOf x ++ rs := by
  unfold recordsOf
  rw [count, range_succ, flatMap_append]
  congr 1
  · refine flatMap_congr fun j known => ?_
    rw [mem_range] at known
    exact others j known
  · simp [new]

theorem newLeaf_records (shaped : V.Shaped x)
    (direct : V.leafCount x < ndirBlocks) (present : b ≠ 0) (fresh : b ∉ V.blocks x)
    (pointers : ∀ j, y.ptr j = if j = V.leafCount x then b else x.ptr j)
    (size : y.iSize.toNat = (V.leafCount x + 1) * V.blockSize) (positive : 0 < V.blockSize)
    (tiles : TilesTo bytes 0 V.blockSize rs) (blockSize : W.blockSize = V.blockSize)
    (blocks : W.block = (V.setBlock b (clip V.blockSize bytes)).block) :
    W.Shaped y ∧ W.recordsOf y = V.recordsOf x ++ rs ∧ W.leafCount y = V.leafCount x + 1 ∧
      ∀ j, j < V.leafCount x → W.blockRecords y j = V.blockRecords x j := by
  have count : W.leafCount y = V.leafCount x + 1 := by
    rw [leafCount, size, blockSize, Nat.mul_div_cancel _ positive]
  have same (c : Nat) : W.block c = (V.setBlock b (clip V.blockSize bytes)).block c := by rw [blocks]
  have leaves (j : Nat) :
      W.leaf y j = if j = V.leafCount x then clip V.blockSize bytes else V.leaf x j := by
    rw [leaf_congr (V := V.setBlock b _) blockSize (fun _ => rfl) (fun c _ => same c)]
    exact newLeaf_leaf direct present fresh pointers j
  have stored := tiles_clip tiles
  have others (j : Nat) (below : j < V.leafCount x) : W.blockRecords y j = V.blockRecords x j :=
    blockRecords_congr blockSize (by rw [leaves, if_neg (by omega)])
  refine ⟨⟨?_, fun j => ?_, fun j below => ?_⟩, recordsOf_extend count ?_ others, count, others⟩
  · rw [count, blockSize, size]
  · rw [count]
    by_cases last : j = V.leafCount x
    · have here : W.resolve y j = b := by rw [last, resolve_direct direct, pointers, if_pos rfl]
      rw [here]
      exact ⟨fun _ => by omega, fun _ => present⟩
    · have walk : W.resolve y j = V.resolve x j := by
        rw [resolve_congr (V := V.setBlock b _) blockSize (fun _ => rfl) (fun c _ => same c)]
        exact newLeaf_resolve direct fresh pointers last
      rw [walk, shaped.present j]
      omega
  · rw [leaves, blockSize]
    split
    · exact tiled_of_tiles stored
    · exact shaped.tiled j (by omega)
  · rw [blockRecords, leaves, if_pos rfl, blockSize]
    exact records_eq stored

end View

section Change

variable {L : Layout} {V : View} {T : Set Nat} {d : Nat} (owns : L.Owns V T) (member : d ∈ T)
  (isDir : inodeIsDir (V.inode d) = true)

include owns member isDir

theorem dir_nodup : (V.blocks (V.inode d)).Nodup := by
  rw [← View.owned_eq (View.hasBlocks_dir isDir)]
  exact owns.nodup d member

theorem dir_data (b : Nat) (known : b ∈ V.blocks (V.inode d)) : L.IsData b := by
  rw [← View.owned_eq (View.hasBlocks_dir isDir)] at known
  exact owns.data d member b known

theorem setLeaf_only (direct : k < ndirBlocks)
    (present : (V.inode d).ptr k ≠ 0) :
    FileOnly L T d V (V.setBlock ((V.inode d).ptr k) bytes) := by
  have nodup := dir_nodup owns member isDir
  have has := View.hasBlocks_dir isDir
  have mine : (V.inode d).ptr k ∈ V.owned d := by
    rw [View.owned_eq has]
    exact View.direct_mem_blocks direct present
  have keeps : V.Keeps (V.setBlock ((V.inode d).ptr k) bytes) (T \ {d}) := by
    refine ⟨rfl, fun _ _ => Inode.Similar.refl _, fun j known b inside => ?_⟩
    apply View.setBlock_other
    rintro rfl
    exact owns.apart d member j known.1 (Ne.symm known.2) _ mine inside
  have blocks : (V.setBlock ((V.inode d).ptr k) bytes).owned d = V.owned d := by
    rw [View.owned_eq has, View.owned_eq (V := V.setBlock _ _) has]
    exact View.setLeaf_blocks nodup direct present
  refine ⟨?_, keeps, fun _ _ => rfl, rfl, fun _ known => known, rfl⟩
  rw [← Set.insert_eq_of_mem member]
  refine owns.change keeps (fun _ known => known) (owns.inodes d member) ?_ ?_
  · intro b known
    rw [blocks] at known
    exact .inl ⟨member, known⟩
  · rw [blocks]
    exact owns.nodup d member

theorem newLeaf_only (direct : k < ndirBlocks)
    (hole : (V.inode d).ptr k = 0) (inside : L.InVolume b) (unused : b ∉ V.usedBlocks)
    (pointers : ∀ j, y.ptr j = if j = k then b else (V.inode d).ptr j)
    (mode : y.iMode = (V.inode d).iMode) :
    FileOnly L T d V (((V.useBlock b).setBlock b bytes).setInode d y) := by
  obtain ⟨data, present, nobody⟩ := owns.fresh_block inside unused
  have has := View.hasBlocks_dir isDir
  have hasNew : y.hasBlocks = true := by
    rw [← has]
    simp [Inode.hasBlocks, inodeIsRegular, inodeIsDir, mode]
  have same : (V.useBlock b).blocks (V.inode d) = V.blocks (V.inode d) :=
    View.blocks_congr (V := V) (W := V.useBlock b) rfl (fun _ => rfl) fun _ _ => rfl
  have fresh : b ∉ (V.useBlock b).blocks (V.inode d) := by
    rw [same, ← View.owned_eq has]
    exact nobody d member
  have keeps : V.Keeps (((V.useBlock b).setBlock b bytes).setInode d y) (T \ {d}) := by
    refine ⟨rfl, fun j known => ?_, fun j known c owned => ?_⟩
    · rw [View.setInode_other known.2]
      exact Inode.Similar.refl _
    · apply View.setBlock_other
      rintro rfl
      exact nobody j known.1 owned
  refine ⟨?_, keeps, fun j other => View.setInode_other other, rfl, Set.subset_insert _ _, ?_⟩
  · rw [← Set.insert_eq_of_mem member]
    refine owns.change keeps (Set.subset_insert _ _) (owns.inodes d member) ?_ ?_
    · intro c known
      rw [View.owned_setInode_self hasNew,
        View.newLeaf_mem_blocks direct hole present fresh pointers, same] at known
      rcases known with rfl | old
      · exact .inr ⟨data, Set.mem_insert _ _, nobody⟩
      · rw [View.owned_eq has]
        exact .inl ⟨member, old⟩
    · rw [View.owned_setInode_self hasNew]
      exact View.newLeaf_nodup (by rw [same]; exact dir_nodup owns member isDir) direct present fresh
        pointers
  · rw [View.setInode_self]
    exact mode

variable (shaped : V.Shaped (V.inode d))

include shaped

theorem setLeaf_records {W : View} (stored : V.setBlock ((V.inode d).ptr k) (clip V.blockSize bytes) = W)
    (direct : k < ndirBlocks) (inside : k < V.leafCount (V.inode d))
    (split : V.blockRecords (V.inode d) k = before ++ r :: after)
    (tiles : TilesTo bytes 0 V.blockSize (before ++ (ms ++ after))) :
    FileOnly L T d V W ∧
      W.Shaped (V.inode d) ∧
      ∃ front back, V.dirRecords d = front ++ r :: back ∧
        W.dirRecords d = front ++ (ms ++ back) ∧
        (k = 0 → front = before) ∧
        ∀ j, W.blockRecords (V.inode d) j =
          if j = k then before ++ (ms ++ after) else V.blockRecords (V.inode d) j := by
  subst stored
  have nodup := dir_nodup owns member isDir
  have present : (V.inode d).ptr k ≠ 0 := by
    have := shaped.ptr_eq_zero_iff direct
    omega
  have leaves (j : Nat) : (V.setBlock ((V.inode d).ptr k) (clip V.blockSize bytes)).leaf (V.inode d) j =
      if j = k then clip V.blockSize bytes else V.leaf (V.inode d) j :=
    View.setLeaf_leaf nodup direct present j
  have stored := tiles_clip tiles
  have blockwise (j : Nat) :
      (V.setBlock ((V.inode d).ptr k) (clip V.blockSize bytes)).blockRecords (V.inode d) j =
        if j = k then before ++ (ms ++ after) else V.blockRecords (V.inode d) j := by
    split
    · next here =>
      unfold View.blockRecords
      rw [leaves, if_pos here]
      exact records_eq stored
    · next other =>
      exact View.blockRecords_congr (View.setBlock_blockSize _ _ _) (by rw [leaves, if_neg other])
  obtain ⟨front, back, old, new, start⟩ := View.recordsOf_replace
    (W := V.setBlock ((V.inode d).ptr k) (clip V.blockSize bytes)) (y := V.inode d) inside rfl split
    (by rw [blockwise, if_pos rfl]) fun j other _ => by rw [blockwise, if_neg other]
  refine ⟨setLeaf_only owns member isDir direct present, ⟨shaped.size, fun j => ?_, fun j below => ?_⟩,
    front, back, old, new, start, blockwise⟩
  · rw [View.setLeaf_resolve nodup direct present]
    exact shaped.present j
  · rw [leaves]
    split
    · exact tiled_of_tiles stored
    · exact shaped.tiled j below

end Change

/-- Directory `d` changed, is still well formed, and nothing else changed. -/
structure DirOnly (L : Layout) (T : Set Nat) (d : Nat) (V W : View) : Prop extends
    FileOnly L T d V W where
  isDir : inodeIsDir (W.inode d) = true
  ok : W.DirOk d

/-- A live record with the name is behind a direct pointer of directory `d`. -/
def View.InDirect (V : View) (d : Nat) (name : List UInt8) : Prop :=
  ∃ k r, k < ndirBlocks ∧ k < V.leafCount (V.inode d) ∧ r ∈ V.blockRecords (V.inode d) k ∧
    r.hasName name = true

/-- Entry `e` was added to directory `d`. -/
structure Appended (L : Layout) (T : Set Nat) (d : Nat) (e : DirectoryEntry) (V W : View) : Prop extends
    DirOnly L T d V W where
  up : W.up d = V.up d
  entered : Inserted e (V.listing d) (W.listing d)
  direct : ∀ name, V.InDirect d name → W.InDirect d name
  small : V.leafCount (V.inode d) ≤ ndirBlocks → W.leafCount (W.inode d) ≤ ndirBlocks

theorem View.InDirect.first {V : View} (known : V.InDirect d name) :
    ∃ k before r after, V.First (V.inode d) (Rec.hasName name) k before r after := by
  obtain ⟨k, r, direct, inside, record, named⟩ := known
  rcases V.first_or_none (V.inode d) (Rec.hasName name) with none | first
  · rw [none k direct inside r record] at named
    cases named
  · exact first

theorem View.First.inDirect {V : View} (first : V.First (V.inode d) (Rec.hasName name) k before r after) : V.InDirect d name :=
  ⟨k, r, first.direct, first.block, by rw [first.split]; simp, first.passes⟩

theorem View.First.hasName {V : View} (first : V.First x (Rec.hasName name) k before r after) :
    r.live = true ∧ r.name = name := by
  have passes := first.passes
  simp only [Rec.hasName, Bool.and_eq_true, beq_iff_eq] at passes
  exact passes

/-- Where the first record with a name stands among the records of the directory. -/
theorem View.First.records {V : View} (first : V.First x p k before r after) :
    ∃ front back, V.recordsOf x = front ++ r :: back ∧ ∀ m, m ∈ front → p m = false := by
  have split := View.recordsOf_split first.block
  rw [first.split] at split
  refine ⟨(range k).flatMap (V.blockRecords x) ++ before, _, by simpa using split, ?_⟩
  intro m known
  rcases mem_append.mp known with earlier | here
  · obtain ⟨j, below, inside⟩ := mem_flatMap.mp earlier
    exact first.earlierBlocks j (mem_range.mp below) m inside
  · exact first.earlier m here

theorem View.First.find {V : View} (first : V.First (V.inode d) (Rec.hasName name) k before r after)
    (isDir : inodeIsDir (V.inode d) = true) (ok : V.DirOk d) (proper : ProperName name) :
    (V.listing d).find? (·.name == name) = some r.listed := by
  obtain ⟨front, back, records, earlier⟩ := first.records
  obtain ⟨live, named⟩ := first.hasName
  have directory := ok.directory
  rw [View.dirRecords, records] at directory
  have behind := directory.behind_dots (by rw [named]; exact proper)
  have entries : V.listing d = liveEntries (front.drop 2) ++ r.listed :: liveEntries back := by
    rw [View.listing_dir isDir, View.dirRecords, records, Ext2.listing, drop_append_of_le_length behind,
      liveEntries_append, liveEntries_cons_live live]
  have none : (liveEntries (front.drop 2)).find? (·.name == name) = none := by
    rw [find?_eq_none]
    intro e known same
    simp only [liveEntries, mem_map, mem_filter] at known
    obtain ⟨m, ⟨inside, alive⟩, rfl⟩ := known
    have other := earlier m (mem_of_mem_drop inside)
    simp only [Rec.hasName, alive, Bool.true_and] at other
    simp only [Rec.listed, other, Bool.false_eq_true] at same
  rw [entries, find?_append, none, Option.none_or, find?_cons_of_pos (by simp [Rec.listed, named])]

namespace Volume.Shows

variable {v : Volume} {L : Layout} {V : View} (shows : v.Shows L V) {T : Set Nat} {d : Nat}
  (owns : L.Owns V T) (member : d ∈ T) (isDir : inodeIsDir (V.inode d) = true) (ok : V.DirOk d)

include shows owns member isDir ok

theorem readDirect (direct : k < ndirBlocks) (inside : k < V.leafCount (V.inode d)) :
    Ext2.readBlock v ((V.inode d).ptr k) = some (V.leaf (V.inode d) k) := by
  have read := shows.readLeaf (dir_data owns member isDir) ok.shaped inside
  rw [View.resolve_direct direct] at read
  exact read

theorem writeDirect (ms : List Rec)
    (direct : k < ndirBlocks) (inside : k < V.leafCount (V.inode d))
    (split : V.blockRecords (V.inode d) k = before ++ r :: after)
    (tiles : TilesTo bytes 0 V.blockSize (before ++ (ms ++ after))) :
    ∃ v' W front back, Ext2.writeBlock v ((V.inode d).ptr k) bytes = (true, v') ∧ v'.Shows L W ∧
      FileOnly L T d V W ∧ W.inode = V.inode ∧ W.Shaped (V.inode d) ∧
      V.dirRecords d = front ++ r :: back ∧ W.dirRecords d = front ++ (ms ++ back) ∧
      (k = 0 → front = before) ∧ ∀ j, W.blockRecords (V.inode d) j =
        if j = k then before ++ (ms ++ after) else V.blockRecords (V.inode d) j := by
  have present : (V.inode d).ptr k ≠ 0 := by
    have := ok.shaped.ptr_eq_zero_iff direct
    omega
  have data := dir_data owns member isDir _ (View.direct_mem_blocks direct present)
  obtain ⟨v', written, shown⟩ := shows.writeBlock data bytes
  rw [← shows.blockSize_eq] at shown
  obtain ⟨only, shaped, front, back, changed⟩ :=
    setLeaf_records owns member isDir ok.shaped rfl direct inside split tiles
  exact ⟨v', _, front, back, written, shown, only, rfl, shaped, changed⟩

/-- `remove_directory_entry` of a name that lookup finds. -/
theorem removeDirectoryEntry_found
    (first : V.First (V.inode d) (Rec.hasName name) k before r after) (proper : ProperName name) :
    ∃ v' W, removeDirectoryEntry v d name = (true, v') ∧ v'.Shows L W ∧ DirOnly L T d V W ∧
      W.inode = V.inode ∧ W.up d = V.up d ∧ Inserted r.listed (W.listing d) (V.listing d) := by
  have inside := owns.inodes d member
  obtain ⟨live, named⟩ := first.hasName
  have tiles := ok.shaped.tiles_block first.block
  rw [first.split] at tiles
  have found := (shows.lookup_found inside isDir (dir_data owns member isDir) ok.shaped first).1
  have read := shows.readDirect owns member isDir ok first.direct first.block
  obtain ⟨v', W, front, back, written, shown, only, inodes, shaped, old, new, _⟩ :=
    shows.writeDirect owns member isDir ok [r.killed] first.direct first.block first.split (kill tiles)
  have directory := ok.directory
  rw [old] at directory
  obtain ⟨still, up, entries⟩ := directory.kill live (by rw [named]; exact proper)
  have same : inodeIsDir (W.inode d) = true := by rw [inodes]; exact isDir
  refine ⟨v', W, ?_, shown, ⟨only, same, by rw [inodes]; exact shaped, by rw [new]; exact still⟩,
    inodes, ?_, ?_⟩
  · simp only [Ext2.removeDirectoryEntry, shows.readInode inside, isDir, found, read, written,
      Bool.not_true, Bool.false_eq_true, if_false]
  · rw [View.up, View.up, old, new]
    exact up
  · rw [View.listing_dir isDir, View.listing_dir same, old, new]
    exact entries

/-- `update_directory_entry_name` of a name that lookup finds: in place, or not at all. -/
theorem updateDirectoryEntryName_found {newName : List UInt8} (first : V.First (V.inode d) (Rec.hasName name) k before r after)
    (proper : ProperName name) (newProper : ProperName newName) :
    updateDirectoryEntryName v d name newName = (false, v) ∨
      ∃ v' W front back, updateDirectoryEntryName v d name newName = (true, v') ∧ v'.Shows L W ∧
        DirOnly L T d V W ∧ W.inode = V.inode ∧ W.up d = V.up d ∧
        V.listing d = front ++ r.listed :: back ∧
        W.listing d = front ++ { r.listed with name := newName } :: back := by
  have inside := owns.inodes d member
  obtain ⟨live, named⟩ := first.hasName
  have tiles := ok.shaped.tiles_block first.block
  rw [first.split] at tiles
  have found := (shows.lookup_found inside isDir (dir_data owns member isDir) ok.shaped first).1
  have read := shows.readDirect owns member isDir ok first.direct first.block
  have stored := (record_at tiles).1
  by_cases long : newName.length = 0 ∨ newName.length ≥ 255
  · left
    simp only [Ext2.updateDirectoryEntryName, if_pos long]
  by_cases large : dirEntrySize newName.length > r.len
  · left
    simp only [Ext2.updateDirectoryEntryName, if_neg long, shows.readInode inside, isDir, found, read,
      Bool.not_true, Bool.false_eq_true, if_false, stored.decode_recLen, if_pos large]
  right
  have needed := header_le_dirEntrySize newName.length
  obtain ⟨v', W, _, _, written, shown, only, inodes, shaped, old, new, _⟩ :=
    shows.writeDirect owns member isDir ok [{ r with name := newName }] first.direct first.block
      first.split (rename tiles (by omega) (by omega))
  have directory := ok.directory
  rw [old] at directory
  obtain ⟨still, up, front, back, before, after⟩ :=
    directory.rename live (by rw [named]; exact proper) newProper
  have same : inodeIsDir (W.inode d) = true := by rw [inodes]; exact isDir
  refine ⟨v', W, front, back, ?_, shown,
    ⟨only, same, by rw [inodes]; exact shaped, by rw [new]; exact still⟩, inodes, ?_, ?_, ?_⟩
  · simp only [Ext2.updateDirectoryEntryName, if_neg long, shows.readInode inside, isDir, found, read,
      Bool.not_true, Bool.false_eq_true, if_false, stored.decode_recLen, if_neg large,
      stored.decode_fileType, written]
  · rw [View.up, View.up, old, new]
    exact up
  · rw [View.listing_dir isDir, old]
    exact before
  · rw [View.listing_dir same, new]
    exact after

omit owns member isDir in
/-- `.` and `..` are the first records of the first block. -/
theorem dots_first {own up : Rec} {body : List Rec} (records : V.dirRecords d = own :: up :: body)
    (form : DirForm d own up body) : 0 < V.leafCount (V.inode d) ∧
      ∃ rest, V.blockRecords (V.inode d) 0 = own :: up :: rest := by
  have some : 0 < V.leafCount (V.inode d) := by
    rcases Nat.eq_zero_or_pos (V.leafCount (V.inode d)) with none | some
    · rw [View.dirRecords, View.recordsOf, none] at records
      cases records
    · exact some
  refine ⟨some, ?_⟩
  have large : 24 ≤ V.blockSize := by
    rw [shows.blockSize_eq]
    rcases L.blockSize_cases with size | size | size <;> rw [size] <;> decide
  have tiles := ok.shaped.tiles_block some
  have whole := View.recordsOf_split some
  rw [← View.dirRecords, records] at whole
  -- The block is longer than `.`, so it has a second record.
  rcases stored : V.blockRecords (V.inode d) 0 with _ | ⟨first, _ | ⟨second, rest⟩⟩
  · rw [stored] at tiles
    have : (0 : Nat) = V.blockSize := tiles
    omega
  · rw [stored] at tiles whole
    obtain ⟨rfl, _⟩ := cons.inj whole
    have last : 0 + own.len = V.blockSize := tiles.2
    rw [form.ownLen] at last
    omega
  · rw [stored] at whole
    obtain ⟨rfl, tail⟩ := cons.inj whole
    obtain ⟨rfl, _⟩ := cons.inj tail
    exact ⟨rest, rfl⟩

/-- `update_directory_parent_link` of a well-formed directory. -/
theorem updateDirectoryParentLink_eq {parent : Nat} (bound : parent < 4294967296)
    (positive : parent ≠ 0) :
    ∃ v' W, updateDirectoryParentLink v d parent = (true, v') ∧ v'.Shows L W ∧ DirOnly L T d V W ∧
      W.inode = V.inode ∧ W.up d = parent ∧ W.listing d = V.listing d := by
  have inside := owns.inodes d member
  obtain ⟨own, up, body, records, form⟩ := ok.directory
  obtain ⟨some, rest, first⟩ := shows.dots_first ok records form
  have first : V.blockRecords (V.inode d) 0 = [own] ++ up :: rest := first
  have tiles := ok.shaped.tiles_block some
  rw [first] at tiles
  have offset : span Rec.len [own] = dirEntrySize 1 := by
    rw [span_cons, span_nil, form.ownLen]
    rfl
  have stored := (record_at tiles).1
  have linked := relink tiles (UInt32.ofNat parent)
  rw [offset] at stored linked
  have present : (V.inode d).ptr 0 ≠ 0 := by
    have := ok.shaped.ptr_eq_zero_iff (k := 0) (by decide)
    omega
  have read := shows.readDirect owns member isDir ok (by decide) some
  have nameLen : (DirEntry.decode (V.leaf (V.inode d) 0) (dirEntrySize 1)).nameLen = 2 := by
    rw [← UInt8.toNat_inj, stored.decode_nameLen, form.upName]
    rfl
  have name : toList (V.leaf (V.inode d) 0) (dirEntrySize 1 + headerSize) 2 = [dot, dot] := by
    have bytes := stored.bytes
    rw [form.upName] at bytes
    exact bytes
  obtain ⟨v', W, front, back, written, shown, only, inodes, shaped, old, new, start, _⟩ :=
    shows.writeDirect owns member isDir ok [{ up with inode := UInt32.ofNat parent }]
      (by decide) some first linked
  rw [start rfl, singleton_append] at old new
  obtain ⟨still, link, entries⟩ := ok.directory.relink old bound positive
  have same : inodeIsDir (W.inode d) = true := by rw [inodes]; exact isDir
  refine ⟨v', W, ?_, shown, ⟨only, same, by rw [inodes]; exact shaped, by rw [new]; exact still⟩,
    inodes, ?_, ?_⟩
  · simp only [Ext2.updateDirectoryParentLink, shows.readInode inside, isDir, if_neg present, read, nameLen,
      name, written, Bool.not_true, Bool.false_eq_true, ne_eq, not_true_eq_false, if_false]
  · rw [View.up, new]
    exact link
  · rw [View.listing_dir isDir, View.listing_dir same, new]
    exact entries

/-! ### Appending -/

section Append

variable {child : Nat} {name : List UInt8} {fileType : UInt8}

theorem appendInBlocks_step (direct : k < ndirBlocks) :
    appendInBlocks v (V.inode d) child name fileType (count + 1) k =
      if k < V.leafCount (V.inode d) then
        match appendInBlock V.blockSize child name fileType (V.leaf (V.inode d) k) V.blockSize 0 with
        | .bad => some (false, v)
        | .done buffer => some (Ext2.writeBlock v ((V.inode d).ptr k) buffer)
        | .full => appendInBlocks v (V.inode d) child name fileType count (k + 1)
      else appendInBlocks v (V.inode d) child name fileType count (k + 1) := by
  rw [appendInBlocks]
  have absent := ok.shaped.ptr_eq_zero_iff direct
  by_cases inside : k < V.leafCount (V.inode d)
  · have read := shows.readDirect owns member isDir ok direct inside
    simp only [if_neg (show ¬ (V.inode d).ptr k = 0 by omega), read, shows.size_eq, if_pos inside] <;> rfl
  · simp only [if_pos (show (V.inode d).ptr k = 0 by omega), if_neg inside]

theorem appendInBlocks_none (range : k + count ≤ ndirBlocks)
    (full : ∀ j, j < ndirBlocks → j < V.leafCount (V.inode d) → ∀ r, r ∈ V.blockRecords (V.inode d) j →
      r.hasRoom (dirEntrySize name.length) = false) :
    appendInBlocks v (V.inode d) child name fileType count k = none := by
  induction count generalizing k with
  | zero => rfl
  | succ count ih =>
    rw [shows.appendInBlocks_step owns member isDir ok (by omega)]
    split
    · next inside =>
      rw [appendInBlock_full (ok.shaped.tiles_block inside) (full k (by omega) inside)]
      exact ih (by omega)
    · exact ih (by omega)

theorem appendInBlocks_some
    (first : V.First (V.inode d) (Rec.hasRoom (dirEntrySize name.length)) k before r after)
    {j : Nat} (start : j ≤ k) (range : k < j + count) :
    appendInBlocks v (V.inode d) child name fileType count j =
      some (Ext2.writeBlock v ((V.inode d).ptr k)
        (appended (V.leaf (V.inode d) k) (span Rec.len before) child name fileType r)) := by
  have direct := first.direct
  have block := first.block
  induction count generalizing j with
  | zero => omega
  | succ count ih =>
    rw [shows.appendInBlocks_step owns member isDir ok (by omega), if_pos (by omega)]
    by_cases here : j = k
    · have tiles := ok.shaped.tiles_block block
      rw [first.split] at tiles
      rw [here, appendInBlock_done tiles first.earlier first.passes (by omega)]
      simp only [Nat.zero_add]
    · rw [appendInBlock_full (ok.shaped.tiles_block (by omega)) (first.earlierBlocks j (by omega))]
      exact ih (by omega) (by omega)

omit shows owns member isDir in
theorem firstFreePtr_eq (range : k + count = ndirBlocks)
    (start : k ≤ V.leafCount (V.inode d)) :
    firstFreePtr (V.inode d) count k =
      if V.leafCount (V.inode d) < ndirBlocks then some (V.leafCount (V.inode d)) else none := by
  induction count generalizing k with
  | zero => rw [firstFreePtr, if_neg (by omega)]
  | succ count ih =>
    have absent := ok.shaped.ptr_eq_zero_iff (show k < ndirBlocks by omega)
    rw [firstFreePtr]
    split
    · next free =>
      obtain rfl : k = V.leafCount (V.inode d) := by omega
      rw [if_pos (by omega)]
    · exact ih (by omega) (by omega)

theorem newLeaf_dir (bound : child < 4294967296) (positive : child ≠ 0)
    (proper : ProperName name) (short : name.length < 255)
    (direct : V.leafCount (V.inode d) < ndirBlocks) (inVolume : L.InVolume b)
    (unused : b ∉ V.usedBlocks)
    (pointers : ∀ j, y.ptr j = if j = V.leafCount (V.inode d) then b else (V.inode d).ptr j)
    (length : y.iSize.toNat = (V.leafCount (V.inode d) + 1) * V.blockSize)
    (mode : y.iMode = (V.inode d).iMode) {W : View}
    (new : W = ((V.useBlock b).setBlock b (clip V.blockSize
      (insertEntry (fun _ => 0) 0 V.blockSize child name fileType))).setInode d y) :
    Appended L T d ⟨child, fileType, 0, name⟩ V W ∧ W.inode d = y := by
  have sizes := L.blockSize_cases
  have size := shows.blockSize_eq
  have hole := (ok.shaped.ptr_eq_zero_iff direct).mpr (Nat.le_refl _)
  have tiles : TilesTo (insertEntry (fun _ => 0) 0 V.blockSize child name fileType) 0 V.blockSize
      [⟨UInt32.ofNat child, V.blockSize, fileType, name⟩] :=
    newBlock_tiles (by omega) (by omega) (by simp only [headerSize]; omega)
  have only : FileOnly L T d V W := by
    rw [new]
    exact newLeaf_only owns member isDir direct hole inVolume unused pointers mode
  have inode : W.inode d = y := by rw [new, View.setInode_self]
  obtain ⟨_, present, nobody⟩ := owns.fresh_block inVolume unused
  have fresh : b ∉ V.blocks (V.inode d) := by
    rw [← View.owned_eq (View.hasBlocks_dir isDir)]
    exact nobody d member
  obtain ⟨shaped, records, count, others⟩ := View.newLeaf_records (W := W) ok.shaped direct present fresh
    pointers length (by omega) tiles (by rw [new]; rfl) (by rw [new]; rfl)
  rw [← inode] at shaped records count others
  have same : inodeIsDir (W.inode d) = true := by
    rw [inode, ← isDir]
    simp [inodeIsDir, mode]
  obtain ⟨still, up, entries⟩ := ok.directory.insert_end bound positive proper
  refine ⟨⟨⟨only, same, shaped, by rw [View.dirRecords, records]; exact still⟩, ?_, ?_, ?_, ?_⟩, inode⟩
  · rw [View.up, View.up, View.dirRecords, records]
    exact up
  · rw [View.listing_dir isDir, View.listing_dir same, show W.dirRecords d = _ from records]
    exact entries
  · rintro m ⟨k, r, near, below, record, named⟩
    exact ⟨k, r, near, by omega, by rw [others k below]; exact record, named⟩
  · omega

/-- The second half of `append_or_replace_directory_entry`, when no block has room. -/
theorem appendNewBlock (bound : child < 4294967296) (positive : child ≠ 0) (proper : ProperName name)
    (short : ¬ (name.length = 0 ∨ name.length ≥ 255))
    (full : ∀ j, j < ndirBlocks → j < V.leafCount (V.inode d) → ∀ r, r ∈ V.blockRecords (V.inode d) j →
      r.hasRoom (dirEntrySize name.length) = false) :
    ∃ done y v' W, appendOrReplaceDirectoryEntry v d (V.inode d) name child fileType = (done, y, v') ∧
      v'.Shows L W ∧
      ((done = true ∧ y = W.inode d ∧ Appended L T d ⟨child, fileType, 0, name⟩ V W) ∨
        (done = false ∧ (W = V ∨ ∃ b, W = V.useBlock b))) := by
  have inside := owns.inodes d member
  have sizes := L.blockSize_cases
  have size := shows.blockSize_eq
  have blocks : appendInBlocks v (V.inode d) child name fileType ndirBlocks 0 = none :=
    shows.appendInBlocks_none owns member isDir ok (by omega) full
  have free := firstFreePtr_eq ok (Nat.zero_add ndirBlocks) (Nat.zero_le _)
  unfold appendOrReplaceDirectoryEntry
  rw [if_neg short]
  simp only [blocks, free]
  by_cases direct : V.leafCount (V.inode d) < ndirBlocks
  · simp only [if_pos direct]
    have room : V.leafCount (V.inode d) < 12 := direct
    rcases shows.allocBlock with ⟨b, v1, allocated, inVolume, unused, marked⟩ | ⟨v1, allocated, shown⟩
    · obtain ⟨data, _, _⟩ := owns.fresh_block inVolume unused
      obtain ⟨v2, written, stored⟩ := marked.writeBlock data
        (insertEntry (fun _ => 0) 0 V.blockSize child name fileType)
      have narrow : b < 4294967296 := by
        have := L.blockCount_le
        have := inVolume.2
        omega
      have length : ((V.inode d).iSize + UInt32.ofNat V.blockSize).toNat =
          (V.leafCount (V.inode d) + 1) * V.blockSize := by
        have whole := ok.shaped.size
        have limit : V.leafCount (V.inode d) * V.blockSize ≤ 11 * 4096 :=
          Nat.mul_le_mul (by omega) (by omega)
        rw [UInt32.toNat_add, UInt32.toNat_ofNat_of_lt' (show V.blockSize < 4294967296 by omega),
          ← whole, Nat.succ_mul, Nat.mod_eq_of_lt (by omega)]
      rw [← size] at stored
      simp only [allocated, shows.size_eq, written]
      generalize grown : Inode.mk _ _ _ _ _ _ _ _ _ _ _ _ _ _ _ _ _ _ = y
      have pointers : ∀ j, y.ptr j = if j = V.leafCount (V.inode d) then b else (V.inode d).ptr j := by
        rw [← grown]
        exact Inode.ptr_setPtr narrow (by omega)
      have length : y.iSize.toNat = (V.leafCount (V.inode d) + 1) * V.blockSize := by
        rw [← grown]
        exact length
      have mode : y.iMode = (V.inode d).iMode := by rw [← grown]; rfl
      obtain ⟨v3, linked, shown⟩ := stored.writeInode inside y
      obtain ⟨entered, inode⟩ := shows.newLeaf_dir owns member isDir ok bound positive proper
        (show name.length < 255 by omega) direct inVolume unused pointers length mode rfl
      exact ⟨true, y, v3, _, by rw [linked], shown, .inl ⟨rfl, inode.symm, entered⟩⟩
    · simp only [allocated]
      rcases shown with same | ⟨b, _, _, leaked⟩
      · exact ⟨false, _, v1, V, rfl, same, .inr ⟨rfl, .inl rfl⟩⟩
      · exact ⟨false, _, v1, _, rfl, leaked, .inr ⟨rfl, .inr ⟨b, rfl⟩⟩⟩
  · simp only [if_neg direct]
    exact ⟨false, _, v, V, rfl, shows, .inr ⟨rfl, .inl rfl⟩⟩

variable (child fileType) in
/-- `append_or_replace_directory_entry`: the entry is added, or nothing changes but for a block that
may have been marked and lost. -/
theorem appendOrReplaceDirectoryEntry_cases (bound : child < 4294967296) (positive : child ≠ 0)
    (proper : ProperName name) :
    ∃ done y v' W, appendOrReplaceDirectoryEntry v d (V.inode d) name child fileType = (done, y, v') ∧
      v'.Shows L W ∧
      ((done = true ∧ y = W.inode d ∧ Appended L T d ⟨child, fileType, 0, name⟩ V W) ∨
        (done = false ∧ (W = V ∨ ∃ b, W = V.useBlock b))) := by
  have sizes := L.blockSize_cases
  have small : V.blockSize < 65536 := by
    rw [shows.blockSize_eq]
    omega
  by_cases long : name.length = 0 ∨ name.length ≥ 255
  · refine ⟨false, V.inode d, v, V, ?_, shows, .inr ⟨rfl, .inl rfl⟩⟩
    simp only [appendOrReplaceDirectoryEntry, if_pos long]
  rcases V.first_or_none (V.inode d) (Rec.hasRoom (dirEntrySize name.length)) with
    full | ⟨k, before, r, after, first⟩
  · exact shows.appendNewBlock owns member isDir ok bound positive proper long full
  · have tiles := ok.shaped.tiles_block first.block
    rw [first.split] at tiles
    obtain ⟨v', W, front, back, written, shown, only, inodes, shaped, old, new, _, blockwise⟩ :=
      shows.writeDirect owns member isDir ok (r.filled child name fileType) first.direct first.block
        first.split (appended_tiles tiles (by omega) small first.passes)
    have directory := ok.directory
    rw [old] at directory
    obtain ⟨still, up, entries⟩ := directory.insert_at bound positive proper first.passes
    have same : inodeIsDir (W.inode d) = true := by rw [inodes]; exact isDir
    have count : W.leafCount (W.inode d) = V.leafCount (V.inode d) := by
      rw [inodes, View.leafCount, View.leafCount, shown.blockSize_eq, shows.blockSize_eq]
    refine ⟨true, V.inode d, v', W, ?_, shown, .inl ⟨rfl, by rw [inodes],
      ⟨only, same, by rw [inodes]; exact shaped, by rw [new]; exact still⟩, ?_, ?_, ?_, by rw [count]; exact id⟩⟩
    · have direct := first.direct
      simp only [appendOrReplaceDirectoryEntry, if_neg long,
        shows.appendInBlocks_some owns member isDir ok first (Nat.zero_le k) (show k < 0 + ndirBlocks by omega),
        written]
    · rw [View.up, View.up, old, new]
      exact up
    · rw [View.listing_dir isDir, View.listing_dir same, old, new]
      exact entries
    · rintro m ⟨j, x, near, below, record, hasName⟩
      obtain ⟨x', record', hasName'⟩ : ∃ x', x' ∈ W.blockRecords (V.inode d) j ∧ x'.hasName m = true := by
        rw [blockwise]
        split
        · next here =>
          rw [here, first.split, mem_append, mem_cons] at record
          rcases record with known | rfl | known
          · exact ⟨x, mem_append_left _ known, hasName⟩
          · have live : x.live = true := (Bool.and_eq_true _ _ ▸ hasName).1
            refine ⟨{ x with len := dirEntrySize x.name.length }, ?_, hasName⟩
            simp [Rec.filled, live]
          · exact ⟨x, by simp [known], hasName⟩
        · exact ⟨x, record, hasName⟩
      exact ⟨j, x', near, by rw [count]; exact below, by rw [inodes]; exact record', hasName'⟩

end Append

end Volume.Shows

end GinnOS.Ext2
