import GinnOS.Ext2.Lookup

/-! # Creating and removing

What `ext2_create_file`, `ext2_create_dir`, `ext2_remove_file` and
`ext2_remove_dir` do to a consistent volume, on normalized paths and without I/O
errors: one of the changes of `Ext2.Consistent`, also when they fail half way.
-/

namespace GinnOS.Ext2

open Lib Lib.Buf
open View hiding dirRecords up

variable {L : Layout} {V W : View} {c p b : Nat} {freed T : Set Nat} {path : List UInt8}

/-! ## Giving up an inode -/

theorem Layout.Owns.release {S : Set Nat} (owns : L.Owns V S)
    (member : c ∈ S) (mine : ∀ b, b ∈ freed → b ∈ V.owned c) :
    L.Owns (V.freeBlocks freed) (S \ {c}) where
  metaUsed m occurs inside := by
    refine ⟨owns.metaUsed m occurs inside, fun known => ?_⟩
    exact (owns.data c member _ (mine _ known)).2 m occurs rfl
  bootUsed inside := ⟨owns.bootUsed inside, fun known => zero_not_owned c (mine 0 known)⟩
  inodes i known := owns.inodes i known.1
  data i known := owns.data i known.1
  used i known b block :=
    ⟨owns.used i known.1 b block, fun free => owns.apart i known.1 c member known.2 b block (mine b free)⟩
  nodup i known := owns.nodup i known.1
  apart i known j known' := owns.apart i known.1 j known'.1

theorem WellFormed.release (wf : WellFormed L V T)
    (member : c ∈ T) (mine : ∀ b, b ∈ freed → b ∈ V.owned c)
    (given : W = V.freeBlocks freed ∨ W = (V.freeBlocks freed).freeInode c) :
    WellFormed L W (T \ {c}) := by
  have owns := wf.owns.release member mine
  have keeps : V.Keeps W T := by
    rcases given with rfl | rfl <;> exact .of_eq rfl (fun _ _ => rfl) fun _ _ _ _ => rfl
  have dirs (d : Nat) (known : d ∈ T \ {c}) (isDir : inodeIsDir (W.inode d) = true) : W.DirOk d := by
    rw [keeps.isDir_eq known.1] at isDir
    exact keeps.dirOk known.1 isDir (wf.dirs d known.1 isDir)
  rcases given with rfl | rfl
  · exact ⟨owns, fun i known => wf.used known.1, dirs⟩
  · exact ⟨owns.keep (.of_eq rfl (fun _ _ => rfl) fun _ _ _ _ => rfl) subset_rfl,
      fun i known => ⟨wf.used known.1, known.2⟩, dirs⟩

theorem Dropped.of_remove {V1 V2 : View} {e : DirectoryEntry}
    (wf : WellFormed L V V.reachable) (member : p ∈ V.reachable)
    (only : DirOnly L V.reachable p V V1) (same : V1.inode = V.inode)
    (removed : Inserted e (V1.listing p) (V.listing p))
    (up : V1.up p = V.up p) (keeps : V1.Keeps V2 Set.univ) (blocks : V1.usedBlocks ⊆ V2.usedBlocks)
    (inodes : V2.usedInodes = V1.usedInodes) (frame : ∀ i, i ≠ p → V2.inode i = V1.inode i) (mine : ∀ b, b ∈ freed → b ∈ V2.owned e.inode)
    (given : W = V2.freeBlocks freed ∨ W = (V2.freeBlocks freed).freeInode e.inode) :
    Dropped L V W p e := by
  have child : e.inode ∈ V.reachable :=
    entry_reachable member (removed.perm.mem_iff.mpr List.mem_cons_self)
  have wf2 : WellFormed L V2 V.reachable :=
    (wf.dirOnly only).keep (keeps.mono (Set.subset_univ _)) blocks (by rw [inodes])
  have last : V2.Keeps W Set.univ ∧ W.inode = V2.inode ∧ W.usedInodes ⊆ V2.usedInodes := by
    rcases given with rfl | rfl
    · exact ⟨.of_eq rfl (fun _ _ => rfl) fun _ _ _ _ => rfl, rfl, subset_rfl⟩
    · exact ⟨.of_eq rfl (fun _ _ => rfl) fun _ _ _ _ => rfl, rfl, Set.sdiff_subset⟩
  obtain ⟨last, sameInodes, freed⟩ := last
  have whole : V1.Keeps W Set.univ := keeps.trans last
  have mem : p ∈ Set.univ := Set.mem_univ p
  refine ⟨⟨wf2.release child mine given, member, ?_, ?_, ?_, ?_⟩, ?_, ?_, ?_⟩
  · exact only.keeps.trans (whole.mono (Set.subset_univ _))
  · rw [(whole.inodes p mem).mode, only.mode]
  · intro _ small
    rw [whole.leafCount_eq mem, same, leafCount, only.keeps.blockSize]
    exact small
  · intro i outside _
    rw [sameInodes, frame i fun here => outside (here ▸ member), same]
  · rw [whole.listing_eq mem]
    exact removed
  · rw [whole.up_eq mem only.isDir, up]
  · rw [inodes, only.usedInodes] at freed
    exact freed

/-! ## A new entry -/

section Add

variable {L : Layout} {V V2 V3 : View} {p c : Nat} {fileType : UInt8} {name : List UInt8}

/-- The inode `c` of `V2` is marked and written, and no directory names it yet. -/
structure Newborn (L : Layout) (V V2 : View) (p c : Nat) (fileType : UInt8) : Prop
    extends Unchanged V V2 where
  inside : L.IsInode c
  fresh : c ∉ V.reachable
  wf : WellFormed L V2 (insert c V.reachable)
  right : Matches (V2.inode c) fileType
  leaf : V2.listing c = []
  dir : inodeIsDir (V2.inode c) = true → V2.up c = p ∧ V2.leafCount (V2.inode c) ≤ ndirBlocks
  frame : ∀ i, i ≠ c → V2.inode i = V.inode i
  used : V2.usedInodes = insert c V.usedInodes

theorem Newborn.added (new : Newborn L V V2 p c fileType) (member : p ∈ V.reachable)
    (isDir : inodeIsDir (V.inode p) = true)
    (entered : Appended L (insert c V.reachable) p ⟨c, fileType, 0, name⟩ V2 V3) {y : Inode}
    (similar : Inode.Similar (V3.inode p) y) :
    Added L V (V3.setInode p y) p ⟨c, fileType, 0, name⟩ := by
  obtain ⟨⟨keeps, _, _⟩, _, fresh, wf, right, leaf, new, frame, used⟩ := new
  have other : c ≠ p := fun same => fresh (same ▸ member)
  have stamp := Keeps.stamp similar Set.univ
  have mem {i : Nat} : i ∈ Set.univ := Set.mem_univ i
  have child : c ∈ insert c V.reachable \ {p} := ⟨Set.mem_insert _ _, other⟩
  have only := entered.toDirOnly
  have whole := wf.dirOnly only
  have childInode : (V3.setInode p y).inode c = V2.inode c := by
    rw [setInode_other other, only.inodes c other]
  have dir3 (dir : inodeIsDir (V2.inode c) = true) : inodeIsDir (V3.inode c) = true := by
    rw [only.keeps.isDir_eq child, dir]
  refine ⟨⟨?_, member, ?_, ?_, ?_, ?_⟩, fresh, ?_, ?_, ?_, ?_, ?_, ?_, ?_⟩
  · exact whole.keep (stamp.mono (Set.subset_univ _)) subset_rfl subset_rfl
  · have first : V.Keeps V2 (V.reachable \ {p}) := keeps.mono Set.sdiff_subset
    have second : V2.Keeps V3 (V.reachable \ {p}) :=
      only.keeps.mono (Set.sdiff_subset_sdiff_left (Set.subset_insert _ _))
    exact (first.trans second).trans (stamp.mono (Set.subset_univ _))
  · rw [(stamp.inodes p mem).mode, only.mode, (keeps.inodes p member).mode]
  · intro _ small
    rw [stamp.leafCount_eq mem]
    exact entered.small (by rw [keeps.leafCount_eq member]; exact small)
  · intro i outside new
    have here : i ≠ p := fun same => outside (same ▸ member)
    rw [setInode_other here, only.inodes i here, frame i fun same => new (.inl same)]
  · rw [stamp.listing_eq mem, ← keeps.listing_eq member]
    exact entered.entered
  · rw [stamp.up_eq mem only.isDir, entered.up, keeps.up_eq member isDir]
  · rw [childInode]
    exact right
  · rw [stamp.listing_eq mem, only.keeps.listing_eq child, leaf]
  · intro dir
    rw [childInode] at dir
    rw [stamp.up_eq mem (dir3 dir), only.keeps.up_eq child dir]
    exact (new dir).1
  · intro dir
    rw [childInode] at dir
    rw [stamp.leafCount_eq mem, only.keeps.leafCount_eq child]
    exact (new dir).2
  · rw [setInode_usedInodes, only.usedInodes, used]

omit V2 V3 in
/-- A new inode without blocks. -/
theorem WellFormed.newFile (wf : WellFormed L V V.reachable) (inside : L.IsInode c)
    (unused : c ∉ V.usedInodes) :
    Newborn L V ((V.useInode c).setInode c setupNewFileInode) p c ftRegFile := by
  have fresh : c ∉ V.reachable := fun known => unused (wf.used known)
  have same : Unchanged V ((V.useInode c).setInode c setupNewFileInode) :=
    ((Unchanged.refl V).useInode c).setInode fresh _
  have inode : ((V.useInode c).setInode c setupNewFileInode).inode c = setupNewFileInode :=
    setInode_self ..
  have owned : ((V.useInode c).setInode c setupNewFileInode).owned c = [] := by
    rw [owned_setInode_self (by decide), blocks_absent (x := setupNewFileInode) Inode.zero_ptr]
  refine ⟨same, inside, fresh, wf.enter same.keeps subset_rfl subset_rfl inside fresh ?_ ?_ ?_, ?_,
    listing_file (by rw [inode]; decide), ?_, fun i other => setInode_other other, rfl⟩
  · intro b known
    rw [owned] at known
    cases known
  · rw [owned]
    exact List.nodup_nil
  · rw [inode]
    exact fun isDir => absurd isDir (by decide)
  · rw [inode]
    exact ⟨by decide, by decide⟩
  · rw [inode]
    exact fun isDir => absurd isDir (by decide)

omit V2 V3 in
/-- An inode without blocks has no records. -/
theorem View.zero_shaped : V.Shaped Inode.zero ∧ V.recordsOf Inode.zero = [] ∧
    V.leafCount Inode.zero = 0 := by
  have count : V.leafCount Inode.zero = 0 := Nat.zero_div _
  have holes (k : Nat) : V.resolve Inode.zero k = 0 := by
    by_contra present
    have known := resolve_mem present
    rw [blocks_absent Inode.zero_ptr] at known
    cases known
  refine ⟨⟨by rw [count, Nat.zero_mul]; rfl, fun k => ?_, fun k below => ?_⟩, ?_, count⟩
  · rw [holes, count]
    simp
  · rw [count] at below
    cases below
  · rw [recordsOf, count]
    rfl

omit V2 V3 in
theorem WellFormed.newDir (wf : WellFormed L V V.reachable) {x : Inode}
    (inside : L.IsInode c) (unused : c ∉ V.usedInodes) (inVolume : L.InVolume b)
    (free : b ∉ V.usedBlocks) (size : V.blockSize = L.blockSize) (parent : L.IsInode p)
    (isDir : inodeIsDir x = true) (pointers : ∀ j, x.ptr j = if j = 0 then b else 0)
    (length : x.iSize.toNat = V.blockSize)
    (new : W = (((V.useInode c).useBlock b).setBlock b
      (clip V.blockSize (initialDirectoryBlock V.blockSize c p))).setInode c x) :
    Newborn L V W p c ftDir ∧ W.inode c = x := by
  have sizes := L.blockSize_cases
  have fresh : c ∉ V.reachable := fun known => unused (wf.used known)
  obtain ⟨data, present, nobody⟩ := wf.owns.fresh_block inVolume free
  have same : Unchanged V W := by
    rw [new]
    exact ((((Unchanged.refl V).useInode c).useBlock b).setBlock nobody _).setInode fresh _
  have inode : W.inode c = x := by rw [new, setInode_self]
  obtain ⟨empty, none, zero⟩ := zero_shaped (V := V)
  have noBlocks : V.blocks Inode.zero = [] := blocks_absent Inode.zero_ptr
  have pointers' (j : Nat) : x.ptr j = if j = 0 then b else Inode.zero.ptr j := by
    rw [pointers, Inode.zero_ptr]
  obtain ⟨shaped, records, count, _⟩ := newLeaf_records (W := W) (x := Inode.zero) (y := x) (b := b) empty
    (by rw [zero]; decide) present (by rw [noBlocks]; exact List.not_mem_nil) (by rw [zero]; exact pointers')
    (by rw [zero, length]; omega) (by omega)
    (initialDirectoryBlock_tiles c p (show 24 ≤ V.blockSize by omega) (by omega))
    (by rw [new]; rfl) (by rw [new]; rfl)
  rw [none, List.nil_append, ← inode] at records
  obtain ⟨number, live⟩ := inode_ofNat (L.inode_lt inside) (by have := inside.1; omega)
  obtain ⟨up, upLive⟩ := inode_ofNat (L.inode_lt parent) (by have := parent.1; omega)
  have directory : IsDirectory c (W.dirRecords c) := by
    refine ⟨_, _, [], records, number, rfl, rfl, rfl, live, rfl, rfl, upLive, ?_⟩
    intro r known
    cases known
  have owned (a : Nat) : a ∈ W.owned c ↔ a = b := by
    rw [owned_eq (by rw [inode]; exact hasBlocks_dir isDir), inode, new]
    refine (newLeaf_mem_blocks (V := (V.useInode c).useBlock b) (x := Inode.zero) (k := 0)
      (by decide) (Inode.zero_ptr 0) present ?_ pointers').trans ?_
    all_goals rw [blocks_absent Inode.zero_ptr]
    all_goals simp
  have nodup : (W.owned c).Nodup := by
    rw [owned_eq (by rw [inode]; exact hasBlocks_dir isDir), inode, new]
    refine newLeaf_nodup (V := (V.useInode c).useBlock b) (x := Inode.zero) (k := 0) ?_ (by decide)
      present ?_ pointers'
    all_goals rw [blocks_absent Inode.zero_ptr]
    all_goals simp
  have used : W.usedInodes = insert c V.usedInodes := by rw [new]; rfl
  refine ⟨⟨same, inside, fresh, wf.enter same.keeps same.blocks used.ge inside fresh ?_ nodup ?_,
    ⟨by simp [inode, isDir], ?_⟩, ?_, fun _ => ⟨?_, ?_⟩, ?_, used⟩, inode⟩
  · intro a known
    rw [owned] at known
    rw [known]
    refine ⟨data, ?_, nobody⟩
    rw [new]
    exact Set.mem_insert _ _
  · intro _
    exact ⟨by rw [inode]; exact shaped, directory⟩
  · simp only [inodeIsDir, beq_iff_eq] at isDir
    simp only [inode, inodeIsRegular, isDir]
    decide
  · rw [listing_dir (by rw [inode]; exact isDir), View.dirRecords, records]
    rfl
  · rw [View.up, View.dirRecords, records]
    exact up
  · rw [inode, count, zero]
    decide
  · rw [new]
    exact fun i other => setInode_other other

end Add

/-- A call that fails changes nothing that can be reached. -/
def Outcome (L : Layout) (V : View) (result : Kerr × Volume) (Done : Kerr → View → Prop) : Prop :=
  ∃ status v' W, result = (status, v') ∧ v'.Shows L W ∧ ((status ≠ .ok ∧ Unchanged V W) ∨ Done status W)

/-- The entry of the path is gone. -/
def Removed (L : Layout) (V : View) (v : Volume) (path : List UInt8) (fileType : UInt8) (status : Kerr) (W : View) : Prop :=
  ∃ p name e, lookupParentAndName v path = some (p, name) ∧ ProperName name ∧
    lookupChildType v p name = some (e.inode, fileType) ∧ (V.listing p).find? (·.name == name) = some e ∧
    e.fileType = fileType ∧ Dropped L V W p e ∧ (status = .ok → e.inode ∉ W.usedInodes)

theorem Outcome.imp {result : Kerr × Volume} {Done Post : Kerr → View → Prop} (outcome : Outcome L V result Done)
    (failed : ∀ status W, status ≠ .ok → Unchanged V W → Post status W) (done : ∀ status W, Done status W → Post status W) :
    ∃ status v' W, result = (status, v') ∧ v'.Shows L W ∧ Post status W := by
  obtain ⟨status, v', W, same, shown, ⟨notOk, unchanged⟩ | known⟩ := outcome
  · exact ⟨status, v', W, same, shown, failed status W notOk unchanged⟩
  · exact ⟨status, v', W, same, shown, done status W known⟩

namespace Volume.Shows

variable {v : Volume} {L : Layout} {V : View} (shows : v.Shows L V) {files : Bool}
  (ok : Consistent L files V) {Done : Kerr → View → Prop}

include shows

theorem fails {status : Kerr} (failed : status ≠ .ok) (same : Unchanged W V) : Outcome L W (status, v) Done :=
  ⟨status, v, V, rfl, shows, .inl ⟨failed, same⟩⟩

include ok

/-- The calls begin with a lookup of the directory. -/
theorem at_parent (normal : Normalized path) {call : Nat → List UInt8 → Kerr × Volume}
    (found : ∀ p name, lookupParentAndName v path = some (p, name) → p ∈ V.reachable → inodeIsDir (V.inode p) = true →
      ProperName name → Outcome L V (call p name) Done) :
    Outcome L V (match lookupParentAndName v path with | none => (.notfound, v) | some (p, name) => call p name) Done := by
  cases looked : lookupParentAndName v path with
  | none => exact shows.fails (by decide) (.refl V)
  | some target =>
    obtain ⟨member, isDir, proper⟩ := shows.lookupParentAndName_some ok looked
    exact found _ _ looked member isDir (proper normal)

omit shows in
/-- The last step of both kinds of creation: a new inode is entered into the directory `p`, and the
directory is stamped. -/
theorem enter_cases {v2 : Volume} {V2 : View} {name : List UInt8} {fileType : UInt8}
    (stored : v2.Shows L V2) (new : Newborn L V V2 p c fileType) (member : p ∈ V.reachable)
    (isDir : inodeIsDir (V.inode p) = true) (proper : ProperName name) :
    ∃ done y v3 W, appendOrReplaceDirectoryEntry v2 p (V.inode p) name c fileType = (done, y, v3) ∧
      v3.Shows L W ∧
      ((done = true ∧ ∀ z, Inode.Similar y z → ∃ v4, Ext2.writeInode v3 p z = (true, v4) ∧
          v4.Shows L (W.setInode p z) ∧ Added L V (W.setInode p z) p ⟨c, fileType, 0, name⟩ ∧
          (W.setInode p z).inode c = V2.inode c) ∨
        (done = false ∧ Unchanged V W)) := by
  have other : c ≠ p := fun here => new.fresh (here ▸ member)
  have isDir2 := (new.keeps.isDir_eq member).trans isDir
  have there := Set.mem_insert_of_mem c member
  obtain ⟨done, y, v3, W, appended, shown, result⟩ :=
    stored.appendOrReplaceDirectoryEntry_cases new.wf.owns there isDir2 (new.wf.dirs p there isDir2) c
      fileType (L.inode_lt new.inside) (by have := new.inside.1; omega) proper
  rw [new.frame p other.symm] at appended
  refine ⟨done, y, v3, W, appended, shown, ?_⟩
  rcases result with ⟨rfl, rfl, entered⟩ | ⟨rfl, leaked⟩
  · refine .inl ⟨rfl, fun z similar => ?_⟩
    obtain ⟨v4, stamped, final⟩ := shown.writeInode (ok.isInode member) z
    refine ⟨v4, stamped, final, new.added member isDir entered similar, ?_⟩
    rw [setInode_other other, entered.inodes c other]
  · refine .inr ⟨rfl, ?_⟩
    rcases leaked with rfl | ⟨b, rfl⟩
    · exact new.toUnchanged
    · exact new.toUnchanged.useBlock b

/-- `ext2_create_file`. -/
theorem createFile_cases (normal : Normalized path) :
    Outcome L V (ext2CreateFile v path) fun status W =>
      status = .ok ∧ ∃ p name c, lookupParentAndName v path = some (p, name) ∧ ProperName name ∧
        lookupChildType v p name = none ∧ (Ext2.allocInode v).1 = some c ∧
        Added L V W p ⟨c, ftRegFile, 0, name⟩ ∧ W.inode c = setupNewFileInode := by
  unfold ext2CreateFile
  refine shows.at_parent ok normal fun p name looked member isDir proper => ?_
  cases absent : lookupChildType v p name with
  | some found =>
    simp only [Option.isSome_some, if_true]
    exact shows.fails (by decide) (.refl V)
  | none =>
    have read := shows.readInode (ok.isInode member)
    simp only [Option.isSome_none, Bool.false_eq_true, if_false, read, isDir, Bool.not_true]
    rcases shows.allocInode with ⟨c, v1, allocated, inside, unused, marked⟩ | ⟨v1, allocated, shown⟩
    · obtain ⟨v2, written, stored⟩ := marked.writeInode inside setupNewFileInode
      obtain ⟨done, y, v3, W, appended, shown, result⟩ :=
        stored.enter_cases ok (ok.wellFormed.newFile inside unused) member isDir proper
      simp only [allocated, written, appended]
      rcases result with ⟨rfl, stamps⟩ | ⟨rfl, failed⟩
      · obtain ⟨v4, stamped, final, added, inode⟩ :=
          stamps { y with iMtime := 0, iCtime := 0 } ⟨rfl, rfl, fun _ => rfl⟩
        exact ⟨.ok, v4, _, by simp only [stamped], final,
          .inr ⟨rfl, p, name, c, looked, proper, absent, rfl, added, by rw [inode, setInode_self]⟩⟩
      · obtain ⟨_, v4, freed, final⟩ := shown.freeInode inside
        exact ⟨.nospc, v4, _, by simp only [freed], final, .inl ⟨by decide, failed.freeInode unused⟩⟩
    · simp only [allocated]
      rcases shown with same | ⟨i, _, _, leaked⟩
      · exact same.fails (by decide) (.refl V)
      · exact leaked.fails (by decide) ((Unchanged.refl V).useInode i)

/-- The new directory of `ext2_create_dir`, before it is entered. -/
theorem newDirectory {v2 : Volume} (member : p ∈ V.reachable) (inside : L.IsInode c)
    (unused : c ∉ V.usedInodes) (inVolume : L.InVolume b) (free : b ∉ V.usedBlocks)
    (shown : v2.Shows L ((V.useInode c).useBlock b)) :
    ∃ v3 v4 W, initializeDirectoryBlock v2 c p b = (true, v3) ∧
      Ext2.writeInode v3 c ((setupNewDirInode v).setPtr 0 b) = (true, v4) ∧ v4.Shows L W ∧
      Newborn L V W p c ftDir ∧ inodeIsDir (W.inode c) = true := by
  have sizes := L.blockSize_cases
  have size := shows.blockSize_eq
  obtain ⟨data, _, _⟩ := ok.wellFormed.owns.fresh_block inVolume free
  have narrow : b < 4294967296 := by
    have := L.blockCount_le
    have := inVolume.2
    omega
  obtain ⟨v3, initialized, stored⟩ := shown.writeBlock data (initialDirectoryBlock v2.blockSize c p)
  obtain ⟨v4, written, final⟩ := stored.writeInode inside ((setupNewDirInode v).setPtr 0 b)
  have large : ¬ v2.blockSize < dirEntrySize 1 + headerSize + 1 := by
    rw [shown.has.blockSize, show dirEntrySize 1 = 12 from rfl, show headerSize = 8 from rfl]
    omega
  have sameSize : v2.blockSize = V.blockSize := by rw [shown.has.blockSize, size]
  rw [sameSize, ← size] at final
  have isDir : inodeIsDir ((setupNewDirInode v).setPtr 0 b) = true := by
    change (0x41ED : UInt16) &&& sIfmt == sIfdir
    decide
  have pointers (j : Nat) : ((setupNewDirInode v).setPtr 0 b).ptr j = if j = 0 then b else 0 := by
    rw [Inode.ptr_setPtr narrow (by decide), show (setupNewDirInode v).ptr j = 0 from Inode.zero_ptr j]
  have length : ((setupNewDirInode v).setPtr 0 b).iSize.toNat = V.blockSize := by
    change (UInt32.ofNat v.blockSize).toNat = V.blockSize
    rw [shows.size_eq]
    exact UInt32.toNat_ofNat_of_lt' (show V.blockSize < 4294967296 by omega)
  obtain ⟨new, inode⟩ := ok.wellFormed.newDir inside unused inVolume free size
    (ok.isInode member) isDir pointers length rfl
  refine ⟨v3, v4, _, ?_, written, final, new, by rw [inode, isDir]⟩
  rw [initializeDirectoryBlock, if_neg large]
  exact initialized

/-- `ext2_create_dir`. -/
theorem createDir_cases (normal : Normalized path) :
    Outcome L V (ext2CreateDir v path) fun status W =>
      status = .ok ∧ ∃ p name c, lookupParentAndName v path = some (p, name) ∧ ProperName name ∧
        lookupChildType v p name = none ∧ (Ext2.allocInode v).1 = some c ∧
        Added L V W p ⟨c, ftDir, 0, name⟩ ∧ inodeIsDir (W.inode c) = true := by
  unfold ext2CreateDir
  refine shows.at_parent ok normal fun p name looked member isDir proper => ?_
  cases absent : lookupChildType v p name with
  | some found =>
    simp only [Option.isSome_some, if_true]
    exact shows.fails (by decide) (.refl V)
  | none =>
    have parent := ok.isInode member
    have read := shows.readInode parent
    simp only [Option.isSome_none, Bool.false_eq_true, if_false, read, isDir, Bool.not_true]
    rcases shows.allocInode with ⟨c, v1, allocated, inside, unused, marked⟩ | ⟨v1, allocated, shown⟩
    · have taken : Unchanged V (V.useInode c) := (Unchanged.refl V).useInode c
      rcases marked.allocBlock with ⟨b, v2, reserved, inVolume, free, shown⟩ | ⟨v2, reserved, shown⟩
      · obtain ⟨v3, v4, V2, initialized, written, stored, new, childDir⟩ :=
          shows.newDirectory ok member inside unused inVolume free shown
        obtain ⟨done, y, v5, W, appended, shown, result⟩ :=
          stored.enter_cases ok new member isDir proper
        simp only [allocated, reserved, initialized, written, appended]
        rcases result with ⟨rfl, stamps⟩ | ⟨rfl, failed⟩
        · obtain ⟨v6, stamped, shown, added, inode⟩ := stamps
            { y with iLinksCount := y.iLinksCount + 1, iMtime := 0, iCtime := 0 } ⟨rfl, rfl, fun _ => rfl⟩
          obtain ⟨_, v7, counted, final⟩ := shown.updateCounts (shows.has.inodeGroup_known inside) 0 0 1
          exact ⟨.ok, v7, _, by simp only [stamped, counted], final,
            .inr ⟨rfl, p, name, c, looked, proper, absent, rfl, added, by rw [inode, childDir]⟩⟩
        · obtain ⟨_, v6, released, shown⟩ := shown.freeBlock inVolume
          obtain ⟨_, v7, freed, final⟩ := shown.freeInode inside
          exact ⟨.nospc, v7, _, by simp only [rollbackDir, released, freed], final,
            .inl ⟨by decide, (failed.freeBlock free).freeInode unused⟩⟩
      · obtain ⟨W, shown, same⟩ : ∃ W, v2.Shows L W ∧ Unchanged V W := by
          rcases shown with shown | ⟨b, _, _, shown⟩
          · exact ⟨_, shown, taken⟩
          · exact ⟨_, shown, taken.useBlock b⟩
        obtain ⟨_, v3, freed, final⟩ := shown.freeInode inside
        simp only [allocated, reserved, freed]
        exact final.fails (by decide) (same.freeInode unused)
    · simp only [allocated]
      rcases shown with same | ⟨i, _, _, leaked⟩
      · exact same.fails (by decide) (.refl V)
      · exact leaked.fails (by decide) ((Unchanged.refl V).useInode i)

omit ok in
/-- `free_inode_and_blocks` of an inode whose copy, if any, is up to date. -/
theorem freeInodeAndBlocks_cases (owns : L.Owns V T) (member : c ∈ T)
    (has : (V.inode c).hasBlocks = true) {given : Option Inode}
    (cached : given = none ∨ given = some (V.inode c)) :
    ∃ done v' W freed, freeInodeAndBlocks v c given = (done, v') ∧ v'.Shows L W ∧
      (∀ b, b ∈ freed → b ∈ V.owned c) ∧
      (W = V.freeBlocks freed ∨ W = (V.freeBlocks freed).freeInode c) ∧
      (done = true → c ∉ W.usedInodes) := by
  have inside := owns.inodes c member
  have known : freeInodeAndBlocks v c given = freeInodeAndBlocks v c (some (V.inode c)) := by
    rcases cached with rfl | rfl
    · simp only [freeInodeAndBlocks, shows.readInode inside]
    · rfl
  obtain ⟨done, v1, freed, chain, mine, shown, _⟩ := shows.freeInodeBlockChain (x := V.inode c)
    fun b block => owns.fileBlock shows member (by rw [owned_eq has]; exact block)
  rw [← owned_eq has] at mine
  rw [known]
  simp only [freeInodeAndBlocks, chain]
  cases done with
  | false => exact ⟨false, v1, _, freed, rfl, shown, mine, .inl rfl, by simp⟩
  | true =>
    obtain ⟨done, v2, freedInode, final⟩ := shown.freeInode inside
    exact ⟨done, v2, _, freed, freedInode, final, mine, .inr rfl, fun _ used => used.2 rfl⟩

/-- `ext2_remove_file`. -/
theorem removeFile_cases (normal : Normalized path) :
    Outcome L V (ext2RemoveFile v path) (Removed L V v path ftRegFile) := by
  unfold ext2RemoveFile
  refine shows.at_parent ok normal fun p name looked member isDir proper => ?_
  have dirOk := ok.dirOk member isDir
  rcases shows.lookupChildType_cases ok member isDir name with
    ⟨absent, _⟩ | ⟨k, before, r, after, first, found⟩
  · simp only [absent]
    exact shows.fails (by decide) (.refl V)
  · by_cases isFile : r.fileType = ftRegFile
    · have entry := first.mem_listing isDir dirOk proper
      have child : r.inode.toNat ∈ V.reachable := entry_reachable member entry
      obtain ⟨v1, V1, gone, shown, only, inodes, up, removed⟩ :=
        shows.removeDirectoryEntry_found ok.wellFormed.owns member isDir dirOk first proper
      have regular : inodeIsRegular (V.inode r.inode.toNat) = true :=
        (ok.typed p member _ entry).regular.mpr isFile
      have has : (V1.inode r.inode.toNat).hasBlocks = true := by
        rw [inodes, Inode.hasBlocks, regular, Bool.true_or]
      obtain ⟨done, v2, W, freed, released, final, mine, given, gone'⟩ :=
        shown.freeInodeAndBlocks_cases only.owns child has (.inl rfl)
      have dropped : Dropped L V W p r.listed :=
        .of_remove ok.wellFormed member only inodes removed up (.refl V1 _) subset_rfl rfl
          (fun _ _ => rfl) mine given
      have found' : lookupChildType v p name = some (r.listed.inode, ftRegFile) := by rw [found, isFile]; rfl
      simp only [found, isFile, ne_eq, not_true_eq_false, if_false, gone, released]
      refine ⟨if done then .ok else .io, v2, W, by cases done <;> rfl, final, .inr ⟨p, name, _, looked, proper, found',
        first.find isDir dirOk proper, isFile, dropped, fun good => gone' ?_⟩⟩
      cases done with
      | false => cases good
      | true => rfl
    · simp only [found, ne_eq, isFile, not_false_eq_true, if_true]
      exact shows.fails (by decide) (.refl V)

theorem empty_other {k : Nat} {name : List UInt8} {before after : List Rec} {r : Rec}
    (known : c ∈ V.reachable) (isDir : inodeIsDir (V.inode c) = true)
    (first : V.First (V.inode p) (Rec.hasName name) k before r after) (proper : ProperName name)
    (empty : directoryIsEmpty v c = true) : p ≠ c := by
  rintro rfl
  have none := (shows.directoryIsEmpty_iff (ok.isInode known) isDir
    (dir_data ok.wellFormed.owns known isDir) (ok.dirOk known isDir).shaped).mp empty
  have unnamed := none k first.direct first.block r (by rw [first.split]; simp)
  obtain ⟨live, named⟩ := first.hasName
  simp [Rec.isNamed, live, named, proper.2.1, proper.2.2] at unnamed

/-- `ext2_remove_dir`. -/
theorem removeDir_cases (normal : Normalized path) :
    Outcome L V (ext2RemoveDir v path) (Removed L V v path ftDir) := by
  unfold ext2RemoveDir
  refine shows.at_parent ok normal fun p name looked member isDir proper => ?_
  have dirOk := ok.dirOk member isDir
  rcases shows.lookupChildType_cases ok member isDir name with
    ⟨absent, _⟩ | ⟨k, before, r, after, first, found⟩
  · simp only [absent]
    exact shows.fails (by decide) (.refl V)
  · by_cases childType : r.fileType = ftDir
    · have entry := first.mem_listing isDir dirOk proper
      have child : r.inode.toNat ∈ V.reachable := entry_reachable member entry
      have childDir : inodeIsDir (V.inode r.inode.toNat) = true :=
        (ok.typed p member _ entry).dir.mpr childType
      have read := shows.readInode (ok.isInode child)
      cases empty : directoryIsEmpty v r.inode.toNat with
      | false =>
        simp only [found, childType, ne_eq, not_true_eq_false, if_false, read, childDir, empty,
          Bool.not_true, Bool.false_eq_true, Bool.not_false, if_true]
        exact shows.fails (by decide) (.refl V)
      | true =>
        have other := shows.empty_other ok child childDir first proper empty
        obtain ⟨v1, V1, gone, shown, only, inodes, up, removed⟩ :=
          shows.removeDirectoryEntry_found ok.wellFormed.owns member isDir dirOk first proper
        have readParent := shown.readInode (ok.isInode member)
        simp only [found, childType, ne_eq, not_true_eq_false, if_false, read, childDir, empty,
          Bool.not_true, Bool.false_eq_true, gone, readParent]
        generalize unlinked : (if (V1.inode p).iLinksCount > 0 then _ else v1) = v2
        obtain ⟨V2, shown2, keeps, blocks, used, frame⟩ : ∃ V2, v2.Shows L V2 ∧
            V1.Keeps V2 Set.univ ∧ V1.usedBlocks ⊆ V2.usedBlocks ∧ V2.usedInodes = V1.usedInodes ∧
            ∀ i, i ≠ p → V2.inode i = V1.inode i := by
          split at unlinked
          · generalize stamp : Inode.mk _ _ _ _ _ _ _ _ _ _ _ _ _ _ _ _ _ _ = y at unlinked
            have similar : Inode.Similar (V1.inode p) y := by
              rw [← stamp]
              exact ⟨rfl, rfl, fun _ => rfl⟩
            obtain ⟨v2', written, shown2⟩ := shown.writeInode (ok.isInode member) y
            rw [written] at unlinked
            exact ⟨_, by rw [← unlinked]; exact shown2, .stamp similar _, subset_rfl, rfl,
              fun i other => setInode_other other⟩
          · exact ⟨V1, by rw [← unlinked]; exact shown, .refl _ _, subset_rfl, rfl, fun _ _ => rfl⟩
        have sameChild : V2.inode r.inode.toNat = V.inode r.inode.toNat := by
          rw [frame _ other.symm, inodes]
        have wf2 : WellFormed L V2 V.reachable :=
          (ok.wellFormed.dirOnly only).keep (keeps.mono (Set.subset_univ _)) blocks (by rw [used])
        obtain ⟨done, v3, W, freed, released, final, mine, given, gone'⟩ :=
          shown2.freeInodeAndBlocks_cases wf2.owns child
            (by rw [sameChild]; exact hasBlocks_dir childDir)
            (show some (V.inode r.inode.toNat) = none ∨ _ from .inr (by rw [sameChild]))
        have dropped : Dropped L V W p r.listed :=
          .of_remove ok.wellFormed member only inodes removed up keeps blocks used frame mine given
        have effect := first.find isDir dirOk proper
        have found' : lookupChildType v p name = some (r.listed.inode, ftDir) := by
          rw [found, childType]
          rfl
        simp only [released]
        cases done with
        | false =>
          exact ⟨.io, v3, W, rfl, final, .inr ⟨p, name, _, looked, proper, found', effect, childType, dropped,
            fun done => by cases done⟩⟩
        | true =>
          obtain ⟨_, v4, counted, final⟩ := final.updateCounts (shows.has.inodeGroup_known (ok.isInode child)) 0 0 (-1)
          exact ⟨.ok, v4, W, by simp only [counted], final,
            .inr ⟨p, name, _, looked, proper, found', effect, childType, dropped, fun _ => gone' rfl⟩⟩
    · simp only [found, ne_eq, childType, not_false_eq_true, if_true]
      exact shows.fails (by decide) (.refl V)

end Volume.Shows

end GinnOS.Ext2
