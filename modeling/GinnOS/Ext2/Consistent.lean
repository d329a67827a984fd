import GinnOS.Lib.Hierarchy
import GinnOS.Ext2.Directories

/-! # Consistent volumes

A volume is consistent when the directories, read from the root, form a tree of
names over inodes and blocks that belong to them (`Consistent`).  The operations
on names change such a volume in five ways: not at all (`Unchanged`), by one new
entry (`Added`), by one entry less (`Dropped`), by an entry that moves to another
directory (`Moved`) or gets another name (`Renamed`).  Each of them keeps it
consistent, which is where the rules of `Lib.Hierarchy` are used.
-/

namespace GinnOS.Ext2

open Lib Lib.Buf List View

variable {d i b p : Nat} {e e' : DirectoryEntry}

/-- The inodes that may have one entry only: directories, and with `files` also regular files. -/
def Inode.isSingle (files : Bool) (x : Inode) : Bool := inodeIsDir x || (files && inodeIsRegular x)

/-- The type in an entry is that of the inode. -/
structure Matches (x : Inode) (fileType : UInt8) : Prop where
  dir : inodeIsDir x = true ↔ fileType = ftDir
  regular : inodeIsRegular x = true ↔ fileType = ftRegFile

instance (x : Inode) (fileType : UInt8) : Decidable (Matches x fileType) :=
  decidable_of_iff ((inodeIsDir x = true ↔ fileType = ftDir) ∧
    (inodeIsRegular x = true ↔ fileType = ftRegFile)) ⟨fun h => ⟨h.1, h.2⟩, fun h => ⟨h.1, h.2⟩⟩

namespace View

/-- The names of a volume. -/
def hierarchy (files : Bool) (V : View) : Hierarchy Nat where
  root := inodeRoot
  children d := (V.listing d).map (·.inode)
  up := V.up
  single i := (V.inode i).isSingle files = true
  dir i := inodeIsDir (V.inode i) = true
  dir_single i isDir := by simp [Inode.isSingle, isDir]

def reachable (V : View) : Set Nat := {i | (V.hierarchy true).Reach i}

variable {V : View} (files : Bool)

theorem root_reachable : inodeRoot ∈ V.reachable := (V.hierarchy true).reach_root

theorem entry_reachable (reached : d ∈ V.reachable)
    (entry : e ∈ V.listing d) : e.inode ∈ V.reachable :=
  Hierarchy.Reach.child reached (mem_map_of_mem entry)

end View

/-- Blocks, inodes and directories of the inodes in `T` are in order. -/
structure WellFormed (L : Layout) (V : View) (T : Set Nat) : Prop where
  owns : L.Owns V T
  used : T ⊆ V.usedInodes
  dirs : ∀ d, d ∈ T → inodeIsDir (V.inode d) = true → V.DirOk d

/-- What can be reached is in order and forms a tree, and the entries tell the right types. -/
structure Consistent (L : Layout) (files : Bool) (V : View) : Prop where
  wellFormed : WellFormed L V V.reachable
  tree : (V.hierarchy files).Tree
  typed : ∀ d, d ∈ V.reachable → ∀ e, e ∈ V.listing d → Matches (V.inode e.inode) e.fileType

namespace WellFormed

variable {L : Layout} {V W : View} {T : Set Nat} (wf : WellFormed L V T)

include wf

theorem mono {T' : Set Nat} (subset : T' ⊆ T) : WellFormed L V T' :=
  ⟨wf.owns.mono subset, fun _ known => wf.used (subset known), fun d known => wf.dirs d (subset known)⟩

theorem keep (keeps : V.Keeps W T) (blocks : V.usedBlocks ⊆ W.usedBlocks)
    (inodes : V.usedInodes ⊆ W.usedInodes) : WellFormed L W T where
  owns := wf.owns.keep keeps blocks
  used _ known := inodes (wf.used known)
  dirs d known isDir := by
    rw [keeps.isDir_eq known] at isDir
    exact keeps.dirOk known isDir (wf.dirs d known isDir)

theorem dirOnly (only : DirOnly L T d V W) : WellFormed L W T where
  owns := only.owns
  used i known := by
    rw [only.usedInodes]
    exact wf.used known
  dirs e known isDir := by
    by_cases here : e = d
    · rw [here]
      exact only.ok
    · rw [only.keeps.isDir_eq ⟨known, here⟩] at isDir
      exact only.keeps.dirOk ⟨known, here⟩ isDir (wf.dirs e known isDir)

theorem fileOnly (only : FileOnly L T i V W) (isFile : inodeIsDir (V.inode i) = false) :
    WellFormed L W T where
  owns := only.owns
  used j known := by
    rw [only.usedInodes]
    exact wf.used known
  dirs d known isDir := by
    by_cases here : d = i
    · have same : inodeIsDir (W.inode i) = inodeIsDir (V.inode i) := by simp [inodeIsDir, only.mode]
      rw [here, same, isFile] at isDir
      cases isDir
    · rw [only.keeps.isDir_eq ⟨known, here⟩] at isDir
      exact only.keeps.dirOk ⟨known, here⟩ isDir (wf.dirs d known isDir)

theorem enter {c : Nat} (keeps : V.Keeps W T) (blocks : V.usedBlocks ⊆ W.usedBlocks)
    (inodes : insert c V.usedInodes ⊆ W.usedInodes) (inside : L.IsInode c) (fresh : c ∉ T)
    (mine : ∀ b, b ∈ W.owned c → L.IsData b ∧ b ∈ W.usedBlocks ∧ ∀ j, j ∈ T → b ∉ V.owned j)
    (nodup : (W.owned c).Nodup) (ok : inodeIsDir (W.inode c) = true → W.DirOk c) :
    WellFormed L W (insert c T) where
  owns := wf.owns.change (keeps.mono Set.sdiff_subset) blocks inside (fun b known => .inr (mine b known))
    nodup
  used := by
    rintro i (rfl | known)
    · exact inodes (Set.mem_insert _ _)
    · exact inodes (Set.mem_insert_of_mem _ (wf.used known))
  dirs := by
    rintro d (rfl | known) isDir
    · exact ok isDir
    · rw [keeps.isDir_eq known] at isDir
      exact keeps.dirOk known isDir (wf.dirs d known isDir)

end WellFormed

/-! ## Changes -/

theorem Matches.congr {x y : Inode} {fileType : UInt8} (right : Matches x fileType)
    (mode : y.iMode = x.iMode) : Matches y fileType := by
  obtain ⟨dir, regular⟩ := right
  constructor
  · rw [← dir, inodeIsDir, inodeIsDir, mode]
  · rw [← regular, inodeIsRegular, inodeIsRegular, mode]

/-- Nothing that can be reached changes, and nothing is freed. -/
structure Unchanged (V W : View) : Prop where
  keeps : V.Keeps W V.reachable
  blocks : V.usedBlocks ⊆ W.usedBlocks
  inodes : V.usedInodes ⊆ W.usedInodes

namespace Unchanged

theorem refl (V : View) : Unchanged V V := ⟨.refl _ _, subset_rfl, subset_rfl⟩

variable {V W : View} (same : Unchanged V W)

include same

theorem useBlock (b : Nat) : Unchanged V (W.useBlock b) where
  keeps := same.keeps.trans (.of_eq rfl (fun _ _ => rfl) fun _ _ _ _ => rfl)
  blocks := same.blocks.trans (Set.subset_insert _ _)
  inodes := same.inodes

theorem useInode (i : Nat) : Unchanged V (W.useInode i) where
  keeps := same.keeps.trans (.of_eq rfl (fun _ _ => rfl) fun _ _ _ _ => rfl)
  blocks := same.blocks
  inodes := same.inodes.trans (Set.subset_insert _ _)

theorem freeBlock (unused : b ∉ V.usedBlocks) : Unchanged V (W.freeBlock b) where
  keeps := same.keeps.trans (.of_eq rfl (fun _ _ => rfl) fun _ _ _ _ => rfl)
  blocks _ used := ⟨same.blocks used, fun here => unused (here ▸ used)⟩
  inodes := same.inodes

theorem freeInode (unused : i ∉ V.usedInodes) : Unchanged V (W.freeInode i) where
  keeps := same.keeps.trans (.of_eq rfl (fun _ _ => rfl) fun _ _ _ _ => rfl)
  blocks := same.blocks
  inodes _ used := ⟨same.inodes used, fun here => unused (here ▸ used)⟩

theorem setInode (fresh : i ∉ V.reachable) (x : Inode) : Unchanged V (W.setInode i x) where
  keeps := same.keeps.trans (.of_eq rfl
    (fun _ known => setInode_other fun here => fresh (here ▸ known)) fun _ _ _ _ => rfl)
  blocks := same.blocks
  inodes := same.inodes

theorem setBlock (fresh : ∀ i, i ∈ V.reachable → b ∉ V.owned i) (bytes : Buf) :
    Unchanged V (W.setBlock b bytes) where
  keeps := same.keeps.trans (.of_eq rfl (fun _ _ => rfl) fun i known _ owned =>
    setBlock_other fun here => fresh i known (same.keeps.owned known ▸ here ▸ owned))
  blocks := same.blocks
  inodes := same.inodes

end Unchanged

/-- Of what can be reached, only `d` changes; what is in `T` is in order afterwards.  A directory does
not grow beyond its direct pointers. -/
structure Touches (L : Layout) (V W : View) (T : Set Nat) (d : Nat) : Prop where
  wellFormed : WellFormed L W T
  member : d ∈ V.reachable
  others : V.Keeps W (V.reachable \ {d})
  mode : (W.inode d).iMode = (V.inode d).iMode
  small : inodeIsDir (V.inode d) = true → V.leafCount (V.inode d) ≤ ndirBlocks →
    W.leafCount (W.inode d) ≤ ndirBlocks
  frame : ∀ i, i ∉ V.reachable → i ∉ T → W.inode i = V.inode i

structure Written (L : Layout) (V W : View) (i : Nat) : Prop extends Touches L V W V.reachable i where
  isFile : inodeIsDir (V.inode i) = false

/-- A new inode is entered as `e` in directory `p`. -/
structure Added (L : Layout) (V W : View) (p : Nat) (e : DirectoryEntry) : Prop extends
    Touches L V W (insert e.inode V.reachable) p where
  fresh : e.inode ∉ V.reachable
  entered : Inserted e (V.listing p) (W.listing p)
  up : W.up p = V.up p
  right : Matches (W.inode e.inode) e.fileType
  leaf : W.listing e.inode = []
  upNew : inodeIsDir (W.inode e.inode) = true → W.up e.inode = p
  smallNew : inodeIsDir (W.inode e.inode) = true → W.leafCount (W.inode e.inode) ≤ ndirBlocks
  usedInodes : W.usedInodes = insert e.inode V.usedInodes

/-- The entry `e` of directory `p` goes, and its inode is given up. -/
structure Dropped (L : Layout) (V W : View) (p : Nat) (e : DirectoryEntry) : Prop extends
    Touches L V W (V.reachable \ {e.inode}) p where
  removed : Inserted e (W.listing p) (V.listing p)
  up : W.up p = V.up p
  usedInodes : W.usedInodes ⊆ V.usedInodes

/-- The entry `e` of directory `p` becomes `e'`, with the same inode. -/
structure Renamed (L : Layout) (V W : View) (p : Nat) (e e' : DirectoryEntry) : Prop extends
    Touches L V W V.reachable p where
  entries : ∃ rest, (V.listing p).Perm (e :: rest) ∧ (W.listing p).Perm (e' :: rest)
  inode : e'.inode = e.inode
  fileType : e'.fileType = e.fileType
  up : W.up p = V.up p
  usedInodes : W.usedInodes = V.usedInodes

/-- The entry `e` of directory `p` becomes `e'` in directory `q`, with the same inode; if this is a
directory, its parent link follows. -/
structure Moved (L : Layout) (V W : View) (p q : Nat) (e e' : DirectoryEntry) : Prop where
  wellFormed : WellFormed L W V.reachable
  modes : ∀ i, i ∈ V.reachable → (W.inode i).iMode = (V.inode i).iMode
  files : V.Keeps W {i | i ∈ V.reachable ∧ inodeIsDir (V.inode i) = false}
  source : p ∈ V.reachable
  target : q ∈ V.reachable
  apart : p ≠ q
  removed : Inserted e (W.listing p) (V.listing p)
  entered : Inserted e' (V.listing q) (W.listing q)
  others : ∀ d, d ∈ V.reachable → d ≠ p → d ≠ q → W.listing d = V.listing d
  inode : e'.inode = e.inode
  fileType : e'.fileType = e.fileType
  ups : ∀ d, d ∈ V.reachable → inodeIsDir (V.inode d) = true → d ≠ e.inode → W.up d = V.up d
  upMoved : inodeIsDir (V.inode e.inode) = true → W.up e.inode = q
  small : ∀ d, d ∈ V.reachable → inodeIsDir (V.inode d) = true →
    V.leafCount (V.inode d) ≤ ndirBlocks → W.leafCount (W.inode d) ≤ ndirBlocks
  frame : ∀ i, i ∉ V.reachable → W.inode i = V.inode i
  usedInodes : W.usedInodes = V.usedInodes

theorem Inserted.inodes {old new : List DirectoryEntry}
    (inserted : Inserted e old new) :
    (new.map (·.inode)).Perm (e.inode :: old.map (·.inode)) := by
  simpa using inserted.perm.map (·.inode)

theorem sameKinds {V W : View} (files : Bool)
    (modes : ∀ i, i ∈ V.reachable → (W.inode i).iMode = (V.inode i).iMode) :
    Hierarchy.SameKinds (V.hierarchy files) (W.hierarchy files) where
  root := rfl
  single i known := by
    simp only [hierarchy, Inode.isSingle, inodeIsDir, inodeIsRegular, modes i known]
  dir i known := by
    simp only [hierarchy, inodeIsDir, modes i known]

namespace Touches

variable {L : Layout} {V W : View} {T : Set Nat} {d : Nat} (touches : Touches L V W T d)

include touches

theorem modes (i : Nat) (known : i ∈ V.reachable) : (W.inode i).iMode = (V.inode i).iMode := by
  by_cases here : i = d
  · rw [here]
    exact touches.mode
  · exact (touches.others.inodes i ⟨known, here⟩).mode

theorem listing_eq (known : i ∈ V.reachable) (other : i ≠ d) : W.listing i = V.listing i :=
  touches.others.listing_eq ⟨known, other⟩

theorem inodes_perm (i : Nat) (known : i ∈ V.reachable) (other : i ≠ d) :
    ((W.listing i).map (·.inode)).Perm ((V.listing i).map (·.inode)) := by
  rw [touches.listing_eq known other]

theorem ups (same : inodeIsDir (V.inode d) = true → W.up d = V.up d) (i : Nat) (known : i ∈ V.reachable)
    (isDir : inodeIsDir (V.inode i) = true) : W.up i = V.up i := by
  by_cases here : i = d
  · rw [here] at isDir ⊢
    exact same isDir
  · exact touches.others.up_eq ⟨known, here⟩ isDir

end Touches

namespace Consistent

variable {L : Layout} {files : Bool} {V W : View} (ok : Consistent L files V)

include ok

theorem typed_kept (modes : ∀ i, i ∈ V.reachable → (W.inode i).iMode = (V.inode i).iMode)
    (known : d ∈ V.reachable) (entry : e ∈ V.listing d)
    (inode : e'.inode = e.inode) (fileType : e'.fileType = e.fileType) :
    Matches (W.inode e'.inode) e'.fileType := by
  rw [inode, fileType]
  exact (ok.typed d known e entry).congr (modes _ (entry_reachable known entry))

theorem congr (wellFormed : WellFormed L W V.reachable)
    (modes : ∀ i, i ∈ V.reachable → (W.inode i).iMode = (V.inode i).iMode)
    (same : ∀ d, d ∈ V.reachable → ((W.listing d).map (·.inode)).Perm ((V.listing d).map (·.inode)))
    (types : ∀ d, d ∈ V.reachable → ∀ e', e' ∈ W.listing d →
      ∃ e, e ∈ V.listing d ∧ e'.inode = e.inode ∧ e'.fileType = e.fileType)
    (ups : ∀ d, d ∈ V.reachable → inodeIsDir (V.inode d) = true → W.up d = V.up d) :
    W.reachable = V.reachable ∧ Consistent L files W := by
  have reach : W.reachable = V.reachable :=
    Set.ext (Hierarchy.reach_congr (sameKinds true modes) same)
  refine ⟨reach, by rw [reach]; exact wellFormed, ok.tree.congr (sameKinds files modes) same ups, ?_⟩
  intro d known e' entry
  rw [reach] at known
  obtain ⟨e, old, inode, fileType⟩ := types d known e' entry
  exact ok.typed_kept modes known old inode fileType

theorem unchanged (change : Unchanged V W) : W.reachable = V.reachable ∧ Consistent L files W := by
  have listing {d : Nat} (known : d ∈ V.reachable) := change.keeps.listing_eq known
  refine ok.congr (ok.wellFormed.keep change.keeps change.blocks change.inodes)
    (fun i known => (change.keeps.inodes i known).mode) ?_ ?_ fun d known => change.keeps.up_eq known
  · intro d known
    rw [listing known]
  · intro d known e entry
    rw [listing known] at entry
    exact ⟨e, entry, rfl, rfl⟩

theorem written (change : Written L V W i) :
    W.reachable = V.reachable ∧ Consistent L files W := by
  have isFile := change.isFile
  have listing {d : Nat} (known : d ∈ V.reachable) : W.listing d = V.listing d := by
    by_cases here : d = i
    · have still : inodeIsDir (W.inode i) = false := by rw [← isFile, inodeIsDir, inodeIsDir, change.mode]
      rw [here, listing_file isFile, listing_file still]
    · exact change.listing_eq known here
  refine ok.congr change.wellFormed change.modes ?_ ?_
    (change.ups fun isDir => by rw [isFile] at isDir; cases isDir)
  · intro d known
    rw [listing known]
  · intro d known e entry
    rw [listing known] at entry
    exact ⟨e, entry, rfl, rfl⟩

theorem renamed (change : Renamed L V W p e e') :
    W.reachable = V.reachable ∧ Consistent L files W := by
  obtain ⟨rest, old, new⟩ := change.entries
  refine ok.congr change.wellFormed change.modes ?_ ?_ (change.ups fun _ => change.up)
  · intro d known
    by_cases here : d = p
    · have old := old.map (·.inode)
      have new := new.map (·.inode)
      rw [map_cons, change.inode] at new
      rw [here]
      exact new.trans old.symm
    · rw [change.listing_eq known here]
  · intro d known x entry
    by_cases here : d = p
    · rw [here] at entry ⊢
      rcases mem_cons.mp (new.mem_iff.mp entry) with rfl | kept
      · exact ⟨e, old.mem_iff.mpr mem_cons_self, change.inode, change.fileType⟩
      · exact ⟨x, old.mem_iff.mpr (mem_cons_of_mem _ kept), rfl, rfl⟩
    · rw [change.listing_eq known here] at entry
      exact ⟨x, entry, rfl, rfl⟩

theorem added (change : Added L V W p e) :
    W.reachable = insert e.inode V.reachable ∧ Consistent L files W := by
  have leaf : (W.listing e.inode).map (·.inode) = [] := by rw [change.leaf]; rfl
  have reach : W.reachable = insert e.inode V.reachable := by
    ext i
    have := Hierarchy.add_reach (H := V.hierarchy true) (K := W.hierarchy true) change.entered.inodes
      change.inodes_perm (sameKinds true change.modes) change.member leaf i
    rw [Set.mem_insert_iff]
    exact this.trans or_comm
  refine ⟨reach, by rw [reach]; exact change.wellFormed, ?_, ?_⟩
  · exact Hierarchy.Tree.add (H := V.hierarchy files) (K := W.hierarchy files) change.entered.inodes
      change.inodes_perm (sameKinds files change.modes) change.member leaf ok.tree change.fresh
      (change.ups fun _ => change.up) change.upNew
  · intro d known x entry
    rw [reach] at known
    rcases known with rfl | known
    · rw [change.leaf] at entry
      cases entry
    · by_cases here : d = p
      · rw [here] at entry
        rcases mem_cons.mp (change.entered.perm.mem_iff.mp entry) with rfl | old
        · exact change.right
        · exact ok.typed_kept change.modes change.member old rfl rfl
      · rw [change.listing_eq known here] at entry
        exact ok.typed_kept change.modes known entry rfl rfl

section Dropped

variable {p : Nat} {e : DirectoryEntry} (change : Dropped L V W p e)
  (one : (V.inode e.inode).isSingle files = true)

include change one

/-- The inode had one entry, so it is out of reach. -/
theorem dropped_reach (reach : i ∈ W.reachable) : i ∈ V.reachable \ {e.inode} :=
  Hierarchy.drop_reach (H := V.hierarchy files) (K := W.hierarchy files) ok.tree change.member one
    change.removed.inodes change.inodes_perm (sameKinds files change.modes) reach

theorem dropped : Consistent L files W where
  wellFormed := change.wellFormed.mono fun _ reach => ok.dropped_reach change one reach
  tree := Hierarchy.Tree.drop (H := V.hierarchy files) (K := W.hierarchy files) ok.tree change.member one
    change.removed.inodes change.inodes_perm (sameKinds files change.modes)
    (change.ups fun _ => change.up)
  typed d known x entry := by
    have known := (ok.dropped_reach change one known).1
    by_cases here : d = p
    · rw [here] at entry
      have old := change.removed.perm.mem_iff.mpr (mem_cons_of_mem _ entry)
      exact ok.typed_kept change.modes change.member old rfl rfl
    · rw [change.listing_eq known here] at entry
      exact ok.typed_kept change.modes known entry rfl rfl

theorem dropped_reach_eq (leaf : V.listing e.inode = []) : W.reachable = V.reachable \ {e.inode} :=
  Set.ext (Hierarchy.drop_reach_iff (H := V.hierarchy files) (K := W.hierarchy files) ok.tree
    change.member one change.removed.inodes change.inodes_perm (sameKinds files change.modes)
    (by simp only [hierarchy, leaf, map_nil]))

end Dropped

section Moved

variable {p q : Nat} {e e' : DirectoryEntry} (change : Moved L V W p q e e')

include change

omit ok in
theorem moved_entered :
    ((W.listing q).map (·.inode)).Perm (e.inode :: (V.listing q).map (·.inode)) := by
  rw [← change.inode]
  exact change.entered.inodes

omit ok in
theorem moved_others (d : Nat) (known : d ∈ V.reachable) (source : d ≠ p) (target : d ≠ q) :
    ((W.listing d).map (·.inode)).Perm ((V.listing d).map (·.inode)) := by
  rw [change.others d known source target]

omit ok in
theorem moved_reach (reach : i ∈ W.reachable) : i ∈ V.reachable :=
  Hierarchy.move_reach (H := V.hierarchy true) (K := W.hierarchy true) change.source
    change.removed.inodes (moved_entered change) (moved_others change) (sameKinds true change.modes) reach

theorem moved : Consistent L files W where
  wellFormed := change.wellFormed.mono fun _ reach => moved_reach change reach
  tree := Hierarchy.Tree.move (H := V.hierarchy files) (K := W.hierarchy files) ok.tree change.source
    change.target change.apart change.removed.inodes (moved_entered change) (moved_others change)
    (sameKinds files change.modes) change.ups change.upMoved
  typed d known x entry := by
    have known := moved_reach change known
    by_cases source : d = p
    · rw [source] at entry
      have old := change.removed.perm.mem_iff.mpr (mem_cons_of_mem _ entry)
      exact ok.typed_kept change.modes change.source old rfl rfl
    · by_cases target : d = q
      · rw [target] at entry
        rcases mem_cons.mp (change.entered.perm.mem_iff.mp entry) with rfl | old
        · have before := change.removed.perm.mem_iff.mpr mem_cons_self
          exact ok.typed_kept change.modes change.source before change.inode change.fileType
        · exact ok.typed_kept change.modes change.target old rfl rfl
      · rw [change.others d known source target] at entry
        exact ok.typed_kept change.modes known entry rfl rfl

omit ok in
/-- Nothing gets out of reach unless a directory moves below itself. -/
theorem moved_reach_eq (outside : ¬ (V.hierarchy files).Below e.inode q) : W.reachable = V.reachable :=
  Set.ext (Hierarchy.move_reach_iff (H := V.hierarchy files) (K := W.hierarchy files) change.source
    change.target change.removed.inodes (moved_entered change) (moved_others change)
    (sameKinds files change.modes) outside)

end Moved

end Consistent

end GinnOS.Ext2
