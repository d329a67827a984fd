import GinnOS.Ext2.FileRuns
import GinnOS.Ext2.Rename

/-! # A volume over whole runs

The operations on names and on file contents, in any order and whether or not
they succeed, keep a volume consistent (`volume_stays_consistent`).
-/

namespace GinnOS.Ext2

open Lib Lib.Buf View Image
open List hiding Disjoint

variable {L : Layout} {V W : View} {i d : Nat} {v v' : Volume} {op : VolumeOp} {status : Kerr} {files : Bool}
  {S : List Nat}

inductive VolumeOp where
  | createFile (path : List UInt8)
  | createDir (path : List UInt8)
  | removeFile (path : List UInt8)
  | removeDir (path : List UInt8)
  | rename (oldPath newPath : List UInt8)
  | write (inode : Nat) (w : FileWrite)
  | truncate (inode : Nat)

def volumeStep (v : Volume) : VolumeOp → Kerr × Volume
  | .createFile path => ext2CreateFile v path
  | .createDir path => ext2CreateDir v path
  | .removeFile path => ext2RemoveFile v path
  | .removeDir path => ext2RemoveDir v path
  | .rename oldPath newPath => ext2Rename v oldPath newPath
  | .write inode w => ext2WriteFile v inode w.offset w.length w.src
  | .truncate inode => ext2TruncateFile v inode

/-- Paths are normalized, and contents are written through inodes that can be reached. -/
def VolumeOp.Allowed (L : Layout) (v : Volume) : VolumeOp → Prop
  | .createFile path => Normalized path
  | .createDir path => Normalized path
  | .removeFile path => Normalized path
  | .removeDir path => Normalized path
  | .rename oldPath newPath => Normalized oldPath ∧ Normalized newPath
  | .write inode w => inode ∈ (L.view v).reachable ∧ w.offset < 4294967296 ∧ w.length < 4294967296
  | .truncate inode => inode ∈ (L.view v).reachable

/-! ## One operation -/

theorem FileOnly.written (wf : WellFormed L V V.reachable)
    (only : FileOnly L V.reachable i V W) (member : i ∈ V.reachable)
    (regular : inodeIsRegular (V.inode i) = true) : Written L V W i := by
  have isFile : inodeIsDir (V.inode i) = false := by
    simp only [inodeIsRegular, beq_iff_eq] at regular
    simp only [inodeIsDir, regular]
    decide
  refine ⟨⟨wf.fileOnly only isFile, member, only.keeps, only.mode, ?_, ?_⟩, isFile⟩
  rotate_left
  · intro i outside _
    exact only.inodes i fun here => outside (here ▸ member)
  intro isDir
  rw [isFile] at isDir
  cases isDir

namespace Volume.Shows

variable {v : Volume} {L : Layout} {V : View} (shows : v.Shows L V) {files : Bool}
  (ok : Consistent L files V)

include shows ok

/-- `ext2_write_file` on an inode that can be reached. -/
theorem writeFile_cases (member : i ∈ V.reachable) {w : FileWrite}
    (offset : w.offset < 4294967296) :
    ∃ status v' W, Ext2.ext2WriteFile v i w.offset w.length w.src = (status, v') ∧ v'.Shows L W ∧
      (W = V ∨ (inodeIsRegular (V.inode i) = true ∧ 0 < w.length ∧
        Wrote L V.reachable i w.offset w.length w.src V W status)) := by
  have read := shows.readInode (ok.isInode member)
  rcases Nat.eq_zero_or_pos w.length with empty | positive
  · refine ⟨.ok, v, V, ?_, shows, .inl rfl⟩
    rw [Ext2.ext2WriteFile, if_pos empty]
  · cases regular : inodeIsRegular (V.inode i) with
    | false =>
      refine ⟨.io, v, V, ?_, shows, .inl rfl⟩
      simp [Ext2.ext2WriteFile, Nat.ne_of_gt positive, read, regular]
    | true =>
      obtain ⟨status, v', W, written, shown, wrote⟩ :=
        shows.ext2WriteFile ok.wellFormed.owns member regular offset positive w.src
      exact ⟨status, v', W, written, shown, .inr ⟨rfl, positive, wrote⟩⟩

/-- `ext2_truncate_file` on an inode that can be reached. -/
theorem truncateFile_cases (member : i ∈ V.reachable) :
    ∃ status v' W, Ext2.ext2TruncateFile v i = (status, v') ∧ v'.Shows L W ∧
      (W = V ∨ (inodeIsRegular (V.inode i) = true ∧ FileOnly L V.reachable i V W)) := by
  have read := shows.readInode (ok.isInode member)
  cases regular : inodeIsRegular (V.inode i) with
  | false =>
    refine ⟨.io, v, V, ?_, shows, .inl rfl⟩
    simp [Ext2.ext2TruncateFile, read, regular]
  | true =>
    obtain ⟨v', cut, shown, only, _⟩ := shows.ext2TruncateFile ok.wellFormed.owns member regular
    exact ⟨.ok, v', _, cut, shown, .inr ⟨rfl, only⟩⟩

end Volume.Shows

/-- The entry that lookup finds may have one place only, when it has a type of the operation. -/
theorem Consistent.found_single (ok : Consistent L true V) {p : Nat}
    {e : DirectoryEntry} (dropped : Dropped L V W p e)
    (fileType : e.fileType = ftRegFile ∨ e.fileType = ftDir) :
    (V.inode e.inode).isSingle true = true := by
  have entry : e ∈ V.listing p := dropped.removed.perm.mem_iff.mpr mem_cons_self
  have typed := ok.typed p dropped.member e entry
  rcases fileType with file | dir
  · simp [Inode.isSingle, typed.regular.mpr file]
  · simp [Inode.isSingle, typed.dir.mpr dir]

theorem step_view
    (stepped : volumeStep v op = (status, v')) {P : Kerr → View → Prop}
    (found : ∃ status' w W, volumeStep v op = (status', w) ∧ w.Shows L W ∧ P status' W) :
    v'.Shows L (L.view v') ∧ P status (L.view v') := by
  obtain ⟨status', w, W, same, shown, result⟩ := found
  rw [stepped, Prod.mk.injEq] at same
  rw [same.1, same.2, shown.view_eq]
  exact ⟨shown, result⟩

theorem volumeStep_consistent
    (known : v.Shows L (L.view v) ∧ Consistent L true (L.view v)) (allowed : op.Allowed L v)
    (stepped : volumeStep v op = (status, v')) :
    v'.Shows L (L.view v') ∧ Consistent L true (L.view v') := by
  obtain ⟨shows, ok⟩ := known
  refine step_view stepped (P := fun _ W => Consistent L true W) ?_
  have failed (s : Kerr) (W : View) (_ : s ≠ .ok) (same : Unchanged (L.view v) W) : Consistent L true W := (ok.unchanged same).2
  cases op with
  | createFile path =>
    refine (shows.createFile_cases ok allowed).imp failed ?_
    rintro s W ⟨_, p, name, c, _, _, _, _, added, _⟩
    exact (ok.added added).2
  | createDir path =>
    refine (shows.createDir_cases ok allowed).imp failed ?_
    rintro s W ⟨_, p, name, c, _, _, _, _, added, _⟩
    exact (ok.added added).2
  | removeFile path =>
    refine (shows.removeFile_cases ok allowed).imp failed ?_
    rintro s W ⟨p, name, e, _, _, _, _, fileType, dropped, _⟩
    exact ok.dropped dropped (ok.found_single dropped (.inl fileType))
  | removeDir path =>
    refine (shows.removeDir_cases ok allowed).imp failed ?_
    rintro s W ⟨p, name, e, _, _, _, _, fileType, dropped, _⟩
    exact ok.dropped dropped (ok.found_single dropped (.inr fileType))
  | rename oldPath newPath =>
    refine (shows.rename_cases ok allowed.1 allowed.2).imp failed ?_
    rintro s W ⟨_, p, q, name, newName, e, _, _, _, _, _, _, _, ⟨_, renamed⟩ | ⟨_, moved⟩⟩
    · exact (ok.renamed renamed).2
    · exact ok.moved moved
  | write i w =>
    obtain ⟨member, offset, _⟩ := allowed
    obtain ⟨s, v1, W, result, shown, rfl | ⟨regular, _, wrote⟩⟩ :=
      shows.writeFile_cases ok member (w := w) offset
    · exact ⟨s, v1, _, result, shown, ok⟩
    · exact ⟨s, v1, W, result, shown,
        (ok.written (wrote.toFileOnly.written ok.wellFormed member regular)).2⟩
  | truncate i =>
    obtain ⟨s, v1, W, result, shown, rfl | ⟨regular, only⟩⟩ := shows.truncateFile_cases ok allowed
    · exact ⟨s, v1, _, result, shown, ok⟩
    · exact ⟨s, v1, W, result, shown, (ok.written (only.written ok.wellFormed allowed regular)).2⟩

/-! ## The empty volume -/

namespace Image

theorem lt_of_isDir (isDir : inodeIsDir ((seen v).inode i) = true) : i < 17 := by
  by_contra outside
  rw [show (seen v).inode i = Inode.zero from if_neg (by omega)] at isDir
  cases isDir

theorem mem_of_reachable (root : inodeRoot ∈ S)
    (closed : ∀ d, d ∈ S → ∀ e, e ∈ (seen v).listing d → e.inode ∈ S) (reach : i ∈ (seen v).reachable) : i ∈ S := by
  refine Hierarchy.Below.induct (P := (· ∈ S)) reach root ?_
  intro d c _ known child
  obtain ⟨e, entry, rfl⟩ := mem_map.mp child
  exact closed d known e entry

theorem fresh_isDir (isDir : inodeIsDir ((seen fresh.volume).inode i) = true) : i = inodeRoot := by
  have only : ∀ i, i < 17 → inodeIsDir ((seen fresh.volume).inode i) = true → i = inodeRoot := by decide +kernel
  exact only i (lt_of_isDir isDir) isDir

theorem fresh_listing (d : Nat) : (seen fresh.volume).listing d = [] := by
  cases isDir : inodeIsDir ((seen fresh.volume).inode d) with
  | false => exact listing_file isDir
  | true =>
    rw [fresh_isDir isDir]
    decide +kernel

theorem fresh_reachable : (seen fresh.volume).reachable = {i | i ∈ [inodeRoot]} := by
  ext i
  constructor
  · refine mem_of_reachable mem_cons_self fun d _ e entry => ?_
    rw [fresh_listing] at entry
    cases entry
  · intro root
    rw [mem_singleton.mp root]
    exact root_reachable

theorem fresh_consistent (files : Bool) : Consistent layout files (layout.view fresh.volume) := by
  rw [view_eq_seen]
  have records : (seen fresh.volume).dirRecords inodeRoot =
      [⟨2, 12, ftDir, [dot]⟩, ⟨2, 1012, ftDir, [dot, dot]⟩] := by decide +kernel
  have none (d : Nat) : ((seen fresh.volume).hierarchy files).children d = [] := by
    simp only [hierarchy, fresh_listing, map_nil]
  refine ⟨⟨?_, ?_, ?_⟩, ⟨?_, ?_, ?_, ?_, ?_, ?_⟩, ?_⟩
  · rw [fresh_reachable, ← view_eq_seen]
    exact owns (by decide +kernel)
  · rw [fresh_reachable]
    intro i root
    rw [mem_singleton.mp root]
    exact ⟨by decide, by decide +kernel⟩
  · intro d _ isDir
    obtain rfl := fresh_isDir isDir
    refine ⟨shaped (by decide +kernel), _, _, [], records, rfl, rfl, rfl, rfl, rfl, rfl, rfl, rfl, ?_⟩
    intro r known
    cases known
  · change inodeIsDir ((seen fresh.volume).inode inodeRoot) = true
    decide +kernel
  · intro d _ root
    rw [none] at root
    cases root
  · intro d c _ _
    rw [none]
    exact Nat.zero_le 1
  · intro d d' c _ _ _ child
    rw [none] at child
    cases child
  · simp only [hierarchy, up, records]
    rfl
  · intro d c _ _ child
    rw [none] at child
    cases child
  · intro d _ e entry
    rw [fresh_listing] at entry
    cases entry

end Image

/-! ## Runs -/

/-- The bits, pointers and types of what can be reached agree: blocks of files and directories are
marked used and have one owner, and every entry, `.` and `..` included, names an inode that is
marked used and has the type of the entry. -/
structure View.Structural (V : View) : Prop where
  marked : ∀ i, i ∈ V.reachable → ∀ b, b ∈ V.owned i → b ∈ V.usedBlocks
  once : ∀ i, i ∈ V.reachable → (V.owned i).Nodup
  apart : ∀ i, i ∈ V.reachable → ∀ j, j ∈ V.reachable → i ≠ j → ∀ b, b ∈ V.owned i → b ∉ V.owned j
  entries : ∀ d, d ∈ V.reachable → inodeIsDir (V.inode d) = true → ∀ r, r ∈ V.dirRecords d →
    r.live = true → r.inode.toNat ∈ V.usedInodes ∧ Matches (V.inode r.inode.toNat) r.fileType

theorem Matches.directory {x : Inode} (isDir : inodeIsDir x = true) : Matches x ftDir := by
  simp only [inodeIsDir, beq_iff_eq] at isDir
  constructor
  · simp [inodeIsDir, isDir]
  · simp only [inodeIsRegular, isDir]
    decide

theorem Consistent.up_isDir (ok : Consistent L files V)
    (known : d ∈ V.reachable) (isDir : inodeIsDir (V.inode d) = true) :
    inodeIsDir (V.inode (V.up d)) = true := by
  rcases Hierarchy.Reach.parent known with rfl | ⟨p, reach, child⟩
  · have root : V.up inodeRoot = inodeRoot := ok.tree.upRoot
    rw [show (V.hierarchy true).root = inodeRoot from rfl, root]
    exact ok.tree.rootDir
  · have up : V.up d = p := ok.tree.up p d reach isDir child
    rw [up]
    by_contra file
    have none : V.listing p = [] := listing_file (by simpa using file)
    have child : d ∈ (V.listing p).map (·.inode) := child
    rw [none] at child
    cases child

theorem Consistent.structural (ok : Consistent L files V) :
    V.Structural where
  marked := ok.wellFormed.owns.used
  once := ok.wellFormed.owns.nodup
  apart := ok.wellFormed.owns.apart
  entries d known isDir r record live := by
    refine ⟨ok.wellFormed.used (ok.record_reachable known isDir record live), ?_⟩
    obtain ⟨own, up, body, records, form⟩ := (ok.dirOk known isDir).directory
    rw [records] at record
    rcases mem_cons.mp record with rfl | record
    · rw [form.ownInode, form.ownType]
      exact .directory isDir
    rcases mem_cons.mp record with rfl | record
    · have parent := ok.up_isDir known isDir
      rw [up, records] at parent
      rw [form.upType]
      exact .directory parent
    · refine ok.typed d known r.listed ?_
      rw [listing_dir isDir, records]
      exact mem_map_of_mem (mem_filter.mpr ⟨record, live⟩)

/-- Whatever is done to names and contents, and whether or not it succeeds, a consistent volume stays
consistent. -/
theorem volume_stays_consistent {L : Layout} {v v' : Volume} (shows : v.Shows L (L.view v))
    (ok : Consistent L true (L.view v)) {trace : List (VolumeOp × Kerr)}
    (run : Run volumeStep (fun v op => op.Allowed L v) v trace v') :
    v'.Shows L (L.view v') ∧ Consistent L true (L.view v') ∧ (L.view v').Structural := by
  obtain ⟨shown, still⟩ := run.invariant
    (I := fun v => v.Shows L (L.view v) ∧ Consistent L true (L.view v)) volumeStep_consistent ⟨shows, ok⟩
  exact ⟨shown, still, still.structural⟩

/-- A run that creates a directory, writes a file in it, moves the file out and removes both. -/
def sampleRun : List VolumeOp :=
  [.createDir [slash, 100], .createFile [slash, 100, slash, 97], .rename [slash, 100, slash, 97] [slash, 98],
    .write 12 ⟨0, 3, ofList [1, 2, 3]⟩, .removeDir [slash, 100], .removeFile [slash, 98]]

theorem volume_stays_consistent_sample :
    (execute volumeStep Image.fresh.volume sampleRun).1.map Prod.snd = [.ok, .ok, .ok, .ok, .ok, .ok] ∧
      (Image.layout.view (execute volumeStep Image.fresh.volume sampleRun).2).Structural := by
  have normal (c : UInt8) (plain : c ≠ slash) (other : c ≠ dot) : Normalized [slash, c] := by
    refine .inr ⟨[[c]], by simp, ?_, rfl⟩
    simp [ProperName, plain.symm, other]
  have deep : Normalized [slash, 100, slash, 97] := .inr ⟨[[100], [97]], by simp, by
    simp [ProperName]
    decide, rfl⟩
  refine ⟨by decide +kernel, (volume_stays_consistent fresh.shows (fresh_consistent true)
    (Run.of_execute sampleRun ⟨normal 100 (by decide) (by decide), deep,
      ⟨deep, normal 98 (by decide) (by decide)⟩, ⟨?_, by decide, by decide⟩,
      normal 100 (by decide) (by decide), normal 98 (by decide) (by decide), trivial⟩)).2.2⟩
  refine entry_reachable (e := ⟨12, ftRegFile, 0, [98]⟩) root_reachable ?_
  rw [view_eq_seen]
  decide +kernel

/-! ## Calls that fail -/

namespace Image

/-- The check of `View.Structural` on a volume of the sample layout, for a list of inodes that is
closed under entries. -/
theorem structural (checked : inodeRoot ∈ S ∧
      (∀ d, d ∈ S → ∀ e, e ∈ (seen v).listing d → e.inode ∈ S) ∧
      (∀ b, b ∈ S.flatMap (seen v).owned → (1 ≤ b ∧ b < 32) ∧ layout.blockBit v b = true) ∧
      (S.flatMap (seen v).owned).Nodup ∧
      ∀ d, d ∈ S → ∀ r, r ∈ (seen v).dirRecords d → r.live = true →
        ((1 ≤ r.inode.toNat ∧ r.inode.toNat ≤ 16) ∧ layout.inodeBit v r.inode.toNat = true) ∧
          Matches ((seen v).inode r.inode.toNat) r.fileType ∨ inodeIsDir ((seen v).inode d) = false) :
    (layout.view v).Structural := by
  obtain ⟨root, closed, marked, nodup, entries⟩ := checked
  rw [view_eq_seen]
  have member {i : Nat} (reach : i ∈ (seen v).reachable) : i ∈ S := mem_of_reachable root closed reach
  obtain ⟨once, disjoint⟩ := nodup_flatMap.mp nodup
  refine ⟨?_, fun i reach => once i (member reach), ?_, ?_⟩
  · intro i reach b known
    exact marked b (mem_flatMap.mpr ⟨i, member reach, known⟩)
  · intro i reach j reach' other b known known'
    have symmetric : Std.Symm (Function.onFun List.Disjoint (seen v).owned) :=
      ⟨fun _ _ apart => List.Disjoint.symm apart⟩
    exact disjoint.forall (member reach) (member reach') other known known'
  · intro d reach isDir r record live
    rcases entries d (member reach) r record live with right | file
    · exact right
    · rw [isDir] at file
      cases file

/-- The inode of a directory of one block. -/
def directory (block : Nat) : Inode :=
  Inode.setPtr { Inode.zero with iMode := 0x41ED, iLinksCount := 2, iSize := 1024, iBlocks := 2 } 0 block

/-- A root directory with two entries `a` and `b`. -/
def rootBlock (a b : Nat) (fileType : UInt8) : Buf :=
  let one := insertEntry (put16 (fresh.blocks 7) (12 + 4) 12) 24 1000 a [97] fileType
  insertEntry (put16 one (24 + 4) 12) 36 988 b [98] fileType

/-- One directory, entered as `/a` and as `/b`. -/
def twoNames : Image where
  blockBits := [0xff]
  inodeBits := [0xff, 0x07]
  freeBlocks := 23
  freeInodes := 5
  inodes i := if i = 11 then directory 8 else fresh.inodes i
  blocks b := if b = 7 then rootBlock 11 11 ftDir else if b = 8 then initialDirectoryBlock 1024 11 2 else fun _ => 0

/-- Two directories `/a` and `/b`, where `..` of the second names the first. -/
def wrongParent : Image where
  blockBits := [0xff, 0x01]
  inodeBits := [0xff, 0x0f]
  freeBlocks := 22
  freeInodes := 4
  inodes i := if i = 11 then directory 8 else if i = 12 then directory 9 else fresh.inodes i
  blocks b :=
    if b = 7 then rootBlock 11 12 ftDir
    else if b = 8 then initialDirectoryBlock 1024 11 2
    else if b = 9 then initialDirectoryBlock 1024 12 11
    else fun _ => 0

/-- Two empty files `/a` and `/b`; block 6, which holds part of the inode table, is not marked. -/
def looseTable : Image where
  blockBits := [0x5f]
  inodeBits := [0xff, 0x0f]
  freeBlocks := 25
  freeInodes := 4
  inodes i := if i = 11 ∨ i = 12 then setupNewFileInode else fresh.inodes i
  blocks b := if b = 7 then rootBlock 11 12 ftRegFile else fun _ => 0

theorem not_structural {r : Rec} (reach : d ∈ (seen v).reachable)
    (checked : inodeIsDir ((seen v).inode d) = true ∧ r ∈ (seen v).dirRecords d ∧ r.live = true ∧
      layout.inodeBit v r.inode.toNat = false) : ¬ (layout.view v).Structural := by
  obtain ⟨isDir, record, live, clear⟩ := checked
  rw [view_eq_seen]
  intro structural
  have used := (structural.entries d reach isDir r record live).1.2
  rw [clear] at used
  cases used

end Image

/-- Three volumes whose bits, pointers and types agree, until one call that succeeds: a directory
with two entries is removed through one of them, a directory is removed that another one names as
its parent, and a file is written while a block of the inode table counts as free. -/
theorem agreement_alone_is_not_kept :
    let unlinked := ext2RemoveDir Image.twoNames.volume [slash, 97]
    let orphaned := ext2RemoveDir Image.wrongParent.volume [slash, 97]
    let overwritten := ext2WriteFile Image.looseTable.volume 11 384 128
      (ofList (setupNewFileInode.setPtr 0 20).encode)
    ((Image.layout.view Image.twoNames.volume).Structural ∧ unlinked.1 = .ok ∧
        ¬ (Image.layout.view unlinked.2).Structural) ∧
      ((Image.layout.view Image.wrongParent.volume).Structural ∧ orphaned.1 = .ok ∧
        ¬ (Image.layout.view orphaned.2).Structural) ∧
      ((Image.layout.view Image.looseTable.volume).Structural ∧ overwritten.1 = .ok ∧
        ¬ (Image.layout.view overwritten.2).Structural) := by
  refine ⟨⟨?_, by decide +kernel, ?_⟩, ⟨?_, by decide +kernel, ?_⟩, ?_, by decide +kernel, ?_⟩
  · exact structural (S := [2, 11]) (by decide +kernel)
  · exact not_structural (r := ⟨11, 988, ftDir, [98]⟩) root_reachable (by decide +kernel)
  · exact structural (S := [2, 11, 12]) (by decide +kernel)
  · refine not_structural (d := 12) (r := ⟨11, 1012, ftDir, [dot, dot]⟩) ?_ (by decide +kernel)
    exact entry_reachable (e := ⟨12, ftDir, 0, [98]⟩) root_reachable (by decide +kernel)
  · exact structural (S := [2, 11, 12]) (by decide +kernel)
  · -- The data that is written makes inode 12 refer to block 20, which is free.
    rw [view_eq_seen]
    intro structural
    have used := structural.marked 12
      (entry_reachable (e := ⟨12, ftRegFile, 0, [98]⟩) root_reachable (by decide +kernel)) 20
      (by decide +kernel)
    exact absurd used.2 (by decide +kernel)

end GinnOS.Ext2
