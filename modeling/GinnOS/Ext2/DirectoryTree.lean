import GinnOS.Ext2.VolumeRuns

/-! # The tree of directories

`ext2_create_dir`, `ext2_remove_dir` and `ext2_rename` keep every directory in the
tree, with one parent and the right `..`, as long as no directory moves below
itself and no directory is removed that has entries behind its direct blocks
(`directories_stay_tree`).  The driver checks neither.
-/

namespace GinnOS.Ext2

open Lib Lib.Buf List Image

def View.DirsReached (V : View) : Prop :=
  ∀ i, i ∈ V.usedInodes → inodeIsDir (V.inode i) = true → i ∈ V.reachable

/-- The directories form a tree, and `..` names the parent. -/
structure View.DirectoryTree (V : View) : Prop where
  reached : V.DirsReached
  parent : ∀ c, c ∈ V.reachable → inodeIsDir (V.inode c) = true → c ≠ inodeRoot →
    ∃ p, p ∈ V.reachable ∧ ((V.listing p).map (·.inode)).count c = 1 ∧
      (∀ d, d ∈ V.reachable → ∀ e, e ∈ V.listing d → e.inode = c → d = p) ∧ V.up c = p
  root : V.up inodeRoot = inodeRoot ∧
    ∀ d, d ∈ V.reachable → ∀ e, e ∈ V.listing d → e.inode ≠ inodeRoot

theorem Consistent.directoryTree {L : Layout} {files : Bool} {V : View} (ok : Consistent L files V)
    (reached : V.DirsReached) : V.DirectoryTree where
  reached := reached
  parent c known isDir other := by
    have single : (V.hierarchy files).single c := (V.hierarchy files).dir_single c isDir
    rcases Hierarchy.Reach.parent known with root | ⟨p, reach, child⟩
    · exact absurd root other
    have child : c ∈ (V.listing p).map (·.inode) := child
    have once : ((V.listing p).map (·.inode)).count c ≤ 1 := ok.tree.once p c reach single
    have some := count_pos_iff.mpr child
    refine ⟨p, reach, by omega, ?_, ok.tree.up p c reach isDir child⟩
    rintro d reach' e entry rfl
    exact ok.tree.unique d p e.inode reach' reach single (mem_map_of_mem entry) child
  root := by
    refine ⟨ok.tree.upRoot, fun d reach e entry same => ok.tree.rootless d reach ?_⟩
    change inodeRoot ∈ (V.listing d).map (·.inode)
    rw [← same]
    exact mem_map_of_mem entry

/-! ## One operation -/

namespace View.DirsReached

variable {L : Layout} {V W : View} (reached : V.DirsReached)

include reached

/-- Inodes that cannot be reached are no directories, and stay so. -/
theorem kept (frame : ∀ i, i ∉ V.reachable → W.inode i = V.inode i) {i : Nat} (used : i ∈ V.usedInodes)
    (isDir : inodeIsDir (W.inode i) = true) : i ∈ V.reachable := by
  by_contra outside
  rw [frame i outside] at isDir
  exact outside (reached i used isDir)

theorem added {p : Nat} {e : DirectoryEntry} (change : Added L V W p e)
    (reach : W.reachable = insert e.inode V.reachable) : W.DirsReached := by
  intro i used isDir
  rw [change.usedInodes] at used
  rw [reach]
  by_contra outside
  rcases used with rfl | used
  · exact outside (Set.mem_insert _ _)
  · have out : i ∉ V.reachable := fun known => outside (Set.mem_insert_of_mem _ known)
    rw [change.frame i out outside] at isDir
    exact out (reached i used isDir)

theorem dropped {p : Nat} {e : DirectoryEntry} (change : Dropped L V W p e)
    (reach : W.reachable = V.reachable \ {e.inode}) (free : e.inode ∉ W.usedInodes) : W.DirsReached := by
  intro i used isDir
  rw [reach]
  have frame (j : Nat) (outside : j ∉ V.reachable) := change.frame j outside fun known => outside known.1
  refine ⟨reached.kept frame (change.usedInodes used) isDir, ?_⟩
  rintro rfl
  exact free used

theorem same (frame : ∀ i, i ∉ V.reachable → W.inode i = V.inode i)
    (usedInodes : W.usedInodes = V.usedInodes) (reach : W.reachable = V.reachable) : W.DirsReached := by
  intro i used isDir
  rw [usedInodes] at used
  rw [reach]
  exact reached.kept frame used isDir

end View.DirsReached

/-- The calls on directories, with normalized paths; the directory that is removed has no entry in
any of its blocks, and the new parent is not the renamed inode or below it. -/
def VolumeOp.KeepsTree (L : Layout) (v : Volume) : VolumeOp → Prop
  | .createDir path => Normalized path
  | .removeDir path => Normalized path ∧
    ∀ p name c fileType, lookupParentAndName v path = some (p, name) →
      lookupChildType v p name = some (c, fileType) → (L.view v).listing c = []
  | .rename oldPath newPath => Normalized oldPath ∧ Normalized newPath ∧
    ∀ p name q newName c fileType, lookupParentAndName v oldPath = some (p, name) →
      lookupParentAndName v newPath = some (q, newName) →
      lookupChildType v p name = some (c, fileType) → ¬ ((L.view v).hierarchy false).Below c q
  | _ => False

theorem directoryStep {L : Layout} {v v' : Volume} {op : VolumeOp} {status : Kerr}
    (known : v.Shows L (L.view v) ∧ Consistent L false (L.view v) ∧ (L.view v).DirsReached)
    (allowed : op.KeepsTree L v ∧ (volumeStep v op).1 = .ok) (stepped : volumeStep v op = (status, v')) :
    v'.Shows L (L.view v') ∧ Consistent L false (L.view v') ∧ (L.view v').DirsReached := by
  obtain ⟨shows, ok, reached⟩ := known
  obtain ⟨allowed, success⟩ := allowed
  suffices ∃ status' w W, volumeStep v op = (status', w) ∧ w.Shows L W ∧
      (status' = .ok → Consistent L false W ∧ W.DirsReached) by
    rw [stepped] at success
    obtain ⟨shown, result⟩ :=
      step_view stepped (P := fun status W => status = .ok → Consistent L false W ∧ W.DirsReached) this
    exact ⟨shown, result success⟩
  have failed (s : Kerr) (W : View) (notOk : s ≠ .ok) (_ : Unchanged (L.view v) W) (done : s = .ok) :
      Consistent L false W ∧ W.DirsReached := absurd done notOk
  cases op with
  | createDir path =>
    refine (shows.createDir_cases ok allowed).imp failed ?_
    rintro s W ⟨_, p, name, c, _, _, _, _, added, _⟩ _
    obtain ⟨reach, still⟩ := ok.added added
    exact ⟨still, reached.added added reach⟩
  | removeDir path =>
    obtain ⟨normal, empty⟩ := allowed
    refine (shows.removeDir_cases ok normal).imp failed ?_
    rintro s W ⟨p, name, e, looked, _, found, _, fileType, dropped, free⟩ done
    have entry := dropped.removed.perm.mem_iff.mpr mem_cons_self
    have one : ((L.view v).inode e.inode).isSingle false = true := by
      simp [Inode.isSingle, (ok.typed p dropped.member e entry).dir.mpr fileType]
    have reach := ok.dropped_reach_eq dropped one (empty p name _ _ looked found)
    exact ⟨ok.dropped dropped one, reached.dropped dropped reach (free done)⟩
  | rename oldPath newPath =>
    obtain ⟨normalOld, normalNew, outside⟩ := allowed
    refine (shows.rename_cases ok normalOld normalNew).imp failed ?_
    rintro s W ⟨_, p, q, name, newName, e, looked, lookedNew, _, _, found, _, _, ⟨_, renamed⟩ | ⟨_, moved⟩⟩ _
    · obtain ⟨reach, still⟩ := ok.renamed renamed
      have frame (i : Nat) (out : i ∉ (L.view v).reachable) := renamed.frame i out out
      exact ⟨still, reached.same frame renamed.usedInodes reach⟩
    · have reach := Consistent.moved_reach_eq moved (outside p name q newName _ _ looked lookedNew found)
      exact ⟨ok.moved moved, reached.same moved.frame moved.usedInodes reach⟩
  | createFile | removeFile | write | truncate => exact absurd allowed id

/-! ## Runs -/

/-- Successful calls keep the directories a tree, if no directory moves below itself and none is
removed that has entries. -/
theorem directories_stay_tree {L : Layout} {v v' : Volume} (shows : v.Shows L (L.view v))
    (ok : Consistent L false (L.view v)) (reached : (L.view v).DirsReached)
    {trace : List (VolumeOp × Kerr)}
    (run : Run volumeStep (fun v op => op.KeepsTree L v ∧ (volumeStep v op).1 = .ok) v trace v') :
    v'.Shows L (L.view v') ∧ Consistent L false (L.view v') ∧ (L.view v').DirectoryTree := by
  obtain ⟨shown, still, reached⟩ := run.invariant
    (I := fun v => v.Shows L (L.view v) ∧ Consistent L false (L.view v) ∧ (L.view v).DirsReached)
    directoryStep ⟨shows, ok, reached⟩
  exact ⟨shown, still, still.directoryTree reached⟩

theorem Image.fresh_dirsReached : (layout.view fresh.volume).DirsReached := by
  intro i _ isDir
  rw [view_eq_seen] at isDir
  rw [fresh_isDir isDir]
  exact View.root_reachable

namespace Image

/-- The empty volume after two directories are made, and the first one moves into the second. -/
def oneDir : Kerr × Volume := volumeStep fresh.volume (.createDir [slash, 100])
def twoDirs : Kerr × Volume := volumeStep oneDir.2 (.createDir [slash, 101])
def nestedDirs : Kerr × Volume := volumeStep twoDirs.2 (.rename [slash, 100] [slash, 101, slash, 102])

theorem nestedDirs_run : oneDir.1 = .ok ∧ twoDirs.1 = .ok ∧ nestedDirs.1 = .ok ∧
    lookupParentAndName twoDirs.2 [slash, 100] = some (2, [100]) ∧
    lookupParentAndName twoDirs.2 [slash, 101, slash, 102] = some (12, [102]) ∧
    lookupChildType twoDirs.2 2 [100] = some (11, ftDir) ∧ (seen twoDirs.2).listing 11 = [] := by
  decide +kernel

end Image

theorem directories_stay_tree_sample : Image.nestedDirs.1 = .ok ∧
    (Image.layout.view Image.nestedDirs.2).DirectoryTree := by
  obtain ⟨done1, done2, done3, looked, lookedNew, found, empty⟩ := nestedDirs_run
  have first : Normalized [slash, 100] := .inr ⟨[[100]], by decide, by simp [ProperName, slash, dot], rfl⟩
  have allowed1 : VolumeOp.KeepsTree layout fresh.volume (.createDir [slash, 100]) := first
  have allowed2 : VolumeOp.KeepsTree layout oneDir.2 (.createDir [slash, 101]) :=
    .inr ⟨[[101]], by decide, by simp [ProperName, slash, dot], rfl⟩
  have allowed3 : VolumeOp.KeepsTree layout twoDirs.2
      (.rename [slash, 100] [slash, 101, slash, 102]) := by
    refine ⟨first, .inr ⟨[[101], [102]], by decide, by simp [ProperName, slash, dot], rfl⟩, ?_⟩
    intro p name q newName c fileType source target child below
    rw [looked] at source
    cases source
    rw [lookedNew] at target
    cases target
    rw [found] at child
    cases child
    have stays := Hierarchy.Below.induct (P := (· = 11)) below rfl (by
      rintro d x _ rfl inside
      obtain ⟨e, entry, _⟩ := mem_map.mp inside
      rw [view_eq_seen, empty] at entry
      cases entry)
    cases stays
  exact ⟨done3, (directories_stay_tree fresh.shows (fresh_consistent false)
    fresh_dirsReached (.cons ⟨allowed1, done1⟩ (Prod.mk.eta (p := oneDir)).symm
      (.cons ⟨allowed2, done2⟩ (Prod.mk.eta (p := twoDirs)).symm
        (.cons ⟨allowed3, done3⟩ (Prod.mk.eta (p := nestedDirs)).symm (.nil _))))).2.2⟩

/-- The first directory, renamed to a place inside itself. -/
def Image.belowItself : Kerr × Volume := ext2Rename oneDir.2 [slash, 100] [slash, 100, slash, 101]

theorem Image.belowItself_run : belowItself.1 = .ok ∧ layout.inodeBit belowItself.2 11 = true ∧
    inodeIsDir ((seen belowItself.2).inode 11) = true ∧ (seen belowItself.2).listing inodeRoot = [] := by
  decide +kernel

/-- The empty volume is a tree; a directory is made and renamed to a place inside itself, both with
success; then the directory is in use but cannot be reached any more. -/
theorem directory_moves_below_itself :
    (Image.layout.view Image.fresh.volume).DirectoryTree ∧ Image.oneDir.1 = .ok ∧
      Image.belowItself.1 = .ok ∧ 11 ∈ (Image.layout.view Image.belowItself.2).usedInodes ∧
      inodeIsDir ((Image.layout.view Image.belowItself.2).inode 11) = true ∧
      11 ∉ (Image.layout.view Image.belowItself.2).reachable := by
  obtain ⟨done, used, isDir, empty⟩ := belowItself_run
  rw [view_eq_seen belowItself.2]
  refine ⟨(fresh_consistent false).directoryTree fresh_dirsReached, nestedDirs_run.1, done,
    ⟨by decide, used⟩, isDir, fun reach => ?_⟩
  have stays := Hierarchy.Below.induct (P := (· = inodeRoot)) reach rfl (by
    rintro d x _ rfl inside
    obtain ⟨e, entry, _⟩ := mem_map.mp inside
    rw [empty] at entry
    cases entry)
  cases stays

end GinnOS.Ext2
