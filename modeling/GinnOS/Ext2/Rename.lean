import GinnOS.Ext2.Names

/-! # Renaming

`ext2_rename` changes the name in place if both paths have the same parent and the
record is long enough.  Otherwise it appends an entry with the new name, sets the
parent link of a directory, and removes the old entry.  In a consistent volume
each of these steps succeeds once the entry is appended.
-/

namespace GinnOS.Ext2

open Lib Lib.Buf List View

variable {L : Layout} {V W V1 : View} {p i c q : Nat} {e e' : DirectoryEntry} {y : Inode} {T : Set Nat}

/-- The parent link of `c`, if this is a directory, becomes `q`. -/
structure Relinked (L : Layout) (T : Set Nat) (c q : Nat) (V W : View) : Prop where
  wellFormed : WellFormed L W T
  others : V.Keeps W (T \ {c})
  mode : (W.inode c).iMode = (V.inode c).iMode
  listing : W.listing c = V.listing c
  leafCount : W.leafCount (W.inode c) = V.leafCount (V.inode c)
  up : inodeIsDir (V.inode c) = true → W.up c = q
  file : inodeIsDir (V.inode c) = false → V.Keeps W T
  frame : ∀ i, i ∉ T → W.inode i = V.inode i
  usedInodes : W.usedInodes = V.usedInodes

theorem Renamed.of_update
    (wf : WellFormed L V V.reachable) (member : p ∈ V.reachable) (only : DirOnly L V.reachable p V W)
    (same : W.inode = V.inode) (up : W.up p = V.up p) {front back : List DirectoryEntry}
    (old : V.listing p = front ++ e :: back) (new : W.listing p = front ++ e' :: back)
    (inode : e'.inode = e.inode) (fileType : e'.fileType = e.fileType) : Renamed L V W p e e' := by
  refine ⟨⟨wf.dirOnly only, member, only.keeps, only.mode, ?_, fun i _ _ => by rw [same]⟩,
    ⟨front ++ back, ?_, ?_⟩, inode, fileType, up, only.usedInodes⟩
  · intro _ small
    rw [same, leafCount, only.keeps.blockSize]
    exact small
  · rw [old]
    exact perm_middle
  · rw [new]
    exact perm_middle

theorem Renamed.of_append
    (wf : WellFormed L V V.reachable) (member : p ∈ V.reachable) (known : e ∈ V.listing p)
    (entered : Appended L V.reachable p e' V V1) (only : DirOnly L V.reachable p V1 W)
    (same : W.inode = V1.inode) (up : W.up p = V1.up p)
    (removed : Inserted e (W.listing p) (V1.listing p)) (inode : e'.inode = e.inode)
    (fileType : e'.fileType = e.fileType) : Renamed L V W p e e' := by
  have first := entered.toDirOnly
  refine ⟨⟨(wf.dirOnly first).dirOnly only, member, first.keeps.trans only.keeps, ?_, ?_, ?_⟩, ?_, inode,
    fileType, up.trans entered.up, only.usedInodes.trans first.usedInodes⟩
  · rw [only.mode, first.mode]
  · intro _ small
    rw [same, leafCount, only.keeps.blockSize]
    exact entered.small small
  · intro i outside _
    rw [same, first.inodes i fun here => outside (here ▸ member)]
  · obtain ⟨front, back, split⟩ := append_of_mem known
    refine ⟨front ++ back, ?_, ?_⟩
    · rw [split]
      exact perm_middle
    · have both := removed.perm.symm.trans entered.entered.perm
      rw [split] at both
      exact (both.trans ((perm_middle.cons e').trans (Perm.swap _ _ _))).cons_inv

theorem isDir_of_mode {x : Inode} (mode : y.iMode = x.iMode) : inodeIsDir y = inodeIsDir x := by
  rw [inodeIsDir, inodeIsDir, mode]

theorem FileOnly.modes {d : Nat} (only : FileOnly L T d V W) (known : i ∈ T) : (W.inode i).iMode = (V.inode i).iMode := by
  by_cases here : i = d
  · rw [here]
    exact only.mode
  · exact (only.keeps.inodes i ⟨known, here⟩).mode

theorem Relinked.modes
    (relinked : Relinked L T c q V W) (known : i ∈ T) :
    (W.inode i).iMode = (V.inode i).iMode := by
  by_cases here : i = c
  · rw [here]
    exact relinked.mode
  · exact (relinked.others.inodes i ⟨known, here⟩).mode

theorem Relinked.listing_eq
    (relinked : Relinked L T c q V W) (known : i ∈ T) : W.listing i = V.listing i := by
  by_cases here : i = c
  · rw [here]
    exact relinked.listing
  · exact relinked.others.listing_eq ⟨known, here⟩

/-- The entry is added to `q`, the parent link is set, then the entry of `p` goes. -/
theorem Moved.of_steps {V2 : View}
    (source : p ∈ V.reachable) (target : q ∈ V.reachable) (sourceDir : inodeIsDir (V.inode p) = true)
    (targetDir : inodeIsDir (V.inode q) = true) (apart : p ≠ q) (child : e.inode ∈ V.reachable)
    (other : e.inode ≠ p) (entered : Appended L V.reachable q e' V V1)
    (relinked : Relinked L V.reachable e.inode q V1 V2) (only : DirOnly L V.reachable p V2 W)
    (same : W.inode = V2.inode) (up : W.up p = V2.up p)
    (removed : Inserted e (W.listing p) (V2.listing p)) (inode : e'.inode = e.inode)
    (fileType : e'.fileType = e.fileType) : Moved L V W p q e e' := by
  have first := entered.toDirOnly
  have mode1 {d : Nat} (known : d ∈ V.reachable) := isDir_of_mode (first.modes known)
  have mode2 {d : Nat} (known : d ∈ V.reachable) := isDir_of_mode (relinked.modes known)
  have dir1 {d : Nat} (known : d ∈ V.reachable) (isDir : inodeIsDir (V.inode d) = true) :=
    (mode1 known).trans isDir
  have dir2 {d : Nat} (known : d ∈ V.reachable) (isDir : inodeIsDir (V.inode d) = true) :=
    (mode2 known).trans (dir1 known isDir)
  refine ⟨relinked.wellFormed.dirOnly only, ?_, ?_, source, target, apart, ?_, ?_, ?_, inode, fileType,
    ?_, ?_, ?_, ?_, ?_⟩
  · intro d known
    rw [only.modes known, relinked.modes known, first.modes known]
  · -- A file is none of the directories, and if it is what moves, it has no parent link.
    have subset {d : Nat} (isDir : inodeIsDir (V.inode d) = true) :
        {i | i ∈ V.reachable ∧ inodeIsDir (V.inode i) = false} ⊆ V.reachable \ {d} := by
      rintro i ⟨known, isFile⟩
      refine ⟨known, ?_⟩
      rintro rfl
      rw [isDir] at isFile
      cases isFile
    refine ((first.keeps.mono (subset targetDir)).trans ?_).trans (only.keeps.mono (subset sourceDir))
    by_cases isDir : inodeIsDir (V.inode e.inode) = true
    · exact relinked.others.mono (subset isDir)
    · have isFile : inodeIsDir (V1.inode e.inode) = false := by rw [mode1 child]; simpa using isDir
      exact (relinked.file isFile).mono fun i known => known.1
  · rw [relinked.listing_eq source, first.keeps.listing_eq ⟨source, apart⟩] at removed
    exact removed
  · rw [only.keeps.listing_eq ⟨target, apart.symm⟩, relinked.listing_eq target]
    exact entered.entered
  · intro d known atSource atTarget
    rw [only.keeps.listing_eq ⟨known, atSource⟩, relinked.listing_eq known,
      first.keeps.listing_eq ⟨known, atTarget⟩]
  · intro d known isDir moved
    have last : W.up d = V2.up d := by
      by_cases here : d = p
      · rw [here, up]
      · exact only.keeps.up_eq ⟨known, here⟩ (dir2 known isDir)
    rw [last, relinked.others.up_eq ⟨known, moved⟩ (dir1 known isDir)]
    by_cases here : d = q
    · rw [here, entered.up]
    · exact first.keeps.up_eq ⟨known, here⟩ isDir
  · intro isDir
    rw [only.keeps.up_eq ⟨child, other⟩ (dir2 child isDir)]
    exact relinked.up (dir1 child isDir)
  · intro d known isDir small
    have last : W.leafCount (W.inode d) = V2.leafCount (V2.inode d) := by
      rw [same, leafCount, leafCount, only.keeps.blockSize]
    have middle : V2.leafCount (V2.inode d) = V1.leafCount (V1.inode d) := by
      by_cases here : d = e.inode
      · rw [here]
        exact relinked.leafCount
      · exact relinked.others.leafCount_eq ⟨known, here⟩
    rw [last, middle]
    by_cases here : d = q
    · rw [here] at small ⊢
      exact entered.small small
    · rw [first.keeps.leafCount_eq ⟨known, here⟩]
      exact small
  · intro i outside
    rw [same, relinked.frame i outside, first.inodes i fun here => outside (here ▸ target)]
  · rw [only.usedInodes, relinked.usedInodes, first.usedInodes]

namespace Volume.Shows

variable {v : Volume} {L : Layout} {V : View} (shows : v.Shows L V) {files : Bool}
  (ok : Consistent L files V)

include shows ok

omit ok in
/-- The middle part of `ext2_rename`, when a directory gets another parent. -/
theorem relink_steps {g : Nat} (wf : WellFormed L V T) (child : c ∈ T)
    (childDir : inodeIsDir (V.inode c) = true) (source : p ∈ T) (target : q ∈ T) (apart : p ≠ q)
    {z : Inode} (oldLinks : Inode.Similar (V.inode p) y) (newLinks : Inode.Similar (V.inode q) z)
    (group : g < L.groups) :
    ∃ v1 v' W, updateDirectoryParentLink v c q = (true, v1) ∧
      (updateGroupAndSuperCounts (Ext2.writeInode (Ext2.writeInode v1 p y).2 q z).2 g 0 0 0).2 = v' ∧
      v'.Shows L W ∧ Relinked L T c q V W := by
  have inside := wf.owns.inodes q target
  obtain ⟨v1, V1, linked, shown, only, inodes, up, entries⟩ := shows.updateDirectoryParentLink_eq wf.owns
    child childDir (wf.dirs c child childDir) (L.inode_lt inside) (by have := inside.1; omega)
  obtain ⟨v2, written, shown⟩ := shown.writeInode (wf.owns.inodes p source) y
  obtain ⟨v3, stored, shown⟩ := shown.writeInode inside z
  obtain ⟨_, v4, counted, final⟩ := shown.updateCounts group 0 0 0
  have keeps : V1.Keeps ((V1.setInode p y).setInode q z) Set.univ := by
    refine Keeps.trans (.stamp (by rw [inodes]; exact oldLinks) _) (.stamp ?_ _)
    rw [setInode_other apart.symm, inodes]
    exact newLinks
  have mem : c ∈ Set.univ := Set.mem_univ c
  refine ⟨v1, v4, _, linked, by rw [written, stored, counted], final, ?_, ?_, ?_, ?_, ?_, ?_, ?_, ?_,
    only.usedInodes⟩
  · exact (wf.dirOnly only).keep (keeps.mono (Set.subset_univ _)) subset_rfl subset_rfl
  · exact only.keeps.trans (keeps.mono (Set.subset_univ _))
  · rw [(keeps.inodes c mem).mode, only.mode]
  · rw [keeps.listing_eq mem, entries]
  · rw [keeps.leafCount_eq mem, inodes, leafCount, leafCount, only.keeps.blockSize]
  · intro _
    rw [keeps.up_eq mem only.isDir, up]
  · intro isFile
    rw [childDir] at isFile
    cases isFile
  · intro i outside
    have atTarget : i ≠ q := fun here => outside (here ▸ target)
    have atSource : i ≠ p := fun here => outside (here ▸ source)
    rw [setInode_other atTarget, setInode_other atSource, inodes]

section Last

variable {p q k : Nat} {name newName : List UInt8} {before after : List Rec} {r : Rec}
  (source : p ∈ V.reachable) (sourceDir : inodeIsDir (V.inode p) = true)
  (first : V.First (V.inode p) (Rec.hasName name) k before r after) (proper : ProperName name)
  {V1 V2 : View} {v2 : Volume}

include source sourceDir first proper

omit shows in
/-- The last step of `ext2_rename` inside one directory: lookup passes over the new entry. -/
theorem remove_same (other : newName ≠ name)
    (entered : Appended L V.reachable p { r.listed with name := newName } V V1) (shown : v2.Shows L V1) :
    ∃ v' W, removeDirectoryEntry v2 p name = (true, v') ∧ v'.Shows L W ∧
      Renamed L V W p r.listed { r.listed with name := newName } := by
  have dirOk := ok.dirOk source sourceDir
  have only := entered.toDirOnly
  obtain ⟨k1, before1, r1, after1, first1⟩ := (entered.direct name first.inDirect).first
  obtain ⟨v', W, gone, final, last, inodes, up, removed⟩ :=
    shown.removeDirectoryEntry_found only.owns source only.isDir only.ok first1 proper
  have same : some r1.listed = some r.listed := by
    rw [← first1.find only.isDir only.ok proper, ← first.find sourceDir dirOk proper]
    exact entered.entered.find_eq (by simpa using other)
  rw [Option.some.inj same] at removed
  exact ⟨v', W, gone, final, .of_append ok.wellFormed source (first.mem_listing sourceDir dirOk proper)
    entered last inodes up removed rfl rfl⟩

omit shows in
/-- The last step of `ext2_rename` between two directories. -/
theorem remove_other (target : q ∈ V.reachable) (targetDir : inodeIsDir (V.inode q) = true) (apart : p ≠ q)
    (other : r.inode.toNat ≠ p) (entered : Appended L V.reachable q { r.listed with name := newName } V V1)
    (relinked : Relinked L V.reachable r.inode.toNat q V1 V2) (shown : v2.Shows L V2) :
    ∃ v' W, removeDirectoryEntry v2 p name = (true, v') ∧ v'.Shows L W ∧
      Moved L V W p q r.listed { r.listed with name := newName } := by
  have dirOk := ok.dirOk source sourceDir
  have child := entry_reachable source (first.mem_listing sourceDir dirOk proper)
  have keeps1 := entered.keeps
  have dir1 := (keeps1.isDir_eq ⟨source, apart⟩).trans sourceDir
  have first1 := keeps1.first ⟨source, apart⟩ sourceDir first
  have first2 := relinked.others.first ⟨source, other.symm⟩ dir1 first1
  have dir2 := (relinked.others.isDir_eq ⟨source, other.symm⟩).trans dir1
  obtain ⟨v', W, gone, final, last, inodes, up, removed⟩ := shown.removeDirectoryEntry_found
    relinked.wellFormed.owns source dir2 (relinked.wellFormed.dirs p source dir2) first2 proper
  exact ⟨v', W, gone, final, .of_steps source target sourceDir targetDir apart child other entered relinked
    last inodes up removed rfl rfl⟩

end Last

/-- `ext2_rename`. -/
theorem rename_cases {oldPath newPath : List UInt8} (normalOld : Normalized oldPath)
    (normalNew : Normalized newPath) :
    Outcome L V (ext2Rename v oldPath newPath) fun status W =>
      status = .ok ∧ ∃ p q name newName e, lookupParentAndName v oldPath = some (p, name) ∧
        lookupParentAndName v newPath = some (q, newName) ∧ ProperName name ∧ ProperName newName ∧
        lookupChildType v p name = some (e.inode, e.fileType) ∧
        (V.listing p).find? (·.name == name) = some e ∧ lookupChildType v q newName = none ∧
        ((p = q ∧ Renamed L V W p e { e with name := newName }) ∨
          (p ≠ q ∧ Moved L V W p q e { e with name := newName })) := by
  unfold ext2Rename
  refine shows.at_parent ok normalOld fun p name looked source sourceDir proper =>
    shows.at_parent ok normalNew fun q newName lookedNew target targetDir newProper => ?_
  have sourceOk := ok.dirOk source sourceDir
  rcases shows.lookupChildType_cases ok source sourceDir name with
    ⟨absent, _⟩ | ⟨k, before, r, after, first, found⟩
  · simp only [absent]
    exact shows.fails (by decide) (.refl V)
  have readOld := shows.readInode (ok.isInode source)
  have readNew := shows.readInode (ok.isInode target)
  cases absent : lookupChildType v q newName with
  | some known =>
    simp only [found, readOld, sourceDir, readNew, targetDir, Option.isSome_some, Bool.not_true,
      Bool.false_eq_true, if_false, if_true]
    exact shows.fails (by decide) (.refl V)
  | none =>
  simp only [found, readOld, sourceDir, readNew, targetDir, Option.isSome_none, Bool.not_true,
    Bool.false_eq_true, if_false]
  have entry := first.mem_listing sourceDir sourceOk proper
  have child : r.inode.toNat ∈ V.reachable := entry_reachable source entry
  have inside := ok.isInode child
  have find := first.find sourceDir sourceOk proper
  obtain ⟨done, y, v1, V1, appended, shown, result⟩ :=
    shows.appendOrReplaceDirectoryEntry_cases ok.wellFormed.owns target targetDir
      (ok.dirOk target targetDir) r.inode.toNat r.fileType (L.inode_lt inside)
      (by have := inside.1; omega) newProper
  have full (leaked : V1 = V ∨ ∃ b, V1 = V.useBlock b) : Unchanged V V1 := by
    rcases leaked with rfl | ⟨b, rfl⟩
    · exact .refl _
    · exact (Unchanged.refl V).useBlock b
  by_cases same : p = q
  · subst same
    have other : newName ≠ name := by
      rintro rfl
      rw [absent] at found
      cases found
    simp only [if_true, ne_eq, not_true_eq_false, and_false, if_false]
    rcases shows.updateDirectoryEntryName_found ok.wellFormed.owns source sourceDir sourceOk first proper
      newProper with failed | ⟨v', W, front, back, renamed, shown, only, inodes, up, old, new⟩
    · simp only [failed]
      rcases result with ⟨rfl, rfl, entered⟩ | ⟨rfl, leaked⟩
      · obtain ⟨v', W, gone, final, renamed⟩ :=
          remove_same ok source sourceDir first proper other entered shown
        simp only [appended, gone]
        exact ⟨.ok, v', W, rfl, final,
          .inr ⟨rfl, p, p, name, newName, _, looked, lookedNew, proper, newProper, found, find, absent, .inl ⟨rfl, renamed⟩⟩⟩
      · simp only [appended]
        exact shown.fails (by decide) (full leaked)
    · simp only [renamed]
      refine ⟨.ok, v', W, rfl, shown,
        .inr ⟨rfl, p, p, name, newName, _, looked, lookedNew, proper, newProper, found, find, absent, .inl ⟨rfl, ?_⟩⟩⟩
      exact .of_update ok.wellFormed source only inodes up old new rfl rfl
  · simp only [if_neg same]
    rcases result with ⟨rfl, rfl, entered⟩ | ⟨rfl, leaked⟩
    · have wf1 := ok.wellFormed.dirOnly entered.toDirOnly
      have other : r.inode.toNat ≠ p := by
        intro here
        refine ok.tree.not_self source ((V.hierarchy files).dir_single p sourceDir) ?_
        exact mem_map.mpr ⟨r.listed, entry, here⟩
      have typed := (ok.typed p source _ entry).dir
      have kind : inodeIsDir (V1.inode r.inode.toNat) = inodeIsDir (V.inode r.inode.toNat) :=
        isDir_of_mode (entered.modes child)
      have finish {v2 : Volume} {V2 : View} (relinked : Relinked L V.reachable r.inode.toNat q V1 V2)
          (shown : v2.Shows L V2) :=
        remove_other ok source sourceDir first proper target targetDir same other entered relinked shown
      by_cases isDir : r.fileType = ftDir
      · simp only [appended, if_pos (And.intro isDir same)]
        generalize oldEq : (if (V.inode p).iLinksCount > 0 then _ else V.inode p) = y
        generalize newEq : Inode.mk _ _ _ _ _ _ _ _ _ _ _ _ _ _ _ _ _ _ = z
        have oldLinks : Inode.Similar (V1.inode p) y := by
          rw [entered.inodes p same, ← oldEq]
          split
          · exact ⟨rfl, rfl, fun _ => rfl⟩
          · exact .refl _
        have newLinks : Inode.Similar (V1.inode q) z := by
          rw [← newEq]
          exact ⟨rfl, rfl, fun _ => rfl⟩
        obtain ⟨_, v2, V2, linked, steps, relinkedShown, relinked⟩ := shown.relink_steps wf1 child
          (by rw [kind]; exact typed.mpr isDir) source target same oldLinks newLinks
          (shows.has.inodeGroup_known inside)
        obtain ⟨v', W, gone, final, moved⟩ := finish relinked relinkedShown
        simp only [linked, steps, gone]
        exact ⟨.ok, v', W, rfl, final,
          .inr ⟨rfl, p, q, name, newName, _, looked, lookedNew, proper, newProper, found, find, absent, .inr ⟨same, moved⟩⟩⟩
      · have isFile : inodeIsDir (V1.inode r.inode.toNat) = false := by
          rw [kind, ← Bool.not_eq_true]
          exact fun dir => isDir (typed.mp dir)
        have relinked : Relinked L V.reachable r.inode.toNat q V1 V1 := by
          refine ⟨wf1, .refl _ _, rfl, rfl, rfl, ?_, fun _ => .refl _ _, fun _ _ => rfl, rfl⟩
          intro dir
          rw [isFile] at dir
          cases dir
        obtain ⟨v', W, gone, final, moved⟩ := finish relinked shown
        simp only [appended, isDir, false_and, if_false, gone]
        exact ⟨.ok, v', W, rfl, final,
          .inr ⟨rfl, p, q, name, newName, _, looked, lookedNew, proper, newProper, found, find, absent, .inr ⟨same, moved⟩⟩⟩
    · simp only [appended]
      exact shown.fails (by decide) (full leaked)

end Volume.Shows

end GinnOS.Ext2
