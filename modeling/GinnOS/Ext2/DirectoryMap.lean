import GinnOS.Lib.Table
import GinnOS.Ext2.VolumeRuns

/-! # A directory is a finite map

What a directory is for is a map from names to inodes and types.  Replaying the
successful operations on a directory from the empty map (`replay`) gives at each
moment the map that the directory holds (`Holds`): the entries are its table, both
lookups evaluate it, and enumeration lists it.  A directory made by
`ext2_create_dir` never grows beyond its direct pointers, which is why lookup sees
all of it.
-/

namespace GinnOS.Ext2

open Lib Lib.Buf List Function Image

variable {T : Set Nat} {p d : Nat} {e : DirectoryEntry} {newName name path : List UInt8} {v : Volume}
  {L : Layout} {V W : View} {op : VolumeOp}

/-! ## The map and its operations -/

abbrev NameMap := List UInt8 → Option (Nat × UInt8)

/-- What a creation in state `v` does to the names of directory `d`; the new inode is the one that
`alloc_inode` returns. -/
def enterNew (v : Volume) (d : Nat) (path : List UInt8) (fileType : UInt8) (m : NameMap) : NameMap :=
  match lookupParentAndName v path, (allocInode v).1 with
  | some (p, name), some c => if p = d then Function.update m name (some (c, fileType)) else m
  | _, _ => m

def takeOut (v : Volume) (d : Nat) (path : List UInt8) (m : NameMap) : NameMap :=
  match lookupParentAndName v path with
  | some (p, name) => if p = d then Function.update m name none else m
  | none => m

/-- What an operation that succeeds in state `v` does to the names of directory `d`. -/
def replay (v : Volume) (d : Nat) (m : NameMap) : VolumeOp → NameMap
  | .createFile path => enterNew v d path ftRegFile m
  | .createDir path => enterNew v d path ftDir m
  | .removeFile path => takeOut v d path m
  | .removeDir path => takeOut v d path m
  | .rename oldPath newPath =>
    match lookupParentAndName v oldPath, lookupParentAndName v newPath with
    | some (p, name), some (q, newName) =>
      -- an entry that comes from another directory brings its inode and type along
      let child := if p = d then m name else lookupChildType v p name
      let left := if p = d then Function.update m name none else m
      if q = d then Function.update left newName child else left
    | _, _ => m
  | .write _ _ => m
  | .truncate _ => m

/-- The operation enters a name in directory `d` or takes one out. -/
def VolumeOp.ActsOn (v : Volume) (d : Nat) : VolumeOp → Prop
  | .createFile path | .createDir path | .removeFile path | .removeDir path =>
    ∃ name, lookupParentAndName v path = some (d, name)
  | .rename oldPath newPath =>
    ∃ name, lookupParentAndName v oldPath = some (d, name) ∨ lookupParentAndName v newPath = some (d, name)
  | .write _ _ => False
  | .truncate _ => False

/-- A volume together with the map that is replayed. -/
def replayStep (d : Nat) (s : Volume × NameMap) (op : VolumeOp) : Kerr × (Volume × NameMap) :=
  ((volumeStep s.1 op).1, (volumeStep s.1 op).2, replay s.1 d s.2 op)

/-! ## The directory holds the map -/

/-- Directory `d` holds the map `m`. -/
structure Holds (L : Layout) (V : View) (d : Nat) (m : NameMap) : Prop where
  inside : L.IsInode d
  isDir : inodeIsDir (V.inode d) = true
  data : ∀ b, b ∈ V.blocks (V.inode d) → L.IsData b
  dirOk : V.DirOk d
  small : V.leafCount (V.inode d) ≤ ndirBlocks
  table : Table (·.name) (fun e => (e.inode, e.fileType)) (V.listing d) m

namespace Holds

variable {L : Layout} {V W : View} {d : Nat} {m : NameMap}

theorem of_wellFormed (wf : WellFormed L W T) (member : d ∈ T)
    (isDir : inodeIsDir (W.inode d) = true) (small : W.leafCount (W.inode d) ≤ ndirBlocks)
    (table : Table (·.name) (fun e => (e.inode, e.fileType)) (W.listing d) m) : Holds L W d m where
  inside := wf.owns.inodes d member
  isDir := isDir
  data := dir_data wf.owns member isDir
  dirOk := wf.dirs d member isDir
  small := small
  table := table

variable (holds : Holds L V d m)

include holds

theorem kept {S : Set Nat} (keeps : V.Keeps W S) (member : d ∈ S) : Holds L W d m where
  inside := holds.inside
  isDir := (keeps.isDir_eq member).trans holds.isDir
  data := by
    have has := View.hasBlocks_dir holds.isDir
    have same := keeps.owned member
    rw [View.owned_eq has, View.owned_eq (View.hasBlocks_dir ((keeps.isDir_eq member).trans holds.isDir))]
      at same
    rw [same]
    exact holds.data
  dirOk := keeps.dirOk member holds.isDir holds.dirOk
  small := by
    rw [keeps.leafCount_eq member]
    exact holds.small
  table := by
    rw [keeps.listing_eq member]
    exact holds.table

theorem touched (touches : Touches L V W T d) (member : d ∈ T) {m' : NameMap}
    (table : Table (·.name) (fun e => (e.inode, e.fileType)) (W.listing d) m') : Holds L W d m' :=
  of_wellFormed touches.wellFormed member (by rw [← holds.isDir, inodeIsDir, inodeIsDir, touches.mode])
    (touches.small holds.isDir holds.small) table

/-! ## Changes -/

theorem added (added : Added L V W p e) (member : d ∈ V.reachable)
    (absent : p = d → m e.name = none) :
    Holds L W d (if p = d then update m e.name (some (e.inode, e.fileType)) else m) := by
  by_cases here : p = d
  · subst here
    rw [if_pos rfl]
    refine holds.touched added.toTouches (Set.mem_insert_of_mem _ member) ?_
    exact (holds.table.enter (absent rfl)).perm added.entered.perm
  · rw [if_neg here]
    exact holds.kept added.others ⟨member, fun same => here same.symm⟩

theorem dropped {files : Bool} (ok : Consistent L files V)
    (dropped : Dropped L V W p e) (member : d ∈ V.reachable) :
    Holds L W d (if p = d then update m e.name none else m) := by
  by_cases here : p = d
  · subst here
    rw [if_pos rfl]
    have other : p ≠ e.inode := by
      intro same
      have single : (V.inode p).isSingle files = true := by simp [Inode.isSingle, holds.isDir]
      refine ok.tree.not_self member single ?_
      exact mem_map.mpr ⟨e, dropped.removed.perm.mem_iff.mpr mem_cons_self, same.symm⟩
    refine holds.touched dropped.toTouches ⟨member, other⟩ ?_
    exact (holds.table.perm dropped.removed.perm.symm).leave
  · rw [if_neg here]
    exact holds.kept dropped.others ⟨member, fun same => here same.symm⟩

theorem renamed
    (renamed : Renamed L V W p e { e with name := newName }) (member : d ∈ V.reachable)
    (absent : p = d → m newName = none) :
    Holds L W d (if p = d then
      update (update m e.name none) newName (some (e.inode, e.fileType)) else m) := by
  by_cases here : p = d
  · subst here
    rw [if_pos rfl]
    refine holds.touched renamed.toTouches member ?_
    obtain ⟨rest, old, new⟩ := renamed.entries
    refine Table.perm (Table.enter (holds.table.perm old.symm).leave ?_) new
    by_cases same : newName = e.name
    · rw [same, update_self]
    · rw [update_of_ne same]
      exact absent rfl
  · rw [if_neg here]
    exact holds.kept renamed.others ⟨member, fun same => here same.symm⟩

theorem written {i : Nat} (written : Written L V W i) (member : d ∈ V.reachable) : Holds L W d m := by
  refine holds.kept written.others ⟨member, fun same => ?_⟩
  have isDir := holds.isDir
  rw [Set.mem_singleton_iff.mp same, written.isFile] at isDir
  cases isDir

theorem moved {q : Nat}
    (moved : Moved L V W p q e { e with name := newName }) (member : d ∈ V.reachable)
    (absent : q = d → m newName = none) :
    Holds L W d (if q = d then update (if p = d then update m e.name none else m) newName
      (some (e.inode, e.fileType)) else if p = d then update m e.name none else m) := by
  have isDir : inodeIsDir (W.inode d) = true := by
    rw [← holds.isDir, inodeIsDir, inodeIsDir, moved.modes d member]
  refine of_wellFormed moved.wellFormed member isDir (moved.small d member holds.isDir holds.small) ?_
  by_cases source : p = d
  · have target : q ≠ d := fun same => moved.apart (source.trans same.symm)
    rw [if_neg target, if_pos source, ← source]
    exact ((source ▸ holds.table).perm moved.removed.perm.symm).leave
  · rw [if_neg source]
    by_cases target : q = d
    · rw [if_pos target]
      have table := holds.table
      rw [← target] at table ⊢
      exact (table.enter (e := { e with name := newName }) (absent target)).perm moved.entered.perm
    · rw [if_neg target, moved.others d member (Ne.symm source) (Ne.symm target)]
      exact holds.table

end Holds

/-! ## What the walkers see -/

namespace View.DirOk

variable {V : View} {d : Nat} (ok : V.DirOk d) (isDir : inodeIsDir (V.inode d) = true)

include ok isDir

theorem mem_listing {r : Rec} (record : r ∈ V.dirRecords d) (live : r.live = true)
    (notOwn : r.name ≠ [dot]) (notUp : r.name ≠ [dot, dot]) : r.listed ∈ V.listing d := by
  obtain ⟨own, up, body, records, form⟩ := ok.directory
  rw [records] at record
  rcases mem_cons.mp record with rfl | record
  · exact absurd form.ownName notOwn
  rcases mem_cons.mp record with rfl | record
  · exact absurd form.upName notUp
  rw [View.listing_dir isDir, records]
  exact mem_map_of_mem (mem_filter.mpr ⟨record, live⟩)

theorem of_listing (entry : e ∈ V.listing d) :
    ∃ r, r ∈ V.dirRecords d ∧ r.live = true ∧ ProperName r.name ∧ r.listed = e := by
  obtain ⟨own, up, body, records, form⟩ := ok.directory
  rw [View.listing_dir isDir, records] at entry
  obtain ⟨r, known, same⟩ := mem_map.mp entry
  obtain ⟨inside, live⟩ := mem_filter.mp known
  have record : r ∈ V.dirRecords d := by
    rw [records]
    exact mem_cons_of_mem _ (mem_cons_of_mem _ inside)
  exact ⟨r, record, live, form.named r inside live, same⟩

/-- Enumeration shows `.`, `..` and the listing. -/
theorem enumerated : ((V.dirRecords d).filter Rec.isListed).map Rec.listed =
    ⟨d, ftDir, 0, [dot]⟩ :: ⟨V.up d, ftDir, 0, [dot, dot]⟩ :: V.listing d := by
  obtain ⟨own, up, body, records, form⟩ := ok.directory
  have ownListed : own.isListed = true := by simp [Rec.isListed, form.ownLive, form.ownName]
  have upListed : up.isListed = true := by simp [Rec.isListed, form.upLive, form.upName]
  have rest : body.filter Rec.isListed = body.filter Rec.live := by
    refine filter_congr fun r inside => ?_
    cases live : r.live with
    | false => simp [Rec.isListed, live]
    | true => simp [Rec.isListed, live, (form.named r inside live).1]
  rw [View.listing_dir isDir, View.up, records, filter_cons_of_pos ownListed,
    filter_cons_of_pos upListed, rest]
  simp only [map_cons, Rec.listed, form.ownInode, form.ownType, form.ownName, form.upType, form.upName]
  rfl

end View.DirOk

namespace Holds

variable {v : Volume} {L : Layout} {V : View} {d : Nat} {m : NameMap} (shows : v.Shows L V)
  (holds : Holds L V d m)

include shows holds

theorem lookup (notOwn : name ≠ [dot]) (notUp : name ≠ [dot, dot]) :
    lookupChildType v d name = m name ∧
      ∀ i, findInDirectory v d name = .ok i ↔ ∃ fileType, m name = some (i, fileType) := by
  rcases shows.lookup_cases holds.inside holds.isDir holds.data holds.dirOk.shaped name with
    ⟨none, failed, absent⟩ | ⟨k, before, r, after, first, found, done⟩
  · have missing : m name = .none := by
      rw [holds.table.none_iff]
      rintro e entry rfl
      obtain ⟨r, record, live, _, rfl⟩ := holds.dirOk.of_listing holds.isDir entry
      obtain ⟨k, inside, here⟩ := View.mem_recordsOf.mp record
      have other := absent k (Nat.lt_of_lt_of_le inside holds.small) inside r here
      simp [Rec.hasName, live, Rec.listed] at other
    rw [none, failed, missing]
    exact ⟨rfl, fun i => ⟨(by simp), (by simp)⟩⟩
  · obtain ⟨live, named⟩ := first.hasName
    have entry := holds.dirOk.mem_listing holds.isDir first.mem_records live (by rwa [named])
      (by rwa [named])
    have value : m name = some (r.inode.toNat, r.fileType) := by
      rw [← named]
      exact holds.table.value entry
    rw [found, done, value]
    refine ⟨rfl, fun i => ⟨?_, ?_⟩⟩
    · rintro ⟨⟩
      exact ⟨_, rfl⟩
    · rintro ⟨fileType, ⟨⟩⟩
      rfl

theorem listed {file : Ext2File} (opened : ext2Open v path = .ok file)
    (here : file.inode = d) {fuel : Nat} (enough : file.size < fuel) :
    enumerate v fuel file =
      some (⟨d, ftDir, 0, [dot]⟩ :: ⟨V.up d, ftDir, 0, [dot, dot]⟩ :: V.listing d) := by
  obtain ⟨_, read, size, start, isOpen⟩ := ext2Open_ok opened
  rw [here, shows.readInode holds.inside, Except.ok.injEq] at read
  rw [size, ← read] at enough
  have all := shows.enumerate_start (by rw [← read]; exact holds.data) (by rw [← read]; exact holds.dirOk.shaped)
    isOpen (by rw [← read]; exact holds.isDir) start (by rw [← read]; exact enough)
  rw [all, ← read]
  exact congrArg some (holds.dirOk.enumerated holds.isDir)

end Holds

/-! ## Runs -/

/-- The operation succeeds, and it acts on directory `d` or finds it in the tree. -/
def ReplayAllowed (L : Layout) (d : Nat) (s : Volume × NameMap) (op : VolumeOp) : Prop :=
  op.Allowed L s.1 ∧ (volumeStep s.1 op).1 = .ok ∧ (op.ActsOn s.1 d ∨ d ∈ (L.view s.1).reachable)

theorem Volume.Shows.actsOn_reachable (shows : v.Shows L V)
    (ok : Consistent L true V) (acts : op.ActsOn v d) : d ∈ V.reachable := by
  cases op with
  | createFile | createDir | removeFile | removeDir =>
    obtain ⟨name, looked⟩ := acts
    exact (shows.lookupParentAndName_some ok looked).1
  | rename =>
    obtain ⟨name, looked | looked⟩ := acts
    · exact (shows.lookupParentAndName_some ok looked).1
    · exact (shows.lookupParentAndName_some ok looked).1
  | write | truncate => exact absurd acts id

section Step

variable {v : Volume} {L : Layout} {V : View} (shows : v.Shows L V) (ok : Consistent L true V) {d : Nat}
  {m : NameMap} (holds : Holds L V d m) (member : d ∈ V.reachable)

include shows ok holds member

omit ok in
theorem Holds.created {c : Nat} {fileType : UInt8}
    (looked : lookupParentAndName v path = some (p, name)) (proper : ProperName name)
    (absent : lookupChildType v p name = none) (allocated : (allocInode v).1 = some c)
    (added : Added L V W p ⟨c, fileType, 0, name⟩) : Holds L W d (enterNew v d path fileType m) := by
  have missing (here : p = d) : m name = none := by
    rw [← (holds.lookup shows proper.2.1 proper.2.2).1, ← here]
    exact absent
  simp only [enterNew, looked, allocated]
  exact holds.added added member missing

omit shows in
theorem Holds.removed
    (looked : lookupParentAndName v path = some (p, name))
    (found : (V.listing p).find? (·.name == name) = some e) (dropped : Dropped L V W p e) :
    Holds L W d (takeOut v d path m) := by
  have named : e.name = name := by simpa using find?_some found
  simp only [takeOut, looked, ← named]
  exact holds.dropped ok dropped member

theorem Holds.step (allowed : op.Allowed L v) :
    ∃ status w W, volumeStep v op = (status, w) ∧ w.Shows L W ∧
      (status = .ok → Holds L W d (replay v d m op)) := by
  have failed (s : Kerr) (W : View) (notOk : s ≠ .ok) (_ : Unchanged V W) (done : s = .ok) : Holds L W d (replay v d m op) :=
    absurd done notOk
  cases op with
  | createFile path =>
    refine (shows.createFile_cases ok allowed).imp failed ?_
    rintro s W ⟨_, p, name, c, looked, proper, absent, allocated, added, _⟩ _
    exact holds.created shows member looked proper absent allocated added
  | createDir path =>
    refine (shows.createDir_cases ok allowed).imp failed ?_
    rintro s W ⟨_, p, name, c, looked, proper, absent, allocated, added, _⟩ _
    exact holds.created shows member looked proper absent allocated added
  | removeFile path =>
    refine (shows.removeFile_cases ok allowed).imp failed ?_
    rintro s W ⟨p, name, e, looked, _, _, found, _, dropped, _⟩ _
    exact holds.removed ok member looked found dropped
  | removeDir path =>
    refine (shows.removeDir_cases ok allowed).imp failed ?_
    rintro s W ⟨p, name, e, looked, _, _, found, _, dropped, _⟩ _
    exact holds.removed ok member looked found dropped
  | rename oldPath newPath =>
    refine (shows.rename_cases ok allowed.1 allowed.2).imp failed ?_
    rintro s W ⟨_, p, q, name, newName, e, looked, lookedNew, proper, newProper, child, found, absent, change⟩ _
    have named : e.name = name := by simpa using find?_some found
    have brought : (if p = d then m name else lookupChildType v p name) = some (e.inode, e.fileType) := by
      by_cases here : p = d
      · rw [if_pos here, ← (holds.lookup shows proper.2.1 proper.2.2).1, ← here]
        exact child
      · rw [if_neg here]
        exact child
    have missing (here : q = d) : m newName = none := by
      rw [← (holds.lookup shows newProper.2.1 newProper.2.2).1, ← here]
      exact absent
    simp only [replay, looked, lookedNew, brought]
    rw [← named]
    rcases change with ⟨rfl, renamed⟩ | ⟨_, moved⟩
    · have still := holds.renamed renamed member missing
      by_cases here : p = d
      · rw [if_pos here] at still ⊢
        rw [if_pos here]
        exact still
      · rw [if_neg here] at still ⊢
        rw [if_neg here]
        exact still
    · exact holds.moved moved member missing
  | write i w =>
    obtain ⟨known, offset, _⟩ := allowed
    rw [shows.view_eq] at known
    obtain ⟨s, v1, W, result, shown, rfl | ⟨regular, _, wrote⟩⟩ :=
      shows.writeFile_cases ok known (w := w) offset
    · exact ⟨s, v1, _, result, shown, fun _ => holds⟩
    · have written := wrote.toFileOnly.written ok.wellFormed known regular
      exact ⟨s, v1, W, result, shown, fun _ => holds.written written member⟩
  | truncate i =>
    have known : i ∈ V.reachable := by
      rw [← shows.view_eq]
      exact allowed
    obtain ⟨s, v1, W, result, shown, rfl | ⟨regular, only⟩⟩ := shows.truncateFile_cases ok known
    · exact ⟨s, v1, _, result, shown, fun _ => holds⟩
    · have written := only.written ok.wellFormed known regular
      exact ⟨s, v1, W, result, shown, fun _ => holds.written written member⟩

end Step

theorem replayStep_holds {s s' : Volume × NameMap} {status : Kerr}
    (known : s.1.Shows L (L.view s.1) ∧ Consistent L true (L.view s.1) ∧ Holds L (L.view s.1) d s.2)
    (allowed : ReplayAllowed L d s op) (stepped : replayStep d s op = (status, s')) :
    s'.1.Shows L (L.view s'.1) ∧ Consistent L true (L.view s'.1) ∧ Holds L (L.view s'.1) d s'.2 := by
  obtain ⟨shows, ok, holds⟩ := known
  obtain ⟨allowed, success, acts⟩ := allowed
  have member : d ∈ (L.view s.1).reachable := acts.elim (shows.actsOn_reachable ok) id
  cases stepped
  obtain ⟨shown, still⟩ := volumeStep_consistent ⟨shows, ok⟩ allowed Prod.mk.eta.symm
  obtain ⟨_, next⟩ := step_view (P := fun status W => status = .ok → Holds L W d (replay s.1 d s.2 op))
    Prod.mk.eta.symm (holds.step shows ok member allowed)
  exact ⟨shown, still, next success⟩

/-- The directory refines the map: its blocks are tiled by records, both lookups evaluate the map, and
a handle enumerates `.`, `..` and a table of the map before it reports the end. -/
structure RefinesMap (v : Volume) (d : Nat) (m : NameMap) : Prop where
  tiled : ∃ x, ext2ReadInode v d = .ok x ∧ inodeIsDir x = true ∧
    ∃ count, count ≤ ndirBlocks ∧ x.iSize.toNat = count * v.blockSize ∧
      ∀ k, k < count → ∃ block records, readBlock v (x.ptr k) = some block ∧
        TilesTo block 0 v.blockSize records
  lookup : ∀ name, name ≠ [dot] → name ≠ [dot, dot] →
    (findDirectoryEntry v d name).map (fun (_, _, entry) => (entry.inode.toNat, entry.fileType)) = m name ∧
      ∀ i, findInDirectory v d name = .ok i ↔ ∃ fileType, m name = some (i, fileType)
  enumerated : ∀ path file fuel, ext2Open v path = .ok file → file.inode = d → file.size < fuel →
    ∃ parent entries, enumerate v fuel file =
        some (⟨d, ftDir, 0, [dot]⟩ :: ⟨parent, ftDir, 0, [dot, dot]⟩ :: entries) ∧
      Table (·.name) (fun e => (e.inode, e.fileType)) entries m ∧ ∀ e, e ∈ entries → ProperName e.name

theorem Holds.refines {m : NameMap} (shows : v.Shows L V)
    (holds : Holds L V d m) : RefinesMap v d m where
  tiled := by
    refine ⟨V.inode d, shows.readInode holds.inside, holds.isDir, V.leafCount (V.inode d), holds.small, ?_, ?_⟩
    · rw [shows.size_eq]
      exact holds.dirOk.shaped.size.symm
    · intro k inside
      refine ⟨V.leaf (V.inode d) k, V.blockRecords (V.inode d) k, ?_, ?_⟩
      · rw [← View.resolve_direct (Nat.lt_of_lt_of_le inside holds.small)]
        exact shows.readLeaf holds.data holds.dirOk.shaped inside
      · rw [shows.size_eq]
        exact holds.dirOk.shaped.tiles_block inside
  lookup name notOwn notUp := holds.lookup shows notOwn notUp
  enumerated path file fuel opened here enough := by
    refine ⟨V.up d, V.listing d, holds.listed shows opened here enough, holds.table, fun e entry => ?_⟩
    obtain ⟨r, _, _, proper, rfl⟩ := holds.dirOk.of_listing holds.isDir entry
    exact proper

/-- A directory that `ext2_create_dir` makes on a consistent volume refines the map that replaying the
operations gives, after any run of successful operations on it. -/
theorem directory_refines_map {L : Layout} {v v1 v' : Volume} (shows : v.Shows L (L.view v))
    (ok : Consistent L true (L.view v)) {path : List UInt8} (normal : Normalized path)
    (made : ext2CreateDir v path = (.ok, v1)) {d : Nat} (new : (allocInode v).1 = some d)
    {m : NameMap} {trace : List (VolumeOp × Kerr)}
    (run : Run (replayStep d) (ReplayAllowed L d) (v1, fun _ => none) trace (v', m)) :
    RefinesMap v' d m := by
  obtain ⟨s, w, W, result, shown, ⟨failed, _⟩ | ⟨_, p, name, c, _, _, _, allocated, added, isDir⟩⟩ :=
    shows.createDir_cases ok normal
  · rw [made, Prod.mk.injEq] at result
    exact absurd result.1.symm failed
  · rw [made, Prod.mk.injEq] at result
    rw [new, Option.some_inj] at allocated
    obtain ⟨_, rfl⟩ := result
    subst allocated
    have start : Holds L W d fun _ => none := by
      refine .of_wellFormed added.wellFormed (Set.mem_insert _ _) isDir (added.smallNew isDir) ?_
      rw [added.leaf]
      exact .nil
    have view := shown.view_eq
    have final := run.invariant
      (I := fun s => s.1.Shows L (L.view s.1) ∧ Consistent L true (L.view s.1) ∧ Holds L (L.view s.1) d s.2)
      replayStep_holds (by simp only [view]; exact ⟨shown, (ok.added added).2, start⟩)
    exact final.2.2.refines final.1

namespace Image

/-- The empty volume after `/d` is made; then `/d/a` is created and renamed to `/d/b`. -/
def dirMade : Kerr × Volume := ext2CreateDir fresh.volume [slash, 100]
def fileMade : Kerr × (Volume × NameMap) :=
  replayStep 11 (dirMade.2, fun _ => none) (.createFile [slash, 100, slash, 97])
def fileRenamed : Kerr × (Volume × NameMap) :=
  replayStep 11 fileMade.2 (.rename [slash, 100, slash, 97] [slash, 100, slash, 98])

theorem fileRenamed_run : dirMade.1 = .ok ∧ (allocInode fresh.volume).1 = some 11 ∧
    fileMade.1 = .ok ∧ fileRenamed.1 = .ok ∧
    lookupParentAndName dirMade.2 [slash, 100, slash, 97] = some (11, [97]) ∧
    lookupParentAndName fileMade.2.1 [slash, 100, slash, 97] = some (11, [97]) ∧
    fileRenamed.2.2 [97] = none ∧ fileRenamed.2.2 [98] = some (12, ftRegFile) := by
  decide +kernel

end Image

theorem directory_refines_map_sample : RefinesMap Image.fileRenamed.2.1 11 Image.fileRenamed.2.2 ∧
    Image.fileRenamed.2.2 [97] = none ∧ Image.fileRenamed.2.2 [98] = some (12, ftRegFile) := by
  obtain ⟨made, new, created, renamed, acts, acts', gone, present⟩ := fileRenamed_run
  refine ⟨?_, gone, present⟩
  have normal : Normalized [slash, 100] := .inr ⟨[[100]], by decide, by simp [ProperName, slash, dot], rfl⟩
  have old : Normalized [slash, 100, slash, 97] :=
    .inr ⟨[[100], [97]], by decide, by simp [ProperName, slash, dot], rfl⟩
  have allowed1 : ReplayAllowed layout 11 (dirMade.2, fun _ => none)
      (.createFile [slash, 100, slash, 97]) := ⟨old, created, .inl ⟨_, acts⟩⟩
  have allowed2 : ReplayAllowed layout 11 fileMade.2
      (.rename [slash, 100, slash, 97] [slash, 100, slash, 98]) :=
    ⟨⟨old, .inr ⟨[[100], [98]], by decide, by simp [ProperName, slash, dot], rfl⟩⟩, renamed,
      .inl ⟨_, .inl acts'⟩⟩
  exact directory_refines_map fresh.shows (fresh_consistent true) normal
    (Prod.ext made rfl : dirMade = (.ok, dirMade.2)) new
    (.cons allowed1 (Prod.mk.eta (p := fileMade)).symm
      (.cons allowed2 (Prod.mk.eta (p := fileRenamed)).symm (.nil _)))

namespace Image

/-- The empty volume, but the block of the root directory is not marked; then `/d` is made. -/
def rootFree : Image := { fresh with blockBits := [0x3f], freeBlocks := 25 }
def rootReused : Kerr × Volume := ext2CreateDir rootFree.volume [slash, 100]

/-- After `/d` is made, its entry `.` is renamed. -/
def dotMoved : Kerr × Volume := ext2Rename dirMade.2 [slash, 100, slash, dot] [slash, 120]

theorem rootReused_run : rootReused.1 = .ok ∧ (allocInode rootFree.volume).1 = some 11 ∧
    (findInDirectory rootReused.2 11 [100]).toOption = some 11 := by
  decide +kernel

theorem dotMoved_run : dotMoved.1 = .ok ∧
    (ext2Open dotMoved.2 [slash, 120]).toOption.map (fun f => (f.inode, f.size)) = some (11, 1024) ∧
    ((ext2Open dotMoved.2 [slash, 120]).toOption.bind (enumerate dotMoved.2 1025)).map (·.map (·.name)) =
      some [[dot, dot]] := by
  decide +kernel

end Image

/-- On a volume where a block in use is not marked, a new directory can have names that nobody
entered; and the name `.` can be taken away from a directory. -/
theorem damaged_directory_is_no_map :
    (Image.rootReused.1 = .ok ∧ (allocInode Image.rootFree.volume).1 = some 11 ∧
      ¬ RefinesMap Image.rootReused.2 11 fun _ => none) ∧
    (Image.dirMade.1 = .ok ∧ (allocInode Image.fresh.volume).1 = some 11 ∧ Image.dotMoved.1 = .ok ∧
      ∀ m, ¬ RefinesMap Image.dotMoved.2 11 m) := by
  obtain ⟨reused, first, found⟩ := rootReused_run
  obtain ⟨made, new, _⟩ := fileRenamed_run
  obtain ⟨moved, handle, names⟩ := dotMoved_run
  refine ⟨⟨reused, first, fun refines => ?_⟩, made, new, moved, fun m refines => ?_⟩
  · have evaluates := (refines.lookup [100] (by decide) (by decide)).2
    cases looked : findInDirectory rootReused.2 11 [100] with
    | error _ =>
      rw [looked] at found
      cases found
    | ok i =>
      obtain ⟨_, entered⟩ := (evaluates i).mp looked
      cases entered
  · cases opened : ext2Open dotMoved.2 [slash, 120] with
    | error _ =>
      rw [opened] at handle
      cases handle
    | ok file =>
      simp only [opened, Except.toOption, Option.map_some, Option.some_inj, Prod.mk.injEq] at handle
      obtain ⟨parent, entries, listed, _⟩ := refines.enumerated _ file 1025 opened handle.1 (by omega)
      simp [opened, Except.toOption, listed] at names

end GinnOS.Ext2
