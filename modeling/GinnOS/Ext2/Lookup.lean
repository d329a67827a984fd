import GinnOS.Ext2.Consistent
import GinnOS.Lib.Paths

/-! # Lookup in a consistent volume

Whatever path is looked up, the result can be reached from the root, because `.`
and `..` lead to directories that can be reached too.  The last component of a
normalized path is a proper name, so the operations never touch `.` and `..` by
name.
-/

namespace GinnOS.Ext2

open Lib Lib.Buf List View

variable {name parent path front trail : List UInt8} {parentSize nameSize d i p : Nat}

/-! ## Paths -/

def joinPath (components : List (List UInt8)) : List UInt8 := components.flatMap (slash :: ·)

/-- A normalized absolute path: `/`, or components behind single slashes, none of them `.` or `..`. -/
def Normalized (path : List UInt8) : Prop :=
  path = [slash] ∨ ∃ components, components ≠ [] ∧
    (∀ c, c ∈ components → ProperName c ∧ slash ∉ c) ∧ path = joinPath components

/-- A component ends at the next slash, or with the path. -/
theorem takeWhile_plain {rest : List UInt8} (plain : slash ∉ name) (ends : ∀ c ∈ rest.head?, c = slash) :
    (name ++ rest).takeWhile (· != slash) = name ∧ (name ++ rest).dropWhile (· != slash) = rest := by
  have other : ∀ c ∈ name, (c != slash) = true := by
    intro c known
    simp only [bne_iff_ne, ne_eq]
    rintro rfl
    exact plain known
  rw [takeWhile_append_of_pos other, dropWhile_append_of_pos other]
  cases rest with
  | nil => simp
  | cons c rest => simp [ends c rfl]

/-- The last component of a path, whatever stands before its slash, and slashes behind it. -/
structure Parts (path front name trail : List UInt8) : Prop where
  whole : path = front ++ slash :: (name ++ trail)
  nonempty : name ≠ []
  plain : slash ∉ name
  slashes : ∀ c ∈ trail, c = slash

theorem Parts.splitPath (parts : Parts path front name trail) (absolute : path.head? = some slash) (parentSize nameSize : Nat) :
    splitPath path parentSize nameSize =
      if parentSize = 0 ∨ nameSize = 0 ∨ name.length + 1 > nameSize then none
      else if front = [] then if parentSize < 2 then none else some ([slash], name)
      else if front.length + 1 > parentSize then none else some (front, name) := by
  have reversed : path.reverse.dropWhile (· == slash) = name.reverse ++ slash :: front.reverse := by
    rw [parts.whole, reverse_append, reverse_cons, reverse_append, append_assoc, append_assoc, singleton_append,
      dropWhile_append_of_pos (by simpa using parts.slashes)]
    cases back : name.reverse with
    | nil => exact absurd (reverse_eq_nil_iff.mp back) parts.nonempty
    | cons c rest =>
      have other : c ≠ slash := by
        rintro rfl
        exact parts.plain (mem_reverse.mp (back ▸ mem_cons_self))
      rw [cons_append, dropWhile_cons_of_neg (by simpa using other)]
  obtain ⟨front', back⟩ := takeWhile_plain (mt mem_reverse.mp parts.plain) (show ∀ c ∈ (slash :: front.reverse).head?, c = slash by simp)
  have some : name.reverse ++ slash :: front.reverse ≠ [] := by simp
  simp only [Ext2.splitPath, absolute, ne_eq, not_true_eq_false, or_false, reversed, front', back, reverse_reverse, tail_cons,
    if_neg some, ite_or]

theorem Normalized.proper
    (normal : Normalized path) (split : splitPath path parentSize nameSize = some (parent, name)) :
    ProperName name := by
  rcases normal with rfl | ⟨components, some, proper, rfl⟩
  · simp [splitPath] at split
  · obtain ⟨init, last, rfl⟩ := eq_nil_or_concat components |>.resolve_left some
    obtain ⟨named, plain⟩ := proper last (by simp)
    have parts : Parts (joinPath (init.concat last)) (joinPath init) last [] := ⟨by simp [joinPath], named.1, plain, by simp⟩
    rw [parts.splitPath (by cases init <;> simp [joinPath])] at split
    repeat' split at split
    all_goals cases split
    all_goals exact named

/-! ## Walking along a path -/

/-- One more component, if it is one. -/
def descend (v : Volume) (found : Except Kerr Nat) (component : List UInt8) : Except Kerr Nat :=
  if component = [] then found else found.bind fun d => findInDirectory v d component

theorem descend_nil (v : Volume) (found : Except Kerr Nat) : descend v found [] = found := if_pos rfl

theorem foldl_descend_error (v : Volume) (status : Kerr) (components : List (List UInt8)) :
    components.foldl (descend v) (.error status) = .error status := by
  induction components with
  | nil => rfl
  | cons c components ih =>
    rw [foldl_cons, descend]
    split <;> exact ih

theorem skip_component (nonempty : path ≠ []) : (skipSlashes (path.dropWhile (· != slash))).length < path.length := by
  obtain ⟨c, rest, rfl⟩ := exists_cons_of_ne_nil nonempty
  have shorter (f : UInt8 → Bool) (l : List UInt8) : (l.dropWhile f).length ≤ l.length := (dropWhile_sublist f).length_le
  rw [length_cons, Nat.lt_succ_iff, skipSlashes]
  by_cases isSlash : c = slash
  · simpa [isSlash] using shorter (· == slash) rest
  · simpa [isSlash] using (shorter _ _).trans (shorter (· != slash) rest)

theorem lookupLoop_eq_foldl (v : Volume) {fuel : Nat} (enough : path.length ≤ fuel) :
    lookupLoop v fuel d path = (path.splitOn slash).foldl (descend v) (.ok d) := by
  fun_induction lookupLoop v fuel d path with
  | case1 => rfl
  | case2 => cases enough
  | case3 fuel d path some component rest empty ih =>
    have none : path.takeWhile (· != slash) = [] := length_eq_zero_iff.mp empty
    rw [Path.foldl_splitOn_takeWhile (descend_nil v), none, descend_nil,
      ← Path.foldl_splitOn_dropWhile (descend_nil v)]
    exact ih (Nat.le_of_lt_succ ((skip_component some).trans_le enough))
  | case4 fuel d path some component named status failed =>
    rw [Path.foldl_splitOn_takeWhile (descend_nil v), descend, if_neg fun empty => named (congrArg length empty)]
    simp only [Except.bind]
    rw [failed, foldl_descend_error]
  | case5 fuel d path some component rest named next step ih =>
    rw [Path.foldl_splitOn_takeWhile (descend_nil v), ← Path.foldl_splitOn_dropWhile (descend_nil v), descend,
      if_neg fun empty => named (congrArg length empty)]
    simp only [Except.bind]
    rw [step]
    exact ih (Nat.le_of_lt_succ ((skip_component some).trans_le enough))

theorem lookupPath_eq_foldl (v : Volume) (nonempty : path ≠ []) :
    ext2LookupPath v path = (path.splitOn slash).foldl (descend v) (.ok inodeRoot) := by
  rw [ext2LookupPath, if_neg nonempty, skipSlashes, lookupLoop_eq_foldl v (dropWhile_sublist _).length_le,
    Path.foldl_splitOn_dropWhile (descend_nil v)]

/-- A path is walked by walking what stands before the last component, and then that component. -/
theorem Parts.lookupPath (parts : Parts path front name trail) (v : Volume) : ext2LookupPath v path =
    (ext2LookupPath v (if front = [] then [slash] else front)).bind fun d => findInDirectory v d name := by
  have last (found : Except Kerr Nat) : ((name ++ trail).splitOn slash).foldl (descend v) found =
      found.bind fun d => findInDirectory v d name := by
    obtain ⟨taken, left⟩ := takeWhile_plain parts.plain fun c isHead => parts.slashes c (mem_of_mem_head? isHead)
    rw [Path.foldl_splitOn_takeWhile (descend_nil v), taken, left, ← Path.foldl_splitOn_dropWhile (descend_nil v),
      dropWhile_eq_nil_iff.mpr (by simpa using parts.slashes), descend, if_neg parts.nonempty]
    exact descend_nil v _
  have before : ext2LookupPath v (if front = [] then [slash] else front) =
      (front.splitOn slash).foldl (descend v) (.ok inodeRoot) := by
    split
    · next root => rw [root, lookupPath_eq_foldl v (by simp), Path.foldl_splitOn_sep_cons (descend_nil v)]
    · next some => rw [lookupPath_eq_foldl v some]
  rw [before, lookupPath_eq_foldl v (by simp [parts.whole]), parts.whole, splitOn_append_cons_self, foldl_append, last]

theorem exists_parts (absolute : path.head? = some slash) (named : ∃ c ∈ path, c ≠ slash) :
    ∃ front name trail, Parts path front name trail := by
  have whole := path.reverse.takeWhile_append_dropWhile (p := (· == slash))
  have slashes : ∀ c ∈ path.reverse.takeWhile (· == slash), c = slash := fun c member => by simpa using mem_takeWhile_imp member
  have notSlash := head?_dropWhile_not (· == slash) path.reverse
  have nonempty : path.reverse.dropWhile (· == slash) ≠ [] := by
    obtain ⟨c, member, other⟩ := named
    exact fun none => other (by simpa using dropWhile_eq_nil_iff.mp none c (mem_reverse.mpr member))
  -- from the end: slashes, the component, its slash
  generalize path.reverse.takeWhile (· == slash) = trail at whole slashes
  generalize path.reverse.dropWhile (· == slash) = kept at whole notSlash nonempty
  have ends : path.reverse.getLast? = some slash := by rw [getLast?_reverse, absolute]
  rw [← whole, getLast?_append_of_ne_nil _ nonempty] at ends
  obtain ⟨name, front, rfl, plain⟩ := eq_append_cons_of_mem (mem_of_getLast? ends)
  refine ⟨front.reverse, name.reverse, trail.reverse, ?_, fun empty => ?_, by simpa using plain, by simpa using slashes⟩
  · rw [← reverse_reverse path, ← whole]
    simp
  · rw [reverse_eq_nil_iff.mp empty] at notSlash
    simp at notSlash

/-- Splitting a path off its last component and walking the path lead to the same inode, in any spelling. -/
theorem splitting_agrees_with_walking (v : Volume) (path : List UInt8) (n : Nat) (absolute : path.head? = some slash)
    (named : ∃ c ∈ path, c ≠ slash)
    (fits : ∀ front name trail, Parts path front name trail → name.length < nameMax ∧ front.length < nameMax) :
    ext2LookupPath v path = .ok n ↔
      ∃ p name, lookupParentAndName v path = some (p, name) ∧ findInDirectory v p name = .ok n := by
  obtain ⟨front, name, trail, parts⟩ := exists_parts absolute named
  obtain ⟨short, shortFront⟩ := fits front name trail parts
  have split : splitPath path nameMax nameMax = some (if front = [] then [slash] else front, name) := by
    rw [parts.splitPath absolute, if_neg (by omega)]
    split
    · exact if_neg (by decide)
    · exact if_neg (by omega)
  rw [parts.lookupPath v, lookupParentAndName, split]
  dsimp only
  cases ext2LookupPath v (if front = [] then [slash] else front) with
  | error status => simp [Except.bind]
  | ok p =>
    simp only [Except.bind, findInDirectory]
    cases read : ext2ReadInode v p with
    | error status => simp
    | ok inode =>
      cases isDir : inodeIsDir inode with
      | false => simp [isDir]
      | true => simp [isDir, read]

/-- The path `//..//` of an empty volume. -/
theorem splitting_agrees_with_walking_dots : ∃ p name, lookupParentAndName Image.fresh.volume [slash, slash, dot, dot, slash, slash] =
    some (p, name) ∧ findInDirectory Image.fresh.volume p name = .ok inodeRoot := by
  refine (splitting_agrees_with_walking _ _ _ rfl ⟨dot, by decide, by decide⟩ fun front name trail parts => ?_).mp (by decide +kernel)
  have length := congrArg length parts.whole
  simp only [length_append, length_cons, length_nil] at length
  rw [nameMax]
  omega

/-! ## Lookup -/

namespace Consistent

variable {L : Layout} {files : Bool} {V : View} (ok : Consistent L files V) {d : Nat}
  (known : d ∈ V.reachable)

include ok known

theorem isInode : L.IsInode d := ok.wellFormed.owns.inodes d known

variable (isDir : inodeIsDir (V.inode d) = true)

include isDir

theorem dirOk : V.DirOk d := ok.wellFormed.dirs d known isDir

theorem up_reachable : V.up d ∈ V.reachable := by
  rcases Hierarchy.Reach.parent known with rfl | ⟨p, reach, child⟩
  · have root : V.up inodeRoot = inodeRoot := ok.tree.upRoot
    rw [show (V.hierarchy true).root = inodeRoot from rfl, root]
    exact root_reachable
  · have up : V.up d = p := ok.tree.up p d reach isDir child
    rw [up]
    exact reach

/-- Every live record, `.` and `..` included, names an inode that can be reached. -/
theorem record_reachable {r : Rec} (record : r ∈ V.dirRecords d) (live : r.live = true) :
    r.inode.toNat ∈ V.reachable := by
  obtain ⟨own, up, body, records, form⟩ := (ok.dirOk known isDir).directory
  rw [records] at record
  rcases mem_cons.mp record with rfl | record
  · rw [form.ownInode]
    exact known
  rcases mem_cons.mp record with rfl | record
  · have parent := ok.up_reachable known isDir
    rw [up, records] at parent
    exact parent
  · refine entry_reachable (e := r.listed) known ?_
    rw [listing_dir isDir, records]
    exact mem_map_of_mem (mem_filter.mpr ⟨record, live⟩)

end Consistent

namespace View.First

variable {V : View} {d : Nat} {name : List UInt8} {k : Nat} {before after : List Rec} {r : Rec}
  (first : V.First (V.inode d) (Rec.hasName name) k before r after)

include first

theorem mem_records : r ∈ V.dirRecords d := by
  obtain ⟨front, back, records, _⟩ := first.records
  rw [dirRecords, records]
  exact mem_append_right _ mem_cons_self

theorem mem_listing (isDir : inodeIsDir (V.inode d) = true) (ok : V.DirOk d) (proper : ProperName name) :
    r.listed ∈ V.listing d := mem_of_find?_eq_some (first.find isDir ok proper)

end View.First

namespace Volume.Shows

variable {v : Volume} {L : Layout} {V : View} (shows : v.Shows L V) {files : Bool}
  (ok : Consistent L files V)

include shows ok

theorem findInDirectory_reachable (known : d ∈ V.reachable)
    (found : findInDirectory v d name = .ok i) : i ∈ V.reachable := by
  have inside := ok.isInode known
  by_cases isDir : inodeIsDir (V.inode d) = true
  · have data := dir_data ok.wellFormed.owns known isDir
    have shaped := (ok.dirOk known isDir).shaped
    rcases V.first_or_none (V.inode d) (Rec.hasName name) with absent | ⟨k, before, r, after, first⟩
    · rw [(shows.lookup_absent inside isDir data shaped absent).2] at found
      cases found
    · rw [(shows.lookup_found inside isDir data shaped first).2] at found
      cases found
      exact ok.record_reachable known isDir first.mem_records first.hasName.1
  · simp [findInDirectory, shows.readInode inside, isDir] at found

theorem lookupLoop_reachable {fuel : Nat} (known : d ∈ V.reachable)
    (found : lookupLoop v fuel d path = .ok i) : i ∈ V.reachable := by
  fun_induction lookupLoop v fuel d path with
  | case1 | case2 =>
    cases found
    exact known
  | case3 _ _ _ _ _ _ _ ih => exact ih known found
  | case4 => cases found
  | case5 _ _ _ _ _ _ _ next step ih => exact ih (shows.findInDirectory_reachable ok known step) found

theorem lookupPath_reachable (found : ext2LookupPath v path = .ok i) :
    i ∈ V.reachable := by
  unfold ext2LookupPath at found
  split at found
  · cases found
  · exact shows.lookupLoop_reachable ok root_reachable found

/-- `lookup_parent_and_name` returns a directory that can be reached. -/
theorem lookupParentAndName_some
    (found : lookupParentAndName v path = some (p, name)) :
    p ∈ V.reachable ∧ inodeIsDir (V.inode p) = true ∧ (Normalized path → ProperName name) := by
  unfold lookupParentAndName at found
  split at found
  · cases found
  · next parentPath last split =>
    split at found
    · cases found
    · next parent looked =>
      have known := shows.lookupPath_reachable ok looked
      rw [shows.readInode (ok.isInode known)] at found
      by_cases isDir : inodeIsDir (V.inode parent) = true
      · simp only [isDir, Bool.not_true, Bool.false_eq_true, if_false, Option.some.injEq,
          Prod.mk.injEq] at found
        obtain ⟨rfl, rfl⟩ := found
        exact ⟨known, isDir, fun normal => normal.proper split⟩
      · simp [isDir] at found

omit ok in
theorem lookup_cases (inside : L.IsInode d) (isDir : inodeIsDir (V.inode d) = true)
    (data : ∀ b, b ∈ V.blocks (V.inode d) → L.IsData b) (shaped : V.Shaped (V.inode d))
    (name : List UInt8) :
    (lookupChildType v d name = none ∧ findInDirectory v d name = .error .notfound ∧
      ∀ k, k < ndirBlocks → k < V.leafCount (V.inode d) →
        ∀ r, r ∈ V.blockRecords (V.inode d) k → r.hasName name = false) ∨
    ∃ k before r after, V.First (V.inode d) (Rec.hasName name) k before r after ∧
      lookupChildType v d name = some (r.inode.toNat, r.fileType) ∧
      findInDirectory v d name = .ok r.inode.toNat := by
  rcases V.first_or_none (V.inode d) (Rec.hasName name) with absent | ⟨k, before, r, after, first⟩
  · obtain ⟨none, failed⟩ := shows.lookup_absent inside isDir data shaped absent
    refine .inl ⟨?_, failed, absent⟩
    rw [lookupChildType, none]
    rfl
  · obtain ⟨some, found⟩ := shows.lookup_found inside isDir data shaped first
    refine .inr ⟨k, before, r, after, first, ?_, found⟩
    have tiles := shaped.tiles_block first.block
    rw [first.split] at tiles
    have stored := (record_at tiles).1
    rw [lookupChildType, some]
    simp only [Option.map_some, stored.decode_inode, stored.decode_fileType]

/-- `lookup_child_type` in a directory that can be reached. -/
theorem lookupChildType_cases (known : p ∈ V.reachable)
    (isDir : inodeIsDir (V.inode p) = true) (name : List UInt8) :
    (lookupChildType v p name = none ∧ ∀ k, k < ndirBlocks → k < V.leafCount (V.inode p) →
      ∀ r, r ∈ V.blockRecords (V.inode p) k → r.hasName name = false) ∨
    ∃ k before r after, V.First (V.inode p) (Rec.hasName name) k before r after ∧
      lookupChildType v p name = some (r.inode.toNat, r.fileType) := by
  rcases shows.lookup_cases (ok.isInode known) isDir (dir_data ok.wellFormed.owns known isDir)
    (ok.dirOk known isDir).shaped name with ⟨none, _, absent⟩ | ⟨k, before, r, after, first, found, _⟩
  · exact .inl ⟨none, absent⟩
  · exact .inr ⟨k, before, r, after, first, found⟩

end Volume.Shows

/-- A handle from `ext2_open` holds what was read, and starts at 0. -/
theorem ext2Open_ok {v : Volume} {file : Ext2File} (opened : ext2Open v path = .ok file) :
    ext2LookupPath v path = .ok file.inode ∧ ext2ReadInode v file.inode = .ok file.inodeCache ∧
      file.size = file.inodeCache.iSize.toNat ∧ file.cursor = 0 ∧ file.isOpen = true := by
  rw [ext2Open] at opened
  cases looked : ext2LookupPath v path with
  | error _ =>
    rw [looked] at opened
    cases opened
  | ok i =>
    cases read : ext2ReadInode v i with
    | error _ =>
      simp only [looked, read] at opened
      cases opened
    | ok x =>
      simp only [looked, read, Except.ok.injEq] at opened
      subst opened
      exact ⟨rfl, read, rfl, rfl, rfl⟩

end GinnOS.Ext2
