import GinnOS.Ext2.Records
import GinnOS.Ext2.Contents
import GinnOS.Ext2.Image

/-! # Walking a directory

Lookup and the test for emptiness go through the twelve direct pointers of a
directory, enumeration goes through `resolve_data_block` up to the size.  Both are
described on the list of records of the directory (`View.recordsOf`), which tiles
the directory as a file (`View.Shaped.tiles`).  They agree exactly when every name
that is stored behind the direct blocks also occurs in them
(`walkers_agree_iff`).
-/

namespace GinnOS.Ext2

open Lib Lib.Buf List View Image

variable {k count fuel c : Nat} {before after rs : List Rec} {r : Rec} {name : List UInt8} {x : Inode}

namespace View

variable (V : View)

def leafCount (x : Inode) : Nat := x.iSize.toNat / V.blockSize

def blockRecords (x : Inode) (k : Nat) : List Rec := records V.blockSize (V.leaf x k)

def recordsOf (x : Inode) : List Rec := (List.range (V.leafCount x)).flatMap (V.blockRecords x)

/-- The size is a number of whole blocks, these blocks are there and no others, and each is tiled by
its records. -/
structure Shaped (x : Inode) : Prop where
  size : V.leafCount x * V.blockSize = x.iSize.toNat
  present : ∀ k, V.resolve x k ≠ 0 ↔ k < V.leafCount x
  tiled : ∀ k, k < V.leafCount x → Tiled V.blockSize (V.leaf x k)

/-- Record `r`, between `before` and `after` in block `k`, is the first one behind a direct pointer
that satisfies `p`. -/
structure First (x : Inode) (p : Rec → Bool) (k : Nat) (before : List Rec) (r : Rec)
    (after : List Rec) : Prop where
  direct : k < ndirBlocks
  block : k < V.leafCount x
  split : V.blockRecords x k = before ++ r :: after
  earlierBlocks : ∀ j, j < k → ∀ r, r ∈ V.blockRecords x j → p r = false
  earlier : ∀ r, r ∈ before → p r = false
  passes : p r = true

variable {V}

namespace Shaped

variable {x : Inode} (shaped : V.Shaped x)

include shaped

theorem leaf_eq (inside : k < V.leafCount x) : V.leaf x k = V.block (V.resolve x k) :=
  if_neg ((shaped.present k).mpr inside)

theorem tiles_block (inside : k < V.leafCount x) :
    TilesTo (V.leaf x k) 0 V.blockSize (V.blockRecords x k) := shaped.tiled k inside

theorem ptr_eq_zero_iff (direct : k < ndirBlocks) : x.ptr k = 0 ↔ V.leafCount x ≤ k := by
  have present := shaped.present k
  rw [resolve_direct direct] at present
  omega

end Shaped

/-- A record that satisfies `p` is found, or there is none behind the direct pointers. -/
theorem first_or_none (x : Inode) (p : Rec → Bool) :
    (∀ k, k < ndirBlocks → k < V.leafCount x → ∀ r, r ∈ V.blockRecords x k → p r = false) ∨
      ∃ k before r after, V.First x p k before r after := by
  by_cases some : ∃ k, k < ndirBlocks ∧ k < V.leafCount x ∧ ∃ r, r ∈ V.blockRecords x k ∧ p r = true
  · right
    -- The least such block, and in it the first such record.
    classical
    have least := Nat.find_spec some
    obtain ⟨direct, block, r, known, passes⟩ := least
    have found : ∃ r, (V.blockRecords x (Nat.find some)).find? p = Option.some r := by
      rw [← Option.isSome_iff_exists, find?_isSome]
      exact ⟨r, known, passes⟩
    obtain ⟨r, found⟩ := found
    obtain ⟨passes, before, after, split, earlier⟩ := find?_eq_some_iff_append.mp found
    refine ⟨Nat.find some, before, r, after, direct, block, split, ?_, ?_, passes⟩
    · intro j below r known
      have := Nat.find_min some below
      push Not at this
      simpa using this (by omega) (by omega) r known
    · intro r known
      simpa using earlier r known
  · left
    push Not at some
    intro k direct block r known
    simpa using some k direct block r known

end View

namespace Volume.Shows

variable {v : Volume} {L : Layout} {V : View} (shows : v.Shows L V) {x : Inode}
  (data : ∀ b, b ∈ V.blocks x → L.IsData b) (shaped : V.Shaped x)
  {test : Buf → Nat → DirEntry → Bool} {p : Rec → Bool} (tests : ∀ buf, Tests buf (test buf) p)

include shows

theorem size_eq : v.blockSize = V.blockSize := by rw [shows.has.blockSize, shows.blockSize_eq]

include data shaped

theorem readLeaf (inside : k < V.leafCount x) :
    Ext2.readBlock v (V.resolve x k) = some (V.leaf x k) := by
  rw [shaped.leaf_eq inside]
  exact shows.readBlock (data _ (resolve_mem ((shaped.present k).mpr inside)))

theorem scanBlocks_step (direct : k < ndirBlocks) :
    scanBlocks v x test (count + 1) k =
      if k < V.leafCount x then
        match scanEntries V.blockSize (V.leaf x k) (test (V.leaf x k)) k V.blockSize 0 with
        | .absent => scanBlocks v x test count (k + 1)
        | other => other
      else scanBlocks v x test count (k + 1) := by
  rw [scanBlocks]
  have absent := shaped.ptr_eq_zero_iff direct
  by_cases inside : k < V.leafCount x
  · have read := shows.readLeaf data shaped inside
    rw [resolve_direct direct] at read
    simp only [if_neg (show ¬ x.ptr k = 0 by omega), read, shows.size_eq, if_pos inside] <;> rfl
  · simp only [if_pos (show x.ptr k = 0 by omega), if_neg inside]

include tests

theorem scanBlocks_absent (range : k + count ≤ ndirBlocks)
    (none : ∀ j, k ≤ j → j < ndirBlocks → j < V.leafCount x → ∀ r, r ∈ V.blockRecords x j → p r = false) :
    scanBlocks v x test count k = .absent := by
  induction count generalizing k with
  | zero => rfl
  | succ count ih =>
    rw [shows.scanBlocks_step data shaped (by omega)]
    have rest := ih (k := k + 1) (by omega) fun j lower => none j (by omega)
    split
    · next inside =>
      rw [scanEntries_absent (tests _) (shaped.tiles_block inside)
        (none k (Nat.le_refl k) (by omega) inside)]
      exact rest
    · exact rest

theorem scanBlocks_found
    (first : V.First x p k before r after) {j : Nat} (start : j ≤ k) (range : k < j + count) :
    scanBlocks v x test count j = .found k (span Rec.len before)
      (DirEntry.decode (V.leaf x k) (span Rec.len before)) := by
  have direct := first.direct
  have block := first.block
  induction count generalizing j with
  | zero => omega
  | succ count ih =>
    rw [shows.scanBlocks_step data shaped (by omega), if_pos (by omega)]
    by_cases here : j = k
    · have tiles := shaped.tiles_block block
      rw [first.split] at tiles
      rw [here, scanEntries_found (tests _) tiles first.earlier first.passes (by omega)]
      simp only [Nat.zero_add]
    · rw [scanEntries_absent (tests _) (shaped.tiles_block (by omega))
        (first.earlierBlocks j (by omega))]
      exact ih (by omega) (by omega)

theorem walk_absent (none : ∀ k, k < ndirBlocks → k < V.leafCount x →
    ∀ r, r ∈ V.blockRecords x k → p r = false) : scanBlocks v x test ndirBlocks 0 = .absent :=
  shows.scanBlocks_absent data shaped tests (by omega) fun k _ => none k

theorem walk_found (first : V.First x p k before r after) :
    scanBlocks v x test ndirBlocks 0 = .found k (span Rec.len before)
      (DirEntry.decode (V.leaf x k) (span Rec.len before)) :=
  shows.scanBlocks_found data shaped tests first (Nat.zero_le k) (by have := first.direct; omega)

end Volume.Shows

/-! ## Lookup and emptiness -/

namespace Volume.Shows

variable {v : Volume} {L : Layout} {V : View} (shows : v.Shows L V) {i : Nat} (inside : L.IsInode i)
  (isDir : inodeIsDir (V.inode i) = true) (data : ∀ b, b ∈ V.blocks (V.inode i) → L.IsData b)
  (shaped : V.Shaped (V.inode i))

include shows inside isDir data shaped

/-- Both lookups return the first live record with the name, behind the direct pointers. -/
theorem lookup_found
    (first : V.First (V.inode i) (Rec.hasName name) k before r after) :
    findDirectoryEntry v i name = some (k, span Rec.len before,
        DirEntry.decode (V.leaf (V.inode i) k) (span Rec.len before)) ∧
      findInDirectory v i name = .ok r.inode.toNat := by
  have scanned := shows.walk_found data shaped (fun buf => nameTest_tests buf name) first
  have tiles := shaped.tiles_block first.block
  rw [first.split] at tiles
  have inode := (record_at tiles).1.decode_inode
  simp only [findDirectoryEntry, findInDirectory, shows.readInode inside, isDir, scanned, inode,
    Bool.not_true, Bool.false_eq_true, if_false, and_self]

theorem lookup_absent (absent : ∀ k, k < ndirBlocks →
      k < V.leafCount (V.inode i) → ∀ r, r ∈ V.blockRecords (V.inode i) k → r.hasName name = false) :
    findDirectoryEntry v i name = none ∧ findInDirectory v i name = .error .notfound := by
  have scanned := shows.walk_absent data shaped (fun buf => nameTest_tests buf name) absent
  simp only [findDirectoryEntry, findInDirectory, shows.readInode inside, isDir, scanned,
    Bool.not_true, Bool.false_eq_true, if_false, and_self]

theorem directoryIsEmpty_iff : directoryIsEmpty v i = true ↔ ∀ k, k < ndirBlocks →
    k < V.leafCount (V.inode i) → ∀ r, r ∈ V.blockRecords (V.inode i) k → r.isNamed = false := by
  rcases V.first_or_none (V.inode i) Rec.isNamed with none | ⟨k, before, r, after, first⟩
  · have scanned := shows.walk_absent data shaped namedTest_tests none
    simp only [directoryIsEmpty, shows.readInode inside, isDir, scanned, Bool.not_true,
      Bool.false_eq_true, if_false, true_iff]
    exact none
  · have scanned := shows.walk_found data shaped namedTest_tests first
    simp only [directoryIsEmpty, shows.readInode inside, isDir, scanned, Bool.not_true,
      Bool.false_eq_true, if_false, false_iff]
    intro none
    have known : r ∈ V.blockRecords (V.inode i) k := by simp [first.split]
    have failed := none k first.direct first.block r known
    simp [first.passes] at failed

end Volume.Shows

/-! ## Enumeration -/

/-- Record `r` is stored at position `c` of the directory, within one block. -/
def View.RecAtPos (V : View) (x : Inode) (c : Nat) (r : Rec) : Prop :=
  RecAt (V.leaf x (c / V.blockSize)) (c % V.blockSize) r ∧ c % V.blockSize + r.len ≤ V.blockSize

theorem View.tiles_pos {V : View} {lo : Nat}
    (tiles : TilesTo (V.leaf x k) lo V.blockSize rs) :
    Tiles Rec.len (V.RecAtPos x) (k * V.blockSize + lo) ((k + 1) * V.blockSize) rs := by
  induction rs generalizing lo with
  | nil =>
    have last : lo = V.blockSize := tiles
    simp only [tiles_nil]
    rw [last, Nat.succ_mul]
  | cons r rs ih =>
    obtain ⟨stored, rest⟩ := tiles
    have last := rest.end_eq
    have long := stored.long
    simp only [headerSize] at long
    have block : (k * V.blockSize + lo) / V.blockSize = k := by
      rw [Nat.add_comm, Nat.add_mul_div_right _ _ (by omega), Nat.div_eq_of_lt (by omega), Nat.zero_add]
    have offset : (k * V.blockSize + lo) % V.blockSize = lo := by
      rw [Nat.add_comm, Nat.add_mul_mod_self_right, Nat.mod_eq_of_lt (by omega)]
    refine ⟨⟨by rw [block, offset]; exact stored, by rw [offset]; omega⟩, ?_⟩
    rw [Nat.add_assoc]
    exact ih rest

theorem View.Shaped.tiles {V : View} (shaped : V.Shaped x) :
    Tiles Rec.len (V.RecAtPos x) 0 x.iSize.toNat (V.recordsOf x) := by
  have part (m : Nat) (bound : m ≤ V.leafCount x) : Tiles Rec.len (V.RecAtPos x) 0 (m * V.blockSize)
      ((range m).flatMap (V.blockRecords x)) := by
    induction m with
    | zero => simp
    | succ m ih =>
      have before := ih (by omega)
      have here := tiles_pos (shaped.tiles_block (show m < V.leafCount x by omega))
      have last := before.end_eq
      rw [range_succ, flatMap_append, tiles_append, ← last]
      exact ⟨before, by simpa using here⟩
  rw [← shaped.size]
  exact part _ (Nat.le_refl _)

/-- The records that `read_directory_entry` returns. -/
def Rec.isListed (r : Rec) : Bool := r.live && !r.name.isEmpty

/-- What is returned for a record. -/
def Rec.listed (r : Rec) : DirectoryEntry where
  inode := r.inode.toNat
  fileType := r.fileType
  size := 0
  name := r.name

/-- Call `ext2_read_entry` until it reports the end of the directory. -/
def enumerate (volume : Volume) : (fuel : Nat) → Ext2File → Option (List DirectoryEntry)
  | 0, _ => none
  | fuel + 1, file =>
    match ext2ReadEntry volume (fuel + 1) file with
    | some (.ok entry, file') => (enumerate volume fuel file').map (entry :: ·)
    | some (.error .noent, _) => some []
    | _ => none

namespace Volume.Shows

variable {v : Volume} {L : Layout} {V : View} (shows : v.Shows L V) {file : Ext2File}
  (data : ∀ b, b ∈ V.blocks file.inodeCache → L.IsData b) (shaped : V.Shaped file.inodeCache)

include shows data shaped

/-- One round of the loop of `read_directory_entry`. -/
theorem readDirectoryEntry_step (stored : V.RecAtPos file.inodeCache c r)
    (fits : c + r.len ≤ file.inodeCache.iSize.toNat) :
    readDirectoryEntry v (fuel + 1) { file with cursor := c } =
      if r.isListed then some (some r.listed, { file with cursor := c + r.len })
      else readDirectoryEntry v fuel { file with cursor := c + r.len } := by
  obtain ⟨here, within⟩ := stored
  have name := here.fits
  have positive : headerSize = 8 := rfl
  have bound : file.inodeCache.iSize.toNat < 4294967296 := UInt32.toNat_lt _
  have block : c / V.blockSize < V.leafCount file.inodeCache := by
    rw [Nat.div_lt_iff_lt_mul (by omega), shaped.size]
    omega
  have range := L.position_reachable c (by omega)
  rw [← shows.blockSize_eq] at range
  have resolved := shows.resolveDataBlock data range
  have read := shows.readLeaf data shaped block
  have next : u32 (c + r.len) = c + r.len := u32_of_lt (by omega)
  have nameLen : (DirEntry.decode (V.leaf file.inodeCache (c / V.blockSize)) (c % V.blockSize)).nameLen
      = 0 ↔ r.name = [] := by
    rw [← UInt8.toNat_inj, here.decode_nameLen]
    simp
  rw [readDirectoryEntry]
  simp only [shows.size_eq, resolved, read, here.decode_recLen, here.decode_nameLen, here.decode_inode,
    here.decode_fileType, here.bytes, next]
  rw [if_pos (by omega), if_neg (by omega), if_neg, if_neg (by omega), if_neg (by omega)]
  · by_cases dead : r.inode = 0
    · simp [dead, Rec.isListed, Rec.live]
    · by_cases unnamed : r.name = []
      · simp [nameLen.mpr unnamed, unnamed, Rec.isListed]
      · have kept : ¬ (DirEntry.decode (V.leaf file.inodeCache (c / V.blockSize))
            (c % V.blockSize)).nameLen = 0 := fun zero => unnamed (nameLen.mp zero)
        simp [dead, kept, unnamed, Rec.isListed, Rec.live, Rec.listed]
  · rintro (zero | beyond)
    · exact here.recLen_ne_zero zero
    · omega

/-- The next entry that is returned is the first listed one from the cursor on. -/
theorem readDirectoryEntry_cases
    (tiles : Tiles Rec.len (V.RecAtPos file.inodeCache) c file.inodeCache.iSize.toNat rs)
    (enough : rs.length < fuel) :
    ((∀ r, r ∈ rs → r.isListed = false) ∧ readDirectoryEntry v fuel { file with cursor := c } =
        some (none, { file with cursor := file.inodeCache.iSize.toNat })) ∨
      ∃ before r after, rs = before ++ r :: after ∧ (∀ r, r ∈ before → r.isListed = false) ∧
        r.isListed = true ∧
        readDirectoryEntry v fuel { file with cursor := c } =
          some (some r.listed, { file with cursor := c + span Rec.len before + r.len }) := by
  induction rs generalizing c fuel with
  | nil =>
    obtain rfl : c = file.inodeCache.iSize.toNat := tiles
    cases fuel with
    | zero => simp at enough
    | succ fuel => exact .inl ⟨by simp, by simp [readDirectoryEntry]⟩
  | cons r rs ih =>
    obtain ⟨stored, rest⟩ := tiles
    have last := rest.end_eq
    cases fuel with
    | zero => simp at enough
    | succ fuel =>
      rw [shows.readDirectoryEntry_step data shaped stored (by omega)]
      cases listed : r.isListed with
      | true => exact .inr ⟨[], r, rs, rfl, by simp, listed, by simp⟩
      | false =>
        simp only [Bool.false_eq_true, if_false]
        rcases ih rest (by simpa using enough) with ⟨none, ended⟩ | ⟨before, next, after, split, skipped, found, read⟩
        · exact .inl ⟨by simpa [listed] using none, ended⟩
        · refine .inr ⟨r :: before, next, after, by simp [split], by simpa [listed] using skipped, found, ?_⟩
          rw [read, span_cons]
          simp only [Nat.add_assoc]

/-- Enumeration returns the listed records in the order in which they are stored. -/
theorem enumerate_eq (isOpen : file.isOpen = true) (isDir : inodeIsDir file.inodeCache = true)
    (tiles : Tiles Rec.len (V.RecAtPos file.inodeCache) c file.inodeCache.iSize.toNat rs)
    (enough : rs.length < fuel) :
    enumerate v fuel { file with cursor := c } = some ((rs.filter Rec.isListed).map Rec.listed) := by
  induction fuel generalizing rs c with
  | zero => simp at enough
  | succ fuel ih =>
    rw [enumerate, ext2ReadEntry, if_neg (show ¬ (!file.isOpen) = true by simp [isOpen]),
      if_neg (show ¬ (!inodeIsDir file.inodeCache) = true by simp [isDir])]
    rcases shows.readDirectoryEntry_cases data shaped tiles enough with
      ⟨none, ended⟩ | ⟨before, r, after, split, skipped, found, read⟩
    · rw [ended]
      have empty : rs.filter Rec.isListed = [] := filter_eq_nil_iff.mpr (by simpa using none)
      simp [empty]
    · rw [read]
      rw [split] at tiles
      obtain ⟨_, _, rest⟩ := tiles_append.mp tiles
      have shorter : after.length < fuel := by
        rw [split, length_append, length_cons] at enough
        omega
      have front : before.filter Rec.isListed = [] :=
        filter_eq_nil_iff.mpr (by simpa using skipped)
      simp only [ih rest shorter, split, filter_append, front, nil_append,
        filter_cons_of_pos found, map_cons, Option.map_some]

end Volume.Shows

/-- A record has eight bytes at least, so a directory of `n` bytes has fewer than `n` records. -/
theorem View.Shaped.length_le {V : View} (shaped : V.Shaped x) :
    (V.recordsOf x).length ≤ x.iSize.toNat := by
  have count {rs : List Rec} {lo hi : Nat} (tiles : Tiles Rec.len (V.RecAtPos x) lo hi rs) :
      rs.length ≤ span Rec.len rs := by
    induction rs generalizing lo with
    | nil => simp
    | cons r rs ih =>
      have long := tiles.1.1.long
      have rest := ih tiles.2
      simp only [length_cons, span_cons, headerSize] at long ⊢
      omega
  have tiles := shaped.tiles
  have whole := tiles.end_eq
  have bound := count tiles
  omega

theorem View.mem_recordsOf {V : View} :
    r ∈ V.recordsOf x ↔ ∃ k, k < V.leafCount x ∧ r ∈ V.blockRecords x k := by
  simp [recordsOf]

theorem Volume.Shows.enumerate_start {v : Volume} {L : Layout} {V : View} (shows : v.Shows L V)
    {file : Ext2File} (data : ∀ b, b ∈ V.blocks file.inodeCache → L.IsData b)
    (shaped : V.Shaped file.inodeCache) (isOpen : file.isOpen = true)
    (isDir : inodeIsDir file.inodeCache = true) (start : file.cursor = 0)
    (enough : file.inodeCache.iSize.toNat < fuel) :
    enumerate v fuel file =
      some (((V.recordsOf file.inodeCache).filter Rec.isListed).map Rec.listed) := by
  have count := shaped.length_le
  have same : enumerate v fuel file = enumerate v fuel { file with cursor := 0 } := by rw [← start]
  exact same.trans (shows.enumerate_eq data shaped isOpen isDir shaped.tiles (by omega))

/-! ## Agreement of the walkers -/

section Agree

variable {v : Volume} {L : Layout} {V : View} (shows : v.Shows L V) {i : Nat} (inside : L.IsInode i)
  (isDir : inodeIsDir (V.inode i) = true) (data : ∀ b, b ∈ V.blocks (V.inode i) → L.IsData b)
  (shaped : V.Shaped (V.inode i))

include shows inside isDir data shaped

theorem lookup_succeeds_iff (name : List UInt8) : (∃ j, findInDirectory v i name = .ok j) ↔
    ∃ k r, k < ndirBlocks ∧ k < V.leafCount (V.inode i) ∧ r ∈ V.blockRecords (V.inode i) k ∧
      r.live = true ∧ r.name = name := by
  rcases V.first_or_none (V.inode i) (Rec.hasName name) with none | ⟨k, before, r, after, first⟩
  · rw [(shows.lookup_absent inside isDir data shaped none).2]
    constructor
    · rintro ⟨j, found⟩
      cases found
    · rintro ⟨k, r, direct, block, known, live, named⟩
      have failed := none k direct block r known
      simp [Rec.hasName, live, named] at failed
  · rw [(shows.lookup_found inside isDir data shaped first).2]
    have passes := first.passes
    simp only [Rec.hasName, Bool.and_eq_true, beq_iff_eq] at passes
    exact ⟨fun _ => ⟨k, r, first.direct, first.block, by simp [first.split], passes.1, passes.2⟩,
      fun _ => ⟨_, rfl⟩⟩

/-- On a well-formed directory, lookup finds exactly the enumerated names and the test for emptiness
is right about them, if and only if every name behind the direct blocks also occurs in them. -/
theorem walkers_agree_iff
    (named : ∀ r, r ∈ V.recordsOf (V.inode i) → r.live = true → r.name ≠ []) {file : Ext2File}
    (isOpen : file.isOpen = true) (start : file.cursor = 0) (cache : file.inodeCache = V.inode i)
    {fuel : Nat} (enough : (V.inode i).iSize.toNat < fuel) :
    ∃ entries, enumerate v fuel file = some entries ∧
      (((∀ name, (∃ j, findInDirectory v i name = .ok j) ↔ ∃ e, e ∈ entries ∧ e.name = name) ∧
          (directoryIsEmpty v i = true ↔
            ∀ e, e ∈ entries → e.name = [dot] ∨ e.name = [dot, dot])) ↔
        ∀ k, ndirBlocks ≤ k → k < V.leafCount (V.inode i) → ∀ r, r ∈ V.blockRecords (V.inode i) k →
          r.live = true → ∃ k' r', k' < ndirBlocks ∧ k' < V.leafCount (V.inode i) ∧
            r' ∈ V.blockRecords (V.inode i) k' ∧ r'.live = true ∧ r'.name = r.name) := by
  refine ⟨_, shows.enumerate_start (by rw [cache]; exact data) (by rw [cache]; exact shaped) isOpen
    (by rw [cache]; exact isDir) start (by rw [cache]; exact enough), ?_⟩
  -- A name is enumerated when a live record of any block has it.
  have enumerated (name : List UInt8) :
      (∃ e, e ∈ ((V.recordsOf file.inodeCache).filter Rec.isListed).map Rec.listed ∧ e.name = name) ↔
        ∃ r, r ∈ V.recordsOf (V.inode i) ∧ r.live = true ∧ r.name = name := by
    rw [cache]
    constructor
    · rintro ⟨e, known, rfl⟩
      obtain ⟨r, listed, rfl⟩ := mem_map.mp known
      have kept := mem_filter.mp listed
      simp only [Rec.isListed, Bool.and_eq_true] at kept
      exact ⟨r, kept.1, kept.2.1, rfl⟩
    · rintro ⟨r, known, live, rfl⟩
      refine ⟨r.listed, mem_map.mpr ⟨r, mem_filter.mpr ⟨known, ?_⟩, rfl⟩, rfl⟩
      simp [Rec.isListed, live, named r known live]
  have onlyDots : (∀ e, e ∈ ((V.recordsOf file.inodeCache).filter Rec.isListed).map Rec.listed →
      e.name = [dot] ∨ e.name = [dot, dot]) ↔
        ∀ r, r ∈ V.recordsOf (V.inode i) → r.isNamed = false := by
    constructor
    · intro dots r known
      by_contra isNamed
      simp only [Rec.isNamed, Bool.not_eq_false, Bool.and_eq_true, bne_iff_ne] at isNamed
      obtain ⟨e, listed, same⟩ := (enumerated r.name).mpr ⟨r, known, isNamed.1.1, rfl⟩
      have := dots e listed
      rw [same] at this
      exact this.elim isNamed.1.2 isNamed.2
    · intro none e listed
      obtain ⟨r, known, live, same⟩ := (enumerated e.name).mp ⟨e, listed, rfl⟩
      have := none r known
      rw [← same]
      simp only [Rec.isNamed, live, Bool.true_and, Bool.and_eq_false_iff, bne_eq_false_iff_eq] at this
      exact this
  rw [onlyDots, shows.directoryIsEmpty_iff inside isDir data shaped]
  simp only [enumerated, lookup_succeeds_iff shows inside isDir data shaped]
  constructor
  · rintro ⟨lookup, _⟩ k _ block r known live
    exact (lookup r.name).mpr ⟨r, mem_recordsOf.mpr ⟨k, block, known⟩, live, rfl⟩
  · intro repeated
    -- Every live name of the directory is behind a direct pointer.
    have direct {r : Rec} (known : r ∈ V.recordsOf (V.inode i)) (live : r.live = true) :
        ∃ k' r', k' < ndirBlocks ∧ k' < V.leafCount (V.inode i) ∧
          r' ∈ V.blockRecords (V.inode i) k' ∧ r'.live = true ∧ r'.name = r.name := by
      obtain ⟨k, block, stored⟩ := mem_recordsOf.mp known
      by_cases low : k < ndirBlocks
      · exact ⟨k, r, low, block, stored, live, rfl⟩
      · exact repeated k (by omega) block r stored live
    refine ⟨fun name => ⟨?_, ?_⟩, ⟨?_, ?_⟩⟩
    · rintro ⟨k, r, _, block, known, live, same⟩
      exact ⟨r, mem_recordsOf.mpr ⟨k, block, known⟩, live, same⟩
    · rintro ⟨r, known, live, rfl⟩
      exact direct known live
    · intro none r known
      by_contra isNamed
      simp only [Rec.isNamed, Bool.not_eq_false, Bool.and_eq_true, bne_iff_ne] at isNamed
      obtain ⟨k, r', low, block, stored, live, same⟩ := direct known isNamed.1.1
      have := none k low block r' stored
      simp [Rec.isNamed, live, same, isNamed.1.2, isNamed.2] at this
    · intro none k _ block r known
      exact none r (mem_recordsOf.mpr ⟨k, block, known⟩)

end Agree

namespace Image

/-- A root directory of thirteen blocks, as `mke2fs` lays it out: twelve direct ones, and one behind
the indirect block 19.  The only file is entered in the last block. -/
def bigDir : Image where
  blockBits := [0xff, 0xff, 0x0f]
  inodeBits := [0xff, 0x07]
  freeBlocks := 11
  freeInodes := 5
  inodes i :=
    if i = inodeRoot then
      { Inode.zero with
        iMode := 0x41ED
        iLinksCount := 2
        iSize := 13312
        iBlocks := 28
        iBlock := fun k => if k.val < 12 then UInt32.ofNat (7 + k) else if k.val = 12 then 19 else 0 }
    else if i = 11 then setupNewFileInode
    else Inode.zero
  blocks b :=
    if b = 7 then initialDirectoryBlock 1024 inodeRoot inodeRoot
    else if b = 19 then ofList (bytes32 20)
    else if b = 20 then insertEntry (fun _ => 0) 0 1024 11 [97] ftRegFile
    else insertEntry (fun _ => 0) 0 1024 0 [] 0

/-- The check that a directory without double and triple indirect blocks is well shaped. -/
theorem shaped {v : Volume} {x : Inode} (checked : x.ptr 13 = 0 ∧ x.ptr 14 = 0 ∧
      (seen v).leafCount x * 1024 = x.iSize.toNat ∧ (seen v).leafCount x ≤ 268 ∧
      (∀ k, k < 268 → ((seen v).resolve x k ≠ 0 ↔ k < (seen v).leafCount x)) ∧
      ∀ k, k < (seen v).leafCount x → Tiled 1024 ((seen v).leaf x k)) : (seen v).Shaped x := by
  obtain ⟨double, triple, size, few, present, tiled⟩ := checked
  refine ⟨size, fun k => ?_, tiled⟩
  by_cases low : k < 268
  · exact present k low
  · have absent : (seen v).resolve x k = 0 := by
      have fanout : (seen v).fanout = 256 := by simp [fanout, seen]
      simp only [resolve, double, triple, descend_absent, ite_self, fanout,
        show ndirBlocks = 12 from rfl]
      rw [if_neg (by omega), if_neg (by omega)]
    omega

theorem bigDir_inode : (layout.view bigDir.volume).inode inodeRoot = bigDir.inodes inodeRoot := by
  rw [view_eq_seen]
  exact Inode.encode_inj (by decide +kernel)

theorem bigDir_shaped : (layout.view bigDir.volume).Shaped (bigDir.inodes inodeRoot) := by
  rw [view_eq_seen]
  exact shaped (by decide +kernel)

/-- A handle on the directory, as `ext2_open` returns it. -/
def bigDirHandle : Ext2File where
  inode := inodeRoot
  size := 13312
  cursor := 0
  fileType := ftDir
  isOpen := true
  inodeCache := bigDir.inodes inodeRoot

end Image

/-- The walkers disagree on the sample directory, because its last name is not repeated. -/
theorem walkers_agree_iff_bigDir :
    ∃ entries, enumerate Image.bigDir.volume 13313 Image.bigDirHandle = some entries ∧
      ¬ ((∀ name, (∃ j, findInDirectory Image.bigDir.volume inodeRoot name = .ok j) ↔
            ∃ e, e ∈ entries ∧ e.name = name) ∧
          (directoryIsEmpty Image.bigDir.volume inodeRoot = true ↔
            ∀ e, e ∈ entries → e.name = [dot] ∨ e.name = [dot, dot])) := by
  have known := bigDir_inode
  obtain ⟨entries, listed, agree⟩ := walkers_agree_iff bigDir.shows (i := inodeRoot)
    ⟨by decide, by decide⟩ (by rw [known]; decide)
    (by
      rw [known, view_eq_seen]
      simp only [isData_iff]
      decide +kernel)
    (by rw [known]; exact bigDir_shaped)
    (by rw [known, view_eq_seen]; decide +kernel)
    (show bigDirHandle.isOpen = true from rfl) rfl known.symm
    (show ((layout.view bigDir.volume).inode inodeRoot).iSize.toNat < 13313 by
      rw [known]; decide)
  rw [known, view_eq_seen] at agree
  refine ⟨entries, listed, fun both => ?_⟩
  obtain ⟨k, r, low, _, stored, live, name⟩ := agree.mp both 12 (by decide) (by decide +kernel)
    ⟨11, 1024, ftRegFile, [97]⟩ (by decide +kernel) (by decide)
  have none : ∀ k, k < 12 → ∀ r, r ∈ (seen bigDir.volume).blockRecords
      (bigDir.inodes inodeRoot) k → r.live = true → r.name ≠ [97] := by decide +kernel
  exact none k low r stored live name

/-- The file is enumerated, but lookup does not find it and the directory counts as empty. -/
theorem hidden_entry_not_found :
    (Image.layout.view Image.bigDir.volume).Shaped (Image.bigDir.inodes inodeRoot) ∧
      (enumerate Image.bigDir.volume 20 Image.bigDirHandle).map (·.map (·.name)) =
        some [[dot], [dot, dot], [97]] ∧
      (findInDirectory Image.bigDir.volume inodeRoot [97]).toOption = none ∧
      directoryIsEmpty Image.bigDir.volume inodeRoot = true :=
  ⟨bigDir_shaped, by decide +kernel, by decide +kernel, by decide +kernel⟩

end GinnOS.Ext2
