import GinnOS.Lib.Tiling
import GinnOS.Ext2.File

/-! # Directory blocks as lists of records

A well-formed directory block is tiled by records (`Tiled`).  On such a block the
walkers of the driver are list functions: a scan finds the first record that
passes its test (`scanEntries_found`, `scanEntries_absent`), and every change the
driver makes replaces one record by one or two others (`insert_dead`,
`insert_split`, `kill`, `rename`, `relink`).
-/

namespace GinnOS.Ext2

open Lib Lib.Buf List

variable {buf' buf : Buf} {size off k sp child : Nat} {rs before after : List Rec} {r : Rec} {e : DirEntry}
  {name : List UInt8} {fileType : UInt8}

/-- A record of a directory block.  A record with inode 0 is dead. -/
structure Rec where
  inode : UInt32
  len : Nat
  fileType : UInt8
  name : List UInt8
  deriving DecidableEq

def Rec.live (r : Rec) : Bool := r.inode != 0

/-- The record whose header is at `off`. -/
def readRec (buf : Buf) (off : Nat) : Rec where
  inode := le32 buf off
  len := (le16 buf (off + 4)).toNat
  fileType := buf (off + 7)
  name := toList buf (off + headerSize) (buf (off + 6)).toNat

/-- Record `r` is stored at `off`, and its length covers its header and its name. -/
structure RecAt (buf : Buf) (off : Nat) (r : Rec) : Prop where
  stored : readRec buf off = r
  fits : headerSize + r.name.length ≤ r.len

/-- The records of a block, up to the first malformed one. -/
def parse (buf : Buf) (size : Nat) : (fuel off : Nat) → List Rec
  | 0, _ => []
  | fuel + 1, off =>
    if off + headerSize ≤ size then
      let r := readRec buf off
      if headerSize + r.name.length ≤ r.len ∧ off + r.len ≤ size then
        r :: parse buf size fuel (off + r.len)
      else []
    else []

def records (size : Nat) (buf : Buf) : List Rec := parse buf size size 0

abbrev TilesTo (buf : Buf) (lo hi : Nat) (rs : List Rec) : Prop := Tiles Rec.len (RecAt buf) lo hi rs

def Tiled (size : Nat) (buf : Buf) : Prop := TilesTo buf 0 size (records size buf)

instance (buf : Buf) (off : Nat) (r : Rec) : Decidable (RecAt buf off r) :=
  decidable_of_iff (readRec buf off = r ∧ headerSize + r.name.length ≤ r.len)
    ⟨fun both => ⟨both.1, both.2⟩, fun at_ => ⟨at_.stored, at_.fits⟩⟩

instance (size : Nat) (buf : Buf) : Decidable (Tiled size buf) :=
  inferInstanceAs (Decidable (TilesTo buf 0 size (records size buf)))

namespace RecAt

variable {buf : Buf} {off : Nat} {r : Rec} (at_ : RecAt buf off r)

include at_

theorem long : headerSize ≤ r.len := by
  have := at_.fits
  omega

theorem decode_inode : (DirEntry.decode buf off).inode = r.inode := congrArg Rec.inode at_.stored

theorem decode_recLen : (DirEntry.decode buf off).recLen.toNat = r.len := congrArg Rec.len at_.stored

theorem decode_fileType : (DirEntry.decode buf off).fileType = r.fileType :=
  congrArg Rec.fileType at_.stored

theorem name_eq : toList buf (off + headerSize) (buf (off + 6)).toNat = r.name :=
  congrArg Rec.name at_.stored

theorem decode_nameLen : (DirEntry.decode buf off).nameLen.toNat = r.name.length := by
  rw [← at_.name_eq, toList_length]
  rfl

theorem recLen_ne_zero : (DirEntry.decode buf off).recLen ≠ 0 := by
  intro zero
  have recLen := at_.decode_recLen
  have long := at_.long
  rw [zero] at recLen
  have none : (0 : UInt16).toNat = 0 := rfl
  simp only [headerSize] at long
  omega

theorem bytes : toList buf (off + headerSize) r.name.length = r.name := by
  have length : (buf (off + 6)).toNat = r.name.length := at_.decode_nameLen
  rw [← length]
  exact at_.name_eq

theorem congr (agree : AgreeOn off (off + r.len) buf buf') : RecAt buf' off r := by
  have fits := at_.fits
  have nameLen := at_.decode_nameLen
  have length : headerSize = 8 := rfl
  refine ⟨?_, at_.fits⟩
  rw [← at_.stored]
  have word : le32 buf' off = le32 buf off := (le32_congr (agree.mono (by omega) (by omega))).symm
  have half : le16 buf' (off + 4) = le16 buf (off + 4) :=
    (le16_congr (agree.mono (by omega) (by omega))).symm
  have six : buf' (off + 6) = buf (off + 6) := (agree _ (by omega) (by omega)).symm
  have seven : buf' (off + 7) = buf (off + 7) := (agree _ (by omega) (by omega)).symm
  have size : (buf (off + 6)).toNat = r.name.length := nameLen
  have name : toList buf' (off + headerSize) (buf (off + 6)).toNat =
      toList buf (off + headerSize) (buf (off + 6)).toNat :=
    (toList_congr (agree.mono (by omega) (by omega))).symm
  simp only [readRec, word, half, six, seven, name]

end RecAt

theorem parse_tiles {fuel : Nat} (tiles : TilesTo buf off size rs)
    (enough : size ≤ off + fuel) : parse buf size fuel off = rs := by
  induction fuel generalizing off rs with
  | zero =>
    cases rs with
    | nil => rfl
    | cons r rs =>
      have long := tiles.1.long
      have last := tiles.end_eq
      simp only [span_cons, headerSize] at last long
      omega
  | succ fuel ih =>
    unfold parse
    cases rs with
    | nil =>
      have last : off = size := tiles
      rw [if_neg (by simp only [headerSize]; omega)]
    | cons r rs =>
      obtain ⟨stored, rest⟩ := tiles
      have long := stored.long
      have last := rest.end_eq
      rw [if_pos (by omega)]
      simp only [stored.stored]
      rw [if_pos ⟨stored.fits, by omega⟩, ih rest (by simp only [headerSize] at long; omega)]

theorem records_eq (tiles : TilesTo buf 0 size rs) :
    records size buf = rs := parse_tiles tiles (by omega)

theorem tiled_of_tiles (tiles : TilesTo buf 0 size rs) :
    Tiled size buf := by
  rw [Tiled, records_eq tiles]
  exact tiles

/-! ## Scanning a block -/

/-- On stored records the test of a walker is a predicate of the record. -/
def Tests (buf : Buf) (test : Nat → DirEntry → Bool) (p : Rec → Bool) : Prop :=
  ∀ off r, RecAt buf off r → test off (DirEntry.decode buf off) = p r

section Scan

variable {buf : Buf} {size fuel off blockIndex : Nat} {test : Nat → DirEntry → Bool} {p : Rec → Bool}

theorem not_malformed (stored : RecAt buf off r) (inside : off + r.len ≤ size) :
    malformed size off (DirEntry.decode buf off) = false := by
  have fits := stored.fits
  rw [malformed, stored.decode_recLen, stored.decode_nameLen,
    beq_eq_false_iff_ne.mpr stored.recLen_ne_zero]
  simp only [Bool.or_false, Bool.or_eq_false_iff, decide_eq_false_iff_not]
  omega

theorem scanEntries_step (tests : Tests buf test p) (stored : RecAt buf off r)
    (inside : off + r.len ≤ size) :
    scanEntries size buf test blockIndex (fuel + 1) off =
      if p r then .found blockIndex off (DirEntry.decode buf off)
      else scanEntries size buf test blockIndex fuel (off + r.len) := by
  have long := stored.long
  rw [scanEntries, if_pos (by omega)]
  simp only [not_malformed stored inside, tests off r stored, stored.decode_recLen, Bool.false_eq_true,
    if_false]

theorem scanEntries_absent (tests : Tests buf test p) (tiles : TilesTo buf off size rs)
    (none : ∀ r, r ∈ rs → p r = false) :
    scanEntries size buf test blockIndex fuel off = .absent := by
  induction rs generalizing off fuel with
  | nil =>
    have last : off = size := tiles
    cases fuel with
    | zero => rfl
    | succ fuel =>
      rw [scanEntries, if_neg]
      simp only [headerSize]
      omega
  | cons r rs ih =>
    obtain ⟨stored, rest⟩ := tiles
    have last := rest.end_eq
    cases fuel with
    | zero => rfl
    | succ fuel =>
      rw [scanEntries_step tests stored (by omega), none r mem_cons_self]
      exact ih rest fun r known => none r (mem_cons_of_mem _ known)

theorem scanEntries_found (tests : Tests buf test p)
    (tiles : TilesTo buf off size (before ++ r :: after)) (none : ∀ r, r ∈ before → p r = false)
    (passes : p r = true) (enough : size ≤ off + fuel) :
    scanEntries size buf test blockIndex fuel off =
      .found blockIndex (off + span Rec.len before)
        (DirEntry.decode buf (off + span Rec.len before)) := by
  induction before generalizing off fuel with
  | nil =>
    obtain ⟨stored, rest⟩ := tiles
    have last := rest.end_eq
    have long := stored.long
    cases fuel with
    | zero =>
      simp only [headerSize] at long
      omega
    | succ fuel =>
      rw [scanEntries_step tests stored (by omega), passes]
      rfl
  | cons first before ih =>
    obtain ⟨stored, rest⟩ := tiles
    have last := rest.end_eq
    have long := stored.long
    simp only [headerSize] at long
    cases fuel with
    | zero => omega
    | succ fuel =>
      rw [scanEntries_step tests stored (by omega), none first mem_cons_self, span_cons,
        ← Nat.add_assoc]
      exact ih rest (fun r known => none r (mem_cons_of_mem _ known)) (by omega)

end Scan

def Rec.hasName (name : List UInt8) (r : Rec) : Bool := r.live && r.name == name

/-- A live record other than `.` and `..`. -/
def Rec.isNamed (r : Rec) : Bool := r.live && r.name != [dot] && r.name != [dot, dot]

theorem nameTest_tests (buf : Buf) (name : List UInt8) :
    Tests buf (nameTest name buf) (Rec.hasName name) := by
  intro off r stored
  rw [nameTest, stored.decode_inode, stored.decode_nameLen, Rec.hasName, Rec.live, Bool.and_assoc]
  congr 1
  by_cases same : name.length = r.name.length
  · rw [same, stored.bytes]
    simp
  · have other : r.name ≠ name := fun equal => same (congrArg length equal.symm)
    rw [beq_eq_false_iff_ne.mpr same, beq_eq_false_iff_ne.mpr other, Bool.false_and]

theorem namedTest_tests (buf : Buf) : Tests buf (namedTest buf) Rec.isNamed := by
  intro off r stored
  have name := stored.bytes
  have nameLen (n : UInt8) : ((DirEntry.decode buf off).nameLen == n) = (r.name.length == n.toNat) := by
    rw [Bool.eq_iff_iff, beq_iff_eq, beq_iff_eq, ← stored.decode_nameLen, UInt8.toNat_inj]
  rw [namedTest, stored.decode_inode, nameLen, nameLen, Rec.isNamed, Rec.live]
  -- Names of length one and two are compared byte by byte.
  match h : r.name with
  | [] => simp [bne]
  | [a] =>
    rw [h] at name
    obtain rfl : buf (off + headerSize) = a := by simpa [toList] using name
    simp [bne]
  | [a, b] =>
    rw [h] at name
    obtain ⟨rfl, rfl⟩ : buf (off + headerSize) = a ∧ buf (off + headerSize + 1) = b := by
      simpa [toList, range_succ] using name
    simp [bne]
  | _ :: _ :: _ :: _ => simp [bne]

/-! ## Changing a block -/

theorem decode_congr (agree : AgreeOn off (off + headerSize) buf buf') :
    DirEntry.decode buf' off = DirEntry.decode buf off := by
  have length : headerSize = 8 := rfl
  have word := le32_congr (agree.mono (Nat.le_refl off) (by omega))
  have half : le16 buf (off + 4) = le16 buf' (off + 4) :=
    le16_congr (agree.mono (by omega) (by omega))
  have six := agree (off + 6) (by omega) (by omega)
  have seven := agree (off + 7) (by omega) (by omega)
  simp only [DirEntry.decode, word, half, six, seven]

theorem store_outside (e : DirEntry) (outside : k < off ∨ off + headerSize ≤ k) :
    DirEntry.store buf off e k = buf k := by
  simp only [headerSize] at outside
  rw [DirEntry.store, put8_other (by omega), put8_other (by omega), put16_outside (by omega),
    put32_outside (by omega)]

theorem decode_store (buf : Buf) (off : Nat) (e : DirEntry) :
    DirEntry.decode (DirEntry.store buf off e) off = e := by
  have inode : le32 (DirEntry.store buf off e) off = e.inode := by
    have same : AgreeOn off (off + 4) (DirEntry.store buf off e) (put32 buf off e.inode) := by
      intro k lower upper
      rw [DirEntry.store, put8_other (by omega), put8_other (by omega), put16_outside (by omega)]
    rw [le32_congr same, le32_put32]
  have recLen : le16 (DirEntry.store buf off e) (off + 4) = e.recLen := by
    have same : AgreeOn (off + 4) (off + 4 + 2) (DirEntry.store buf off e)
        (put16 (put32 buf off e.inode) (off + 4) e.recLen) := by
      intro k lower upper
      rw [DirEntry.store, put8_other (by omega), put8_other (by omega)]
    rw [le16_congr same, le16_put16]
  have nameLen : DirEntry.store buf off e (off + 6) = e.nameLen := by
    rw [DirEntry.store, put8_other (by omega), put8_self]
  have fileType : DirEntry.store buf off e (off + 7) = e.fileType := put8_self _ _ _
  simp only [DirEntry.decode, inode, recLen, nameLen, fileType]

theorem RecAt.of_decode
    (header : DirEntry.decode buf off = e) (length : e.nameLen.toNat = name.length)
    (bytes : toList buf (off + headerSize) name.length = name)
    (fits : headerSize + name.length ≤ e.recLen.toNat) :
    RecAt buf off ⟨e.inode, e.recLen.toNat, e.fileType, name⟩ := by
  refine ⟨?_, fits⟩
  have nameLen : (buf (off + 6)).toNat = name.length := by
    rw [← length, ← header]
    rfl
  have inode : le32 buf off = e.inode := congrArg DirEntry.inode header
  have recLen : le16 buf (off + 4) = e.recLen := congrArg DirEntry.recLen header
  have fileType : buf (off + 7) = e.fileType := congrArg DirEntry.fileType header
  simp only [readRec, nameLen, bytes, inode, recLen, fileType]

theorem RecAt.of_header (stored : RecAt buf off r)
    (header : DirEntry.decode buf' off = e) (nameLen : e.nameLen = (DirEntry.decode buf off).nameLen)
    (long : headerSize + r.name.length ≤ e.recLen.toNat)
    (same : AgreeOn (off + headerSize) (off + headerSize + r.name.length) buf' buf) :
    RecAt buf' off ⟨e.inode, e.recLen.toNat, e.fileType, r.name⟩ := by
  refine .of_decode header ?_ ?_ long
  · rw [nameLen, stored.decode_nameLen]
  · rw [toList_congr same, stored.bytes]

theorem insertEntry_at
    (short : name.length < 256) (small : sp < 65536) (fits : headerSize + name.length ≤ sp) :
    RecAt (insertEntry buf off sp child name fileType) off
      ⟨UInt32.ofNat child, sp, fileType, name⟩ := by
  have recLen : (UInt16.ofNat sp).toNat = sp := UInt16.toNat_ofNat_of_lt' small
  have header : DirEntry.decode (insertEntry buf off sp child name fileType) off =
      ⟨UInt32.ofNat child, UInt16.ofNat sp, UInt8.ofNat name.length, fileType⟩ := by
    unfold insertEntry
    rw [decode_congr (agreeOn_splice_outside (.inl (Nat.le_refl _))).symm, decode_store]
  have stored := RecAt.of_decode header (UInt8.toNat_ofNat_of_lt' short) (toList_splice_ofList _ _ _)
    (by rw [recLen]; exact fits)
  rw [recLen] at stored
  exact stored

theorem insertEntry_outside
    (fits : headerSize + name.length ≤ sp) (outside : k < off ∨ off + sp ≤ k) :
    insertEntry buf off sp child name fileType k = buf k := by
  unfold insertEntry
  rw [splice_outside (by omega), store_outside _ (by omega), fill, splice_outside (by omega)]

theorem tiles_change {ms : List Rec}
    (tiles : TilesTo buf 0 size (before ++ r :: after))
    (outside : ∀ k, k < span Rec.len before ∨ span Rec.len before + r.len ≤ k → buf' k = buf k)
    (filled : TilesTo buf' (span Rec.len before) (span Rec.len before + r.len) ms) :
    TilesTo buf' 0 size (before ++ (ms ++ after)) := by
  refine tiles.replace ?_ (by simpa using filled)
  intro off x apart stored
  refine stored.congr fun k lower upper => (outside k ?_).symm
  omega

/-- What a removed entry becomes. -/
def Rec.killed (r : Rec) : Rec := { r with inode := 0, fileType := 0, name := [] }

section Change

variable {buf : Buf} {size : Nat} {before after : List Rec} {r : Rec}
  (tiles : TilesTo buf 0 size (before ++ r :: after))

include tiles

theorem record_at : RecAt buf (span Rec.len before) r ∧ span Rec.len before + r.len ≤ size := by
  simpa using tiles.at

theorem tiles_set {r' : Rec} (stored : RecAt buf' (span Rec.len before) r')
    (length : r'.len = r.len)
    (outside : ∀ k, k < span Rec.len before ∨ span Rec.len before + r.len ≤ k → buf' k = buf k) :
    TilesTo buf' 0 size (before ++ r' :: after) := by
  have filled : TilesTo buf' (span Rec.len before) (span Rec.len before + r.len) [r'] :=
    ⟨stored, by rw [length]; rfl⟩
  exact tiles_change tiles outside filled

/-- `remove_directory_entry`. -/
theorem kill : TilesTo (DirEntry.store buf (span Rec.len before)
      { DirEntry.decode buf (span Rec.len before) with inode := 0, nameLen := 0, fileType := 0 })
    0 size (before ++ r.killed :: after) := by
  obtain ⟨stored, _⟩ := record_at tiles
  have long := stored.long
  refine tiles_set tiles ?_ rfl fun k apart => store_outside _ (by omega)
  have dead := RecAt.of_decode (decode_store buf (span Rec.len before)
    { DirEntry.decode buf (span Rec.len before) with inode := 0, nameLen := 0, fileType := 0 })
    (show _ = ([] : List UInt8).length from rfl) rfl (by rw [stored.decode_recLen]; exact long)
  simp only [stored.decode_recLen] at dead
  exact dead

/-- `update_directory_parent_link`. -/
theorem relink (parent : UInt32) : TilesTo (put32 buf (span Rec.len before) parent) 0 size
    (before ++ { r with inode := parent } :: after) := by
  obtain ⟨stored, _⟩ := record_at tiles
  have long := stored.long
  have length : headerSize = 8 := rfl
  refine tiles_set tiles ?_ rfl fun k apart => put32_outside (by omega)
  have rest : AgreeOn (span Rec.len before + 4) (span Rec.len before + r.len)
      (put32 buf (span Rec.len before) parent) buf := fun k lower _ => put32_outside (by omega)
  have header : DirEntry.decode (put32 buf (span Rec.len before) parent) (span Rec.len before) =
      { DirEntry.decode buf (span Rec.len before) with inode := parent } := by
    have half := le16_congr (rest.mono (Nat.le_refl _) (show _ + 2 ≤ _ by omega))
    have six := rest (span Rec.len before + 6) (by omega) (by omega)
    have seven := rest (span Rec.len before + 7) (by omega) (by omega)
    simp only [DirEntry.decode, le32_put32, half, six, seven]
  have moved := stored.of_header header rfl (by rw [stored.decode_recLen]; exact stored.fits)
    fun k lower upper => put32_outside (by omega)
  simp only [stored.decode_recLen, stored.decode_fileType] at moved
  exact moved

/-- `update_directory_entry_name`, when the new name fits into the record. -/
theorem rename (short : name.length < 256)
    (fits : headerSize + name.length ≤ r.len) :
    TilesTo (splice (put8 (put8 buf (span Rec.len before + 6) (UInt8.ofNat name.length))
        (span Rec.len before + 7) r.fileType) (span Rec.len before + headerSize) name.length (ofList name))
      0 size (before ++ { r with name := name } :: after) := by
  obtain ⟨stored, _⟩ := record_at tiles
  have length : headerSize = 8 := rfl
  generalize new : put8 (put8 buf (span Rec.len before + 6) (UInt8.ofNat name.length))
    (span Rec.len before + 7) r.fileType = buf'
  refine tiles_set tiles ?_ rfl fun k apart => ?_
  · have front : AgreeOn (span Rec.len before) (span Rec.len before + 6) buf' buf := by
      intro k lower upper
      rw [← new, put8_other (by omega), put8_other (by omega)]
    have header : DirEntry.decode (splice buf' (span Rec.len before + headerSize) name.length
        (ofList name)) (span Rec.len before) =
        { DirEntry.decode buf (span Rec.len before) with nameLen := UInt8.ofNat name.length } := by
      rw [decode_congr (agreeOn_splice_outside (.inl (Nat.le_refl _))).symm]
      have word := le32_congr (front.mono (Nat.le_refl _) (by omega))
      have half := le16_congr (front.mono (show _ ≤ span Rec.len before + 4 by omega) (by omega))
      have six : buf' (span Rec.len before + 6) = UInt8.ofNat name.length := by
        rw [← new, put8_other (by omega), put8_self]
      have seven : buf' (span Rec.len before + 7) = buf (span Rec.len before + 7) := by
        rw [← new, put8_self]
        exact stored.decode_fileType.symm
      simp only [DirEntry.decode, word, half, six, seven]
    have renamed := RecAt.of_decode header (UInt8.toNat_ofNat_of_lt' short)
      (toList_splice_ofList _ _ _) (by rw [stored.decode_recLen]; exact fits)
    simp only [stored.decode_recLen, stored.decode_inode, stored.decode_fileType] at renamed
    exact renamed
  · rw [splice_outside (by omega), ← new, put8_other (by omega), put8_other (by omega)]

theorem insert_dead (short : name.length < 256)
    (small : size < 65536) (fits : headerSize + name.length ≤ r.len) :
    TilesTo (insertEntry buf (span Rec.len before) r.len child name fileType) 0 size
      (before ++ ⟨UInt32.ofNat child, r.len, fileType, name⟩ :: after) := by
  obtain ⟨_, inside⟩ := record_at tiles
  exact tiles_set tiles (insertEntry_at short (by omega) fits) rfl
    fun k apart => insertEntry_outside fits apart

/-- A new entry in the slack behind a live one, whose record is cut to `used` bytes. -/
theorem insert_split {used : Nat}
    (short : name.length < 256) (small : size < 65536) (keeps : headerSize + r.name.length ≤ used)
    (fits : used + (headerSize + name.length) ≤ r.len) :
    TilesTo (insertEntry (put16 buf (span Rec.len before + 4) (UInt16.ofNat used))
        (span Rec.len before + used) (r.len - used) child name fileType) 0 size
      (before ++ { r with len := used } ::
        ⟨UInt32.ofNat child, r.len - used, fileType, name⟩ :: after) := by
  obtain ⟨stored, inside⟩ := record_at tiles
  have length : headerSize = 8 := rfl
  have recLen : (UInt16.ofNat used).toNat = used := UInt16.toNat_ofNat_of_lt' (by
    change used < 65536
    omega)
  generalize new : put16 buf (span Rec.len before + 4) (UInt16.ofNat used) = buf'
  have same (k : Nat) (apart : k < span Rec.len before + 4 ∨ span Rec.len before + 6 ≤ k) :
      buf' k = buf k := by
    rw [← new, put16_outside (by omega)]
  have cut : RecAt buf' (span Rec.len before) { r with len := used } := by
    have header : DirEntry.decode buf' (span Rec.len before) =
        { DirEntry.decode buf (span Rec.len before) with recLen := UInt16.ofNat used } := by
      have word := le32_congr (fun k _ upper => same k (.inl upper) :
        AgreeOn (span Rec.len before) (span Rec.len before + 4) buf' buf)
      have half : le16 buf' (span Rec.len before + 4) = UInt16.ofNat used := by
        rw [← new, le16_put16]
      simp only [DirEntry.decode, word, half, same (span Rec.len before + 6) (by omega),
        same (span Rec.len before + 7) (by omega)]
    have shorter := stored.of_header header rfl (by rw [recLen]; exact keeps)
      fun k lower upper => same k (by omega)
    simp only [recLen, stored.decode_inode, stored.decode_fileType] at shorter
    exact shorter
  have filled : TilesTo (insertEntry buf' (span Rec.len before + used) (r.len - used) child name fileType)
      (span Rec.len before) (span Rec.len before + r.len)
      [{ r with len := used }, ⟨UInt32.ofNat child, r.len - used, fileType, name⟩] := by
    refine ⟨cut.congr fun k lower upper => ?_, insertEntry_at short (by omega) (by omega), ?_⟩
    · exact (insertEntry_outside (by omega) (.inl upper)).symm
    · change span Rec.len before + used + (r.len - used) = span Rec.len before + r.len
      omega
  refine tiles_change tiles (fun k apart => ?_) filled
  rw [insertEntry_outside (by omega) (by omega), same k (by omega)]

end Change

/-! ## Looking for room -/

theorem header_le_dirEntrySize (n : Nat) : headerSize + n ≤ dirEntrySize n := by
  simp only [dirEntrySize, align4]
  omega

/-- An entry of `needed` bytes can go into a dead record, or behind the name of a live one. -/
def Rec.hasRoom (needed : Nat) (r : Rec) : Bool :=
  decide ((if r.live then dirEntrySize r.name.length else 0) + needed ≤ r.len)

section Append

variable {buf : Buf} {size fuel off child : Nat} {name : List UInt8} {fileType : UInt8}

/-- The block with the new entry in record `r` at `off`. -/
def appended (buf : Buf) (off child : Nat) (name : List UInt8) (fileType : UInt8) (r : Rec) : Buf :=
  if r.live then
    insertEntry (put16 buf (off + 4) (UInt16.ofNat (dirEntrySize r.name.length)))
      (off + dirEntrySize r.name.length) (r.len - dirEntrySize r.name.length) child name fileType
  else insertEntry buf off r.len child name fileType

theorem appendInBlock_step (stored : RecAt buf off r) (inside : off + r.len ≤ size) :
    appendInBlock size child name fileType buf (fuel + 1) off =
      if r.hasRoom (dirEntrySize name.length) then .done (appended buf off child name fileType r)
      else appendInBlock size child name fileType buf fuel (off + r.len) := by
  have long := stored.long
  rw [appendInBlock, if_pos (by omega)]
  simp only [stored.decode_recLen, stored.decode_inode, stored.decode_nameLen]
  have wellFormed : ¬ ((DirEntry.decode buf off).recLen = 0 ∨ off + r.len > size) := by
    rintro (zero | beyond)
    · exact stored.recLen_ne_zero zero
    · omega
  rw [if_neg wellFormed]
  by_cases dead : r.inode = 0
  · simp [dead, Rec.hasRoom, Rec.live, appended]
  · simp [dead, Rec.hasRoom, Rec.live, appended]

theorem appendInBlock_full (tiles : TilesTo buf off size rs)
    (none : ∀ r, r ∈ rs → r.hasRoom (dirEntrySize name.length) = false) :
    appendInBlock size child name fileType buf fuel off = .full := by
  induction rs generalizing off fuel with
  | nil =>
    have last : off = size := tiles
    cases fuel with
    | zero => rfl
    | succ fuel =>
      rw [appendInBlock, if_neg]
      simp only [headerSize]
      omega
  | cons r rs ih =>
    obtain ⟨stored, rest⟩ := tiles
    have last := rest.end_eq
    cases fuel with
    | zero => rfl
    | succ fuel =>
      rw [appendInBlock_step stored (by omega), none r mem_cons_self]
      exact ih rest fun r known => none r (mem_cons_of_mem _ known)

theorem appendInBlock_done
    (tiles : TilesTo buf off size (before ++ r :: after))
    (none : ∀ r, r ∈ before → r.hasRoom (dirEntrySize name.length) = false)
    (room : r.hasRoom (dirEntrySize name.length) = true) (enough : size ≤ off + fuel) :
    appendInBlock size child name fileType buf fuel off =
      .done (appended buf (off + span Rec.len before) child name fileType r) := by
  induction before generalizing off fuel with
  | nil =>
    obtain ⟨stored, rest⟩ := tiles
    have last := rest.end_eq
    have long := stored.long
    simp only [headerSize] at long
    cases fuel with
    | zero => omega
    | succ fuel =>
      rw [appendInBlock_step stored (by omega), room]
      rfl
  | cons first before ih =>
    obtain ⟨stored, rest⟩ := tiles
    have last := rest.end_eq
    have long := stored.long
    simp only [headerSize] at long
    cases fuel with
    | zero => omega
    | succ fuel =>
      rw [appendInBlock_step stored (by omega), none first mem_cons_self, span_cons,
        ← Nat.add_assoc]
      exact ih rest (fun r known => none r (mem_cons_of_mem _ known)) (by omega)

end Append

/-- The records that take the place of `r` when an entry goes into it. -/
def Rec.filled (r : Rec) (child : Nat) (name : List UInt8) (fileType : UInt8) : List Rec :=
  if r.live then
    [{ r with len := dirEntrySize r.name.length },
      ⟨UInt32.ofNat child, r.len - dirEntrySize r.name.length, fileType, name⟩]
  else [⟨UInt32.ofNat child, r.len, fileType, name⟩]

theorem appended_tiles (tiles : TilesTo buf 0 size (before ++ r :: after))
    (short : name.length < 256) (small : size < 65536)
    (room : r.hasRoom (dirEntrySize name.length) = true) :
    TilesTo (appended buf (span Rec.len before) child name fileType r) 0 size
      (before ++ (r.filled child name fileType ++ after)) := by
  have needed := header_le_dirEntrySize name.length
  have used := header_le_dirEntrySize r.name.length
  cases alive : r.live with
  | true =>
    simp only [Rec.hasRoom, alive, if_true, decide_eq_true_eq] at room
    simp only [appended, Rec.filled, alive, if_true]
    exact insert_split tiles short small used (by omega)
  | false =>
    simp only [Rec.hasRoom, alive, Bool.false_eq_true, if_false, decide_eq_true_eq] at room
    simp only [appended, Rec.filled, alive, Bool.false_eq_true, if_false]
    exact insert_dead tiles short small (by omega)

/-! ## New blocks -/

theorem tiles_clip (tiles : TilesTo buf 0 size rs) :
    TilesTo (clip size buf) 0 size rs :=
  tiles.imp fun _ _ _ upper stored =>
    stored.congr ((agreeOn_clip size buf).symm.mono (Nat.zero_le _) upper)

/-- The block that `append_or_replace_directory_entry` adds to a full directory. -/
theorem newBlock_tiles
    (short : name.length < 256) (small : size < 65536) (fits : headerSize + name.length ≤ size) :
    TilesTo (insertEntry (fun _ => 0) 0 size child name fileType) 0 size
      [⟨UInt32.ofNat child, size, fileType, name⟩] :=
  ⟨insertEntry_at short small fits, Nat.zero_add size⟩

theorem initialDirectoryBlock_tiles (inode parent : Nat) (large : 24 ≤ size)
    (small : size < 65536) :
    TilesTo (initialDirectoryBlock size inode parent) 0 size
      [⟨UInt32.ofNat inode, 12, ftDir, [dot]⟩, ⟨UInt32.ofNat parent, size - 12, ftDir, [dot, dot]⟩] := by
  have recLen : (UInt16.ofNat (size - 12)).toNat = size - 12 :=
    UInt16.toNat_ofNat_of_lt' (show size - 12 < 65536 by omega)
  unfold initialDirectoryBlock
  simp only [show dirEntrySize 1 = 12 from rfl]
  generalize front : splice (DirEntry.store (fun _ => 0) 0 ⟨UInt32.ofNat inode, UInt16.ofNat 12, 1, ftDir⟩)
    headerSize 1 (ofList [dot]) = first
  have dotAt : RecAt first 0 ⟨UInt32.ofNat inode, 12, ftDir, [dot]⟩ := by
    have header : DirEntry.decode first 0 = ⟨UInt32.ofNat inode, UInt16.ofNat 12, 1, ftDir⟩ := by
      rw [← front, decode_congr (agreeOn_splice_outside (.inl (by omega))).symm, decode_store]
    refine RecAt.of_decode header (show _ = [dot].length from rfl) ?_ (show 8 + 1 ≤ 12 by decide)
    rw [← front, Nat.zero_add]
    exact toList_splice_ofList _ _ [dot]
  refine ⟨dotAt.congr fun k _ upper => ?_, ?_, ?_⟩
  · have upper : k < 0 + 12 := upper
    rw [splice_outside (by omega), store_outside _ (by omega)]
  · have header : DirEntry.decode (splice (DirEntry.store first 12
        ⟨UInt32.ofNat parent, UInt16.ofNat (size - 12), 2, ftDir⟩) (12 + headerSize) 2 (ofList [dot, dot]))
        12 = ⟨UInt32.ofNat parent, UInt16.ofNat (size - 12), 2, ftDir⟩ := by
      rw [decode_congr (agreeOn_splice_outside (.inl (by omega))).symm, decode_store]
    have stored := RecAt.of_decode header (show _ = [dot, dot].length from rfl)
      (toList_splice_ofList _ _ [dot, dot])
      (by rw [recLen]; change 8 + 2 ≤ size - 12; omega)
    rw [recLen] at stored
    exact stored
  · change 0 + 12 + (size - 12) = size
    omega

end GinnOS.Ext2
