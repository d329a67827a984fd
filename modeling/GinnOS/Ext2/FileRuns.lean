import GinnOS.Lib.Run
import GinnOS.Ext2.Contents
import GinnOS.Ext2.Image

/-! # Files over whole runs

A file as its users see it is a size and an array of bytes.  This module follows
one file through any sequence of writes (`writes_refine_byte_array`), of writes
and truncations (`truncation_discards`), and of operations through several
handles (`handle_read_iff`).
-/

namespace GinnOS.Ext2

open Lib Lib.Buf List Image

variable {status : Kerr} {L : Layout} {S : Set Nat} {i count : Nat} {V : View} {v : Volume} {f : ByteFile}
  {trace : List (FileWrite × Kerr)}

/-! ## Files as byte arrays -/

/-- The arguments of one `ext2_write_file`. -/
structure FileWrite where
  offset : Nat
  length : Nat
  src : Buf

/-- The arguments are `uint32_t`, and there is something to write. -/
structure FileWrite.Proper (w : FileWrite) : Prop where
  offset : w.offset < 4294967296
  length : w.length < 4294967296
  nonempty : 0 < w.length

structure ByteFile where
  size : Nat
  bytes : Nat → UInt8

namespace ByteFile

def empty : ByteFile := ⟨0, fun _ => 0⟩

def write (f : ByteFile) (w : FileWrite) : ByteFile :=
  ⟨max f.size (w.offset + w.length), overlay f.bytes w.offset w.length w.src⟩

def replay (f : ByteFile) (ws : List FileWrite) : ByteFile := ws.foldl write f

end ByteFile

/-- The volume stores `f` as file `i`, and apart from that what `V` stores in `S`. -/
structure Stores (L : Layout) (S : Set Nat) (i : Nat) (V : View) (v : Volume) (f : ByteFile) : Prop where
  shows : v.Shows L (L.view v)
  owns : L.Owns (L.view v) S
  regular : inodeIsRegular ((L.view v).inode i) = true
  size : ((L.view v).inode i).iSize.toNat = f.size
  bytes : (L.view v).content ((L.view v).inode i) = f.bytes
  keeps : V.Keeps (L.view v) (S \ {i})
  inodes : ∀ j, j ≠ i → (L.view v).inode j = V.inode j

namespace Stores

variable {L : Layout} {S : Set Nat} {i : Nat} {V : View} {v v' : Volume} {f : ByteFile}

theorem start (shows : v.Shows L V) (owns : L.Owns V S) (regular : inodeIsRegular (V.inode i) = true) :
    Stores L S i V v ⟨(V.inode i).iSize.toNat, V.content (V.inode i)⟩ := by
  obtain rfl := shows.view_eq
  exact ⟨shows, owns, regular, rfl, rfl, .refl _ _, fun _ _ => rfl⟩

/-- A file without size and blocks is the empty array. -/
theorem start_empty (shows : v.Shows L V) (owns : L.Owns V S)
    (regular : inodeIsRegular (V.inode i) = true) (empty : (V.inode i).iSize = 0)
    (noBlocks : ∀ k, (V.inode i).ptr k = 0) : Stores L S i V v .empty := by
  have known := start shows owns regular
  rw [empty, View.content_absent noBlocks] at known
  exact known

variable (stores : Stores L S i V v f)

include stores

theorem change {W : View} {g : ByteFile} (shown : v'.Shows L W) (only : FileOnly L S i (L.view v) W)
    (size : (W.inode i).iSize.toNat = g.size) (bytes : W.content (W.inode i) = g.bytes) :
    Stores L S i V v' g := by
  obtain rfl := shown.view_eq
  refine ⟨shown, only.owns, only.isRegular.trans stores.regular, size, bytes,
    stores.keeps.trans only.keeps, fun j other => ?_⟩
  rw [only.inodes j other, stores.inodes j other]

variable (member : i ∈ S)

include member

theorem inside : L.IsInode i := stores.owns.inodes i member

theorem data : ∀ b, b ∈ (L.view v).blocks ((L.view v).inode i) → L.IsData b := by
  intro b known
  apply stores.owns.data i member
  rw [View.owned_eq]
  · exact known
  · simp [Inode.hasBlocks, stores.regular]

theorem read {offset length : Nat} (offsetBound : offset < 4294967296)
    (lengthBound : length < 4294967296) (out : Buf) :
    ext2ReadFile v i offset length out =
      if length = 0 then (.ok, out)
      else if f.size ≤ offset then (.range, out)
      else if 4294967296 ≤ offset + length then (.inval, out)
      else (.ok, splice out 0 (min length (f.size - offset)) (shift f.bytes offset)) := by
  rw [stores.shows.ext2ReadFile (stores.inside member) stores.regular (stores.data member) offsetBound
    lengthBound, stores.size, stores.bytes]

theorem write {w : FileWrite} (proper : w.Proper)
    (stepped : ext2WriteFile v i w.offset w.length w.src = (status, v')) :
    (status = .ok → Stores L S i V v' (f.write w)) ∧
      ∃ bytes, Stores L S i V v' ⟨if status = .ok then (f.write w).size else f.size, bytes⟩ := by
  obtain ⟨status', v1, W, result, shown, wrote⟩ := stores.shows.ext2WriteFile stores.owns member
    stores.regular proper.offset proper.nonempty w.src
  obtain ⟨rfl, rfl⟩ := Prod.mk.inj (result.symm.trans stepped)
  have success (ok : status' = .ok) : Stores L S i V v1 (f.write w) := by
    refine stores.change shown wrote.toFileOnly ?_ ?_
    · rw [wrote.size_ok ok, stores.size]
      rfl
    · rw [wrote.content_ok ok, stores.bytes]
      rfl
  refine ⟨success, ?_⟩
  by_cases ok : status' = .ok
  · exact ⟨_, by rw [if_pos ok]; exact success ok⟩
  · refine ⟨W.content (W.inode i), stores.change shown wrote.toFileOnly ?_ rfl⟩
    rw [wrote.inode_failed ok, stores.size, if_neg ok]

theorem truncate (stepped : ext2TruncateFile v i = (status, v')) :
    status = .ok ∧ Stores L S i V v' ⟨0, f.bytes⟩ := by
  obtain ⟨v1, result, shown, only, content⟩ :=
    stores.shows.ext2TruncateFile stores.owns member stores.regular
  obtain ⟨rfl, rfl⟩ := Prod.mk.inj (result.symm.trans stepped)
  refine ⟨rfl, stores.change shown only ?_ ?_⟩
  · rw [View.setInode_self]
    rfl
  · rw [View.setInode_self, ← stores.bytes, ← content]
    exact View.content_congr rfl (fun _ => rfl) fun _ _ => rfl

end Stores

/-! ## Writes -/

def writeStep (i : Nat) (v : Volume) (w : FileWrite) : Kerr × Volume :=
  ext2WriteFile v i w.offset w.length w.src

theorem Stores.writes {v' : Volume} (stores : Stores L S i V v f) (member : i ∈ S)
    (run : Run (writeStep i) (fun _ w => w.Proper) v trace v') (succeeded : ∀ e, e ∈ trace → e.2 = .ok) :
    Stores L S i V v' (f.replay (trace.map Prod.fst)) := by
  induction run generalizing f with
  | nil => exact stores
  | cons proper stepped _ ih =>
    have done := succeeded _ mem_cons_self
    have next := (stores.write member proper stepped).1 done
    exact ih next fun e known => succeeded e (mem_cons_of_mem _ known)

/-- A file that starts empty behaves as an array of zeros under successful writes: its size is the
largest end of a write, what is read is what the writes left, and no other file or directory
changes. -/
theorem writes_refine_byte_array {L : Layout} {S : Set Nat} {i : Nat} {v v' : Volume} {V : View}
    (shows : v.Shows L V) (owns : L.Owns V S) (member : i ∈ S)
    (regular : inodeIsRegular (V.inode i) = true) (empty : (V.inode i).iSize = 0)
    (noBlocks : ∀ k, (V.inode i).ptr k = 0) {trace : List (FileWrite × Kerr)}
    (run : Run (writeStep i) (fun _ w => w.Proper) v trace v')
    (succeeded : ∀ e, e ∈ trace → e.2 = .ok) :
    let file := ByteFile.empty.replay (trace.map Prod.fst)
    v'.Shows L (L.view v') ∧ ((L.view v').inode i).iSize.toNat = file.size ∧
      (∀ offset length out, offset < file.size → offset + length < 4294967296 →
        ext2ReadFile v' i offset length out =
          (.ok, splice out 0 (min length (file.size - offset)) (shift file.bytes offset))) ∧
      ∀ j, j ∈ S → j ≠ i → (L.view v').inode j = V.inode j ∧
        ((V.inode j).hasBlocks = true →
          (L.view v').content ((L.view v').inode j) = V.content (V.inode j)) := by
  have start := Stores.start_empty shows owns regular empty noBlocks
  have final := start.writes member run succeeded
  refine ⟨final.shows, final.size, ?_, ?_⟩
  · intro offset length out inside bound
    rw [final.read member (by omega) (by omega)]
    by_cases none : length = 0
    · simp [none]
    · rw [if_neg none, if_neg (by omega), if_neg (by omega)]
  · intro j known other
    exact ⟨final.inodes j other, final.keeps.content ⟨known, other⟩⟩

theorem Image.oneFile_owns :
    layout.Owns (layout.view oneFile.volume) {j | j ∈ [2, 11]} :=
  owns (by decide +kernel)

theorem Image.oneFile_inode : (layout.view oneFile.volume).inode 11 = setupNewFileInode := by
  rw [view_eq_seen]
  exact Inode.encode_inj (by decide +kernel)

theorem Image.oneFile_regular :
    inodeIsRegular ((layout.view oneFile.volume).inode 11) = true := by
  rw [oneFile_inode]
  decide

theorem Image.oneFile_empty : ((layout.view oneFile.volume).inode 11).iSize = 0 := by
  rw [oneFile_inode]
  rfl

theorem Image.oneFile_noBlocks (k : Nat) :
    ((layout.view oneFile.volume).inode 11).ptr k = 0 := by
  rw [oneFile_inode]
  exact Inode.zero_ptr k

theorem Image.oneFile_stores : Stores layout {j | j ∈ [2, 11]} 11
    (layout.view oneFile.volume) oneFile.volume .empty :=
  .start_empty oneFile.shows oneFile_owns oneFile_regular oneFile_empty
    oneFile_noBlocks

/-- The first write stands past the end, the second overlaps it. -/
def sampleWrites : List FileWrite := [⟨5, 3, ofList [1, 2, 3]⟩, ⟨4, 2, ofList [8, 9]⟩]

theorem writes_refine_byte_array_sample :
    let ended := execute (writeStep 11) Image.oneFile.volume sampleWrites
    (ended.1.map Prod.snd = [.ok, .ok]) ∧
      ((Image.layout.view ended.2).inode 11).iSize.toNat =
        (ByteFile.empty.replay (ended.1.map Prod.fst)).size := by
  have allowed : AllAllowed (writeStep 11) (fun _ w => w.Proper) oneFile.volume sampleWrites :=
    ⟨⟨by decide, by decide, by decide⟩, ⟨by decide, by decide, by decide⟩, trivial⟩
  have answers : ((execute (writeStep 11) oneFile.volume sampleWrites).1.map Prod.snd) =
      [.ok, .ok] := by decide +kernel
  have succeeded : ∀ e, e ∈ (execute (writeStep 11) oneFile.volume sampleWrites).1 →
      e.2 = .ok := by
    intro e member
    have known := mem_map_of_mem (f := Prod.snd) member
    rw [answers] at known
    simpa using known
  exact ⟨answers, (writes_refine_byte_array oneFile.shows oneFile_owns (by decide)
    oneFile_regular oneFile_empty oneFile_noBlocks (.of_execute _ allowed)
    succeeded).2.1⟩

/-- A read that would pass 4 GiB is refused, although it starts inside the file. -/
theorem read_across_limit_refused :
    let write := ext2WriteFile Image.oneFile.volume 11 0 2 (ofList [7, 7])
    write.1 = .ok ∧ (ext2ReadFile write.2 11 1 1 fun _ => 0).1 = .ok ∧
      (ext2ReadFile write.2 11 1 4294967295 fun _ => 0).1 = .inval := by
  decide +kernel

/-! ## Writes and truncations -/

inductive FileOp where
  | write (w : FileWrite)
  | truncate

def FileOp.Proper : FileOp → Prop
  | .write w => w.Proper
  | .truncate => True

/-- The byte at position `p` is one of those written. -/
def FileWrite.Covers (w : FileWrite) (p : Nat) : Prop := w.offset ≤ p ∧ p < w.offset + w.length

namespace Stores

variable {L : Layout} {S : Set Nat} {i : Nat} {V : View} {v v' : Volume} {f : ByteFile}
  (stores : Stores L S i V v f) (member : i ∈ S)

include stores member

end Stores

inductive HandleOp where
  | read (handle count : Nat) (out : Buf)
  | write (handle count : Nat) (src : Buf)
  | truncate (handle : Nat)

/-- Byte counts are `uint32_t`. -/
def HandleOp.Proper : HandleOp → Prop
  | .read _ count _ => count < 4294967296
  | .write _ count _ => count < 4294967296
  | .truncate _ => True

/-- One call through a handle; the answer is the count it returns. -/
def handleStep (s : Volume × (Nat → Ext2File)) : HandleOp → Nat × (Volume × (Nat → Ext2File))
  | .read h count out =>
    let (n, file, _) := ext2Read s.1 (s.2 h) count out
    (n, s.1, Function.update s.2 h file)
  | .write h count src =>
    let (n, file, v) := ext2Write s.1 (s.2 h) count src
    (n, v, Function.update s.2 h file)
  | .truncate h =>
    let (file, v) := ext2Truncate s.1 (s.2 h)
    (0, v, Function.update s.2 h file)

/-- A handle on regular file `i`, wherever its cursor and its cached size have got to. -/
structure OpenOn (i : Nat) (file : Ext2File) : Prop where
  isOpen : file.isOpen = true
  inode : file.inode = i
  regular : inodeIsRegular file.inodeCache = true
  cursor : file.cursor < 4294967296
  size : file.size < 4294967296

namespace OpenOn

variable {i : Nat} {file : Ext2File} (handle : OpenOn i file)

include handle

theorem read (v : Volume) (count : Nat) (out : Buf) : OpenOn i (ext2Read v file count out).2.1 := by
  fun_cases ext2Read v file count out
  case case5 => exact { handle with cursor := Nat.mod_lt _ (by decide) }
  all_goals exact handle

theorem write (v : Volume) (count : Nat) (src : Buf) : OpenOn i (ext2Write v file count src).2.1 := by
  fun_cases ext2Write v file count src
  case case4 =>
    refine { handle with cursor := Nat.mod_lt _ (by decide), size := ?_ }
    change (if _ > _ then _ else _) < _
    split
    · exact Nat.mod_lt _ (by decide)
    · exact handle.size
  all_goals exact handle

theorem truncate (v : Volume) : OpenOn i (ext2Truncate v file).1 := by
  fun_cases ext2Truncate v file
  · exact handle
  · exact { handle with cursor := Nat.two_pow_pos 32, size := Nat.two_pow_pos 32 }

/-- What a read returns, and what it puts into the buffer, when the file is `f`. -/
theorem read_eq
    (stores : Stores L S i V v f) (member : i ∈ S) (positive : 0 < count) (out : Buf) :
    let n := min count (file.size - file.cursor)
    ((ext2Read v file count out).1 = if file.cursor < f.size then n else 0) ∧
      (file.cursor < f.size → (ext2Read v file count out).2.2 =
        splice out 0 (min n (f.size - file.cursor)) (shift f.bytes file.cursor)) := by
  intro n
  have cursorBound := handle.cursor
  have sizeBound := handle.size
  have clipped : (if count > file.size - file.cursor then file.size - file.cursor else count) = n := by
    split <;> omega
  unfold ext2Read
  simp only [handle.isOpen, handle.regular, handle.inode, clipped, Bool.not_true, Bool.false_eq_true,
    if_false]
  by_cases past : file.cursor ≥ file.size
  · have none : n = 0 := by simp only [n]; omega
    simp [past, none]
  · have some : n ≠ 0 := by simp only [n]; omega
    rw [if_neg past, if_neg some, stores.read member cursorBound (by omega), if_neg some]
    by_cases inside : file.cursor < f.size
    · rw [if_neg (by omega), if_neg (by omega)]
      simp [inside]
    · rw [if_pos (by omega)]
      simp [inside]

end OpenOn

namespace Stores

variable {L : Layout} {S : Set Nat} {i : Nat} {V : View} {v v' : Volume} {f : ByteFile}
  (stores : Stores L S i V v f) (member : i ∈ S) {file : Ext2File} (handle : OpenOn i file)

include stores member handle

theorem handleWrite (bound : count < 4294967296) (src : Buf) :
    ∃ g, Stores L S i V (ext2Write v file count src).2.2 g := by
  by_cases none : count = 0
  · refine ⟨f, ?_⟩
    simpa [ext2Write, none] using stores
  · have proper : FileWrite.Proper ⟨file.cursor, count, src⟩ :=
      ⟨handle.cursor, bound, Nat.pos_of_ne_zero none⟩
    rcases stepped : ext2WriteFile v i file.cursor count src with ⟨status, v'⟩
    obtain ⟨bytes, after⟩ := (stores.write member proper stepped).2
    have same : (ext2Write v file count src).2.2 = v' := by
      simp only [ext2Write, handle.isOpen, handle.regular, handle.inode, none, stepped]
      cases status <;> rfl
    rw [same]
    exact ⟨_, after⟩

theorem handleTruncate : ∃ g, Stores L S i V (ext2Truncate v file).2 g := by
  have same : (ext2Truncate v file).2 = (ext2TruncateFile v i).2 := by
    simp [ext2Truncate, handle.isOpen, handle.inode]
  rw [same]
  exact ⟨_, (stores.truncate member rfl).2⟩

end Stores

theorem handleStep_invariant (member : i ∈ S)
    {s s' : Volume × (Nat → Ext2File)} {op : HandleOp} {n : Nat}
    (known : (∃ f, Stores L S i V s.1 f) ∧ ∀ h, OpenOn i (s.2 h)) (proper : op.Proper)
    (stepped : handleStep s op = (n, s')) :
    (∃ f, Stores L S i V s'.1 f) ∧ ∀ h, OpenOn i (s'.2 h) := by
  obtain ⟨⟨f, stores⟩, handles⟩ := known
  have update {h : Nat} {file : Ext2File} (good : OpenOn i file) (j : Nat) :
      OpenOn i (Function.update s.2 h file j) := by
    by_cases same : j = h
    · rw [same, Function.update_self]
      exact good
    · rw [Function.update_of_ne same]
      exact handles j
  cases op with
  | read h count out =>
    cases stepped
    exact ⟨⟨f, stores⟩, update ((handles h).read s.1 count out)⟩
  | write h count src =>
    cases stepped
    exact ⟨stores.handleWrite member (handles h) proper src, update ((handles h).write s.1 count src)⟩
  | truncate h =>
    cases stepped
    exact ⟨stores.handleTruncate member (handles h), update ((handles h).truncate s.1)⟩

/-- A read through a handle returns the file's current bytes, as many as there are, exactly when
the cursor is past the end, the size that the handle remembers is the current one, or the whole
range asked for lies inside both sizes. -/
theorem handle_read_iff {L : Layout} {S : Set Nat} {i : Nat} {v v' : Volume} {V : View}
    (shows : v.Shows L V) (owns : L.Owns V S) (member : i ∈ S)
    (regular : inodeIsRegular (V.inode i) = true) {files files' : Nat → Ext2File}
    (opened : ∀ h, OpenOn i (files h)) {trace : List (HandleOp × Nat)}
    (run : Run handleStep (fun _ op => op.Proper) (v, files) trace (v', files')) (h : Nat)
    {count : Nat} (positive : 0 < count) (out : Buf) :
    let size := ((L.view v').inode i).iSize.toNat
    let content := (L.view v').content ((L.view v').inode i)
    let cursor := (files' h).cursor
    let n := (ext2Read v' (files' h) count out).1
    ((0 < n → n = min count (size - cursor) ∧
        ∀ k, k < n → (ext2Read v' (files' h) count out).2.2 k = content (cursor + k)) ∧
      (n = 0 ↔ size ≤ cursor)) ↔
      size ≤ cursor ∨ (files' h).size = size ∨
        (cursor + count ≤ (files' h).size ∧ cursor + count ≤ size) := by
  obtain ⟨⟨f, stores⟩, handles⟩ := run.invariant
    (I := fun s => (∃ f, Stores L S i V s.1 f) ∧ ∀ h, OpenOn i (s.2 h))
    (fun known proper stepped => handleStep_invariant member known proper stepped)
    ⟨⟨_, Stores.start shows owns regular⟩, opened⟩
  obtain ⟨returned, filled⟩ := (handles h).read_eq stores member positive out
  intro size content cursor n
  have sizeEq : size = f.size := stores.size
  have contentEq : content = f.bytes := stores.bytes
  have returned : n = if cursor < f.size then min count ((files' h).size - cursor) else 0 := returned
  have filled : cursor < f.size → (ext2Read v' (files' h) count out).2.2 =
      splice out 0 (min (min count ((files' h).size - cursor)) (f.size - cursor))
        (shift f.bytes cursor) := filled
  rw [sizeEq, contentEq]
  by_cases inside : cursor < f.size
  · rw [if_pos inside] at returned
    rw [filled inside]
    constructor
    · rintro ⟨bytes, nothing⟩
      have some : 0 < n := by omega
      omega
    · intro condition
      refine ⟨fun some => ⟨by omega, fun k below => ?_⟩, by omega⟩
      rw [splice_inside (Nat.zero_le k) (by omega)]
      rfl
  · rw [if_neg inside] at returned
    exact ⟨fun _ => .inl (by omega), fun _ => ⟨by omega, by omega⟩⟩

/-- What `ext2_open` returns for the file of the sample volume. -/
def Image.oneFile_handle : Ext2File where
  inode := 11
  size := 0
  cursor := 0
  fileType := ftRegFile
  isOpen := true
  inodeCache := setupNewFileInode

/-- The writer itself reads the end of the file. -/
theorem handle_read_iff_sample :
    let ended := (handleStep (Image.oneFile.volume, fun _ => Image.oneFile_handle)
      (.write 0 3 (ofList [1, 2, 3]))).2
    (ext2Read ended.1 (ended.2 0) 5 fun _ => 0).1 = 0 := by
  intro ended
  have handle : OpenOn 11 oneFile_handle := ⟨rfl, rfl, by decide, by decide, by decide⟩
  have run : Run handleStep (fun _ op => op.Proper) (oneFile.volume, fun _ => oneFile_handle)
      [(.write 0 3 (ofList [1, 2, 3]), 3)] ended :=
    .cons (show 3 < 4294967296 by decide) (Prod.ext (by decide +kernel) rfl) (.nil _)
  obtain ⟨f, stores⟩ := oneFile_stores.handleWrite (by decide) handle
    (show 3 < 4294967296 by decide) (ofList [1, 2, 3])
  have size : ((layout.view ended.1).inode 11).iSize.toNat = 3 := by
    have stored := stores.shows.readInode (i := 11) ⟨by decide, by decide⟩
    have found : (ext2ReadInode ended.1 11).map (·.iSize.toNat) = .ok 3 := by decide +kernel
    rw [show ext2ReadInode ended.1 11 = _ from stored] at found
    exact Except.ok.inj found
  have past : ((layout.view ended.1).inode 11).iSize.toNat ≤ (ended.2 0).cursor := by
    rw [size]
    decide +kernel
  exact (handle_read_iff oneFile.shows oneFile_owns (by decide) oneFile_regular
    (fun _ => handle) run 0 (by decide) fun _ => 0).mpr (.inl past) |>.2.mpr past

/-- A handle trusts the size it saw when it was opened.  Here the second handle is opened when the
file has ten bytes, then the first one leaves three: the second returns five, of which two were
never filled. -/
theorem stale_handle_returns_too_much :
    (ext2Open Image.oneFile.volume [slash, 97]).toOption.any (fun first =>
      let grown := ext2Write Image.oneFile.volume first 10 fun _ => 65
      (ext2Open grown.2.2 [slash, 97]).toOption.any fun second =>
        let cut := ext2Truncate grown.2.2 grown.2.1
        let again := ext2Write cut.2 cut.1 3 fun _ => 66
        let size := (ext2ReadInode again.2.2 11).toOption.map (·.iSize)
        let read := ext2Read again.2.2 second 5 fun _ => 0
        second.inode = 11 && second.cursor = 0 && size = some 3 && read.1 = 5 &&
          toList read.2.2 0 5 = [66, 66, 66, 0, 0]) = true := by
  decide +kernel

end GinnOS.Ext2
