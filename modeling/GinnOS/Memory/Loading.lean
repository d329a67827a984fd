import GinnOS.Memory.Building

/-! # Loading a program

For a file whose program headers lie inside it, whose segments have no more bytes than memory
and do not wrap around the address space, and for which there are frames, `elf_load` maps the
segments' pages and writes only into them (`Held.elfLoad`).
-/

namespace GinnOS.Memory

open Lib Lib.Buf List

variable {m m' : Machine} {ps : List (Nat × Nat)} {d i n lo hi data : Nat} {seg : Segment} {file : ElfFile}

/-! ## Sound files -/

namespace Segment

def page (seg : Segment) : Nat := seg.vaddr / 4096

def pages (seg : Segment) : Nat := pagesBetween seg.vaddr seg.stop

/-- Frames for its pages and for all tables they can be in. -/
def frames (seg : Segment) : Nat := seg.pages + ((seg.page + seg.pages - 1) / 1024 - seg.page / 1024) + 1

/-- The segment lies in the pages from `lo` to `hi`, without wrapping, and has no more bytes than
memory. -/
def Sound (seg : Segment) (lo hi : Nat) : Prop :=
  4096 * lo ≤ seg.vaddr ∧ seg.vaddr + seg.memsz ≤ min (4096 * hi) 4294963200 ∧ seg.filesz ≤ seg.memsz
  deriving Decidable

end Segment

namespace ElfFile

/-- Where program header `i` is in the file. -/
def headerOffset (file : ElfFile) (i : Nat) : Nat := word file.bytes 28 + i * (le16 file.bytes 42).toNat

def segment (file : ElfFile) (i : Nat) : Segment := segmentAt file.bytes (file.headerOffset i)

/-- The segments that the headers from `i` on load. -/
def loadedFrom (file : ElfFile) (i : Nat) : List Segment :=
  ((List.range' i (phnum file.bytes 0 - i)).map file.segment).filter Segment.isLoaded

/-- The program headers are inside the file, and the segments are sound. -/
def Sound (file : ElfFile) (lo hi : Nat) : Prop :=
  (∀ i < phnum file.bytes 0, file.headerOffset i + 32 ≤ file.size.toNat) ∧ ∀ seg ∈ file.loadedFrom 0, seg.Sound lo hi

instance : Decidable (file.Sound lo hi) := inferInstanceAs (Decidable (_ ∧ _))

/-- `elf_load` gets to the program headers. -/
def isExecutable (file : ElfFile) : Bool :=
  52 ≤ file.size.toNat && (file.delivered = file.size.toNat && elfValidate file.bytes 0)

end ElfFile

/-! ## The file in memory -/

/-- The file has been read to the address `data` of the heap. -/
structure InHeap (m : Machine) (file : ElfFile) (data : Nat) : Prop where
  bytes : ∀ k < file.size.toNat, m.mem (data + k) = file.bytes k
  lower : m.start ≤ data
  upper : data + file.size.toNat ≤ m.stop
  top : m.stop ≤ 4294963200

section

variable (inHeap : InHeap m file data)

include inHeap

theorem InHeap.le16 {off : Nat} (inside : off + 2 ≤ file.size.toNat) :
    le16 m.mem (data + off) = le16 file.bytes off := by
  simp only [Buf.le16, Nat.add_assoc, inHeap.bytes off (by omega), inHeap.bytes (off + 1) (by omega)]

theorem InHeap.word {off : Nat} (inside : off + 4 ≤ file.size.toNat) :
    word m.mem (data + off) = word file.bytes off := by
  simp only [Buf.word, Buf.le32, Nat.add_assoc, inHeap.bytes off (by omega), inHeap.bytes (off + 1) (by omega),
    inHeap.bytes (off + 2) (by omega), inHeap.bytes (off + 3) (by omega)]

theorem InHeap.phnum (header : 52 ≤ file.size.toNat) :
    phnum m.mem data = phnum file.bytes 0 := by
  simp only [Memory.phnum, inHeap.le16 (show 44 + 2 ≤ file.size.toNat by omega), Nat.zero_add]

theorem InHeap.phdrAddress (header : 52 ≤ file.size.toNat)
    (inside : file.headerOffset i + 32 ≤ file.size.toNat) : phdrAddress m.mem data i = data + file.headerOffset i := by
  have upper := inHeap.upper
  have top := inHeap.top
  rw [ElfFile.headerOffset] at inside ⊢
  rw [Memory.phdrAddress, inHeap.word (show 28 + 4 ≤ _ by omega), inHeap.le16 (show 42 + 2 ≤ _ by omega)]
  omega

theorem InHeap.segment (header : 52 ≤ file.size.toNat)
    (inside : file.headerOffset i + 32 ≤ file.size.toNat) :
    segmentAt m.mem (Memory.phdrAddress m.mem data i) = file.segment i := by
  have field (off : Nat) (within : off + 4 ≤ 32) :
      Buf.word m.mem (data + file.headerOffset i + off) = Buf.word file.bytes (file.headerOffset i + off) := by
    rw [Nat.add_assoc]
    exact inHeap.word (by omega)
  rw [inHeap.phdrAddress header inside]
  simp only [segmentAt, ElfFile.segment, inHeap.word (show file.headerOffset i + 4 ≤ _ by omega), field 4 (by decide),
    field 8 (by decide), field 16 (by decide), field 20 (by decide)]

theorem InHeap.acted {P : Nat → Prop} (acted : Acted ps d P m m') :
    InHeap m' file data := by
  have lower := inHeap.lower
  have upper := inHeap.upper
  refine ⟨fun k inside => ?_, ?_, ?_, ?_⟩
  · rw [acted.region _ (by omega) (by omega), inHeap.bytes k inside]
  · rw [acted.heap.2.1]
    exact lower
  · rw [acted.heap.2.2]
    exact upper
  · rw [acted.heap.2.2]
    exact inHeap.top

end

/-! ## One segment -/

theorem Segment.Sound.shape (sound : seg.Sound lo hi) (loaded : seg.isLoaded = true) :
    seg.stop = seg.vaddr + seg.memsz ∧ seg.page + seg.pages = (seg.vaddr + seg.memsz + 4095) / 4096 ∧ 0 < seg.pages := by
  obtain ⟨_, upper, _⟩ := sound
  have nonempty : seg.memsz ≠ 0 := by
    simp only [Segment.isLoaded, Bool.and_eq_true, decide_eq_true_eq] at loaded
    exact loaded.2
  have stop : seg.stop = seg.vaddr + seg.memsz := by
    simp only [Segment.stop]
    omega
  refine ⟨stop, ?_⟩
  simp only [Segment.page, Segment.pages, pagesBetween, pageAlignUp, stop]
  omega

theorem Segment.Sound.bounds (sound : seg.Sound lo hi) (loaded : seg.isLoaded = true) :
    lo ≤ seg.page ∧ seg.page + seg.pages ≤ hi ∧ seg.page + seg.pages ≤ 1048575 := by
  obtain ⟨_, shape, _⟩ := sound.shape loaded
  obtain ⟨lower, upper, _⟩ := sound
  rw [shape, Segment.page]
  omega

theorem Segment.framesNeeded_le (m : Machine) (d : Nat) (seg : Segment) :
    framesNeeded m d seg.page seg.pages ≤ seg.frames := by
  simp only [framesNeeded, Segment.frames]
  split
  · omega
  · split <;> omega

theorem Segment.mapUserRange_eq (seg : Segment) (m : Machine) (d : Nat) :
    mapUserRange m d seg.vaddr seg.stop = mapFresh d userRw m seg.pages (4096 * seg.page) := by
  rw [mapUserRange, Segment.page, Nat.mul_comm 4096]
  rfl

theorem Acts.pmm_eq (acts : Acts d (fun _ _ _ => False) m m') : m'.pmm = m.pmm := by
  induction acts with
  | refl => rfl
  | tail _ act ih =>
    rw [← ih]
    cases act with
    | page _ _ _ _ _ known => cases known
    | device _ _ _ _ _ _ known => cases known
    | read _ => rfl
    | write _ _ => rfl

theorem Ready.loadSegment_acts (ready : Ready ps d m) (sound : seg.Sound lo hi) (loaded : seg.isLoaded = true)
    (room : seg.frames ≤ m.pmm.freeCount) (size data : Nat) :
    ∃ ok m', loadSegment m d size data seg = some (ok, m') ∧ Acts d (Known m d seg.page seg.pages) m m' ∧
      m.pmm.freeCount ≤ m'.pmm.freeCount + seg.frames := by
  obtain ⟨stop, shape, positive⟩ := sound.shape loaded
  obtain ⟨_, _, top⟩ := sound.bounds loaded
  have inMemory : seg.filesz ≤ seg.memsz := sound.2.2
  have needed := seg.framesNeeded_le m d
  obtain ⟨acts, done⟩ := ready.mapFresh_acts forUsers_userRw (n := seg.pages) (p := seg.page) (by omega)
  obtain ⟨mappedAll, pages, count⟩ := done (needed.trans room)
  have acted : Acted ps d (InRange seg.page seg.pages) m _ := acts.acted ready fun _ _ _ known => known.1
  simp only [loadSegment, seg.mapUserRange_eq]
  generalize mapFresh d userRw m seg.pages (4096 * seg.page) = result at acts mappedAll pages count acted ⊢
  obtain ⟨ok, m₁⟩ := result
  obtain rfl : ok = true := mappedAll
  have count : m.pmm.freeCount ≤ m₁.pmm.freeCount + seg.frames := count.trans (Nat.add_le_add_left needed _)
  have ready₁ : Ready ps d m₁ := acted.ready ready
  have inside (q : Nat) (lower : seg.vaddr / 4096 ≤ q) (upper : 4096 * q < seg.vaddr + seg.memsz) :
      ∃ f, UserPage m₁ d q f := pages q ⟨lower, by omega⟩
  have small : seg.filesz < walkLimit := by
    simp only [walkLimit]
    omega
  simp only
  split
  · exact ⟨false, m₁, rfl, acts, count⟩
  · obtain ⟨m₂, copied, writes⟩ : ∃ m₂, copyToProcess m₁ d seg.vaddr (data + seg.offset) seg.filesz = some m₂ ∧
        Acts d (fun _ _ _ => False) m₁ m₂ :=
      ready₁.storeInProcess_acts _ small (by omega) (by omega)
        fun q lower upper => inside q lower (by omega)
    have copiedAll : Acts d (Known m d seg.page seg.pages) m m₂ := acts.trans (writes.mono fun _ _ _ => False.elim)
    have count₂ : m.pmm.freeCount ≤ m₂.pmm.freeCount + seg.frames := by rwa [writes.pmm_eq]
    have acted₂ : Acted ps d (fun _ => False) m₁ m₂ := writes.acted ready₁ fun _ _ _ => id
    simp only [copied]
    split
    · have rest : (seg.vaddr + seg.filesz) % 4294967296 = seg.vaddr + seg.filesz := by omega
      obtain ⟨m₃, zeroed, clears⟩ : ∃ m₃, zeroInProcess m₂ d (seg.vaddr + seg.filesz) (seg.memsz - seg.filesz) = some m₃ ∧
          Acts d (fun _ _ _ => False) m₂ m₃ := by
        refine (acted₂.ready ready₁).storeInProcess_acts _ ?_ (by omega) (by omega) fun q lower upper => ?_
        · simp only [walkLimit]
          omega
        · obtain ⟨f, page⟩ := inside q (by omega) (by omega)
          exact ⟨f, acted₂.userPage ready.member page id⟩
      refine ⟨true, m₃, ?_, copiedAll.trans (clears.mono fun _ _ _ => False.elim), ?_⟩
      · rw [rest, zeroed]
        rfl
      · rwa [clears.pmm_eq]
    · exact ⟨true, m₂, rfl, copiedAll, count₂⟩

/-! ## The loop over the headers -/

theorem ElfFile.loadedFrom_end (file : ElfFile) (done : phnum file.bytes 0 ≤ i) : file.loadedFrom i = [] := by
  rw [loadedFrom, Nat.sub_eq_zero_of_le done]
  rfl

theorem ElfFile.loadedFrom_step (file : ElfFile) (more : i < phnum file.bytes 0) :
    file.loadedFrom i =
      if (file.segment i).isLoaded then file.segment i :: file.loadedFrom (i + 1) else file.loadedFrom (i + 1) := by
  have count : phnum file.bytes 0 - i = (phnum file.bytes 0 - (i + 1)) + 1 := by omega
  rw [loadedFrom, count, range'_succ, map_cons, filter_cons]
  rfl

theorem ElfFile.mem_loadedFrom {file : ElfFile} : seg ∈ file.loadedFrom i ↔
    (∃ j, i ≤ j ∧ j < phnum file.bytes 0 ∧ file.segment j = seg) ∧ seg.isLoaded = true := by
  simp only [loadedFrom, mem_filter, mem_map, mem_range'_1]
  refine and_congr_left fun _ => exists_congr fun j => ?_
  rw [← and_assoc]
  exact and_congr_left fun _ => by omega

def Disjoint (segs : List Segment) : Prop :=
  segs.Pairwise fun seg other => seg.page + seg.pages ≤ other.page ∨ other.page + other.pages ≤ seg.page
  deriving Decidable

/-- The frames that loading the segments takes, at most. -/
def segmentFrames (segs : List Segment) : Nat := (segs.map Segment.frames).sum

/-- What is known each time a page of the segments is mapped. -/
def Loaded (m₀ : Machine) (d : Nat) (segs : List Segment) (m : Machine) (q : Nat) (ok : Bool) : Prop :=
  (∃ seg ∈ segs, InRange seg.page seg.pages q) ∧ (Disjoint segs → pte m.mem d q = pte m₀.mem d q) ∧ ok = true

/-- The end of a segment between `lo` and `hi`, or no end yet. -/
def EndIn (lo hi a : Nat) : Prop := a = 0 ∨ 4096 * lo ≤ a ∧ a ≤ min (4096 * hi) 4294963200

theorem EndIn.max {a b : Nat} (first : EndIn lo hi a) (second : EndIn lo hi b) : EndIn lo hi (max a b) := by
  rcases Nat.le_total a b with le | le
  · rwa [Nat.max_eq_right le]
  · rwa [Nat.max_eq_left le]

/-- The loop over the headers of a file in the heap is at header `i`, and there are frames for the segments from there on. -/
structure Underway (ps : List (Nat × Nat)) (d : Nat) (file : ElfFile) (data lo hi i : Nat) (m : Machine) : Prop
    extends Ready ps d m where
  inHeap : InHeap m file data
  header : 52 ≤ file.size.toNat
  sound : file.Sound lo hi
  room : segmentFrames (file.loadedFrom i) ≤ m.pmm.freeCount

section Underway

variable (underway : Underway ps d file data lo hi i m)

include underway

theorem Underway.segment (more : i < phnum file.bytes 0) : segmentAt m.mem (phdrAddress m.mem data i) = file.segment i :=
  underway.inHeap.segment underway.header (underway.sound.1 i more)

theorem Underway.skip (more : i < phnum file.bytes 0) (skipped : ¬ (file.segment i).isLoaded = true) :
    file.loadedFrom i = file.loadedFrom (i + 1) ∧ Underway ps d file data lo hi (i + 1) m := by
  have all : file.loadedFrom i = file.loadedFrom (i + 1) := (file.loadedFrom_step more).trans (if_neg skipped)
  exact ⟨all, { underway with room := all ▸ underway.room }⟩

theorem Underway.load (more : i < phnum file.bytes 0) (loaded : (file.segment i).isLoaded = true) :
    (file.segment i).Sound lo hi ∧ (file.segment i).frames ≤ m.pmm.freeCount ∧
      ∃ ok m₁, loadSegment m d file.size.toNat data (file.segment i) = some (ok, m₁) ∧
        Acts d (Known m d (file.segment i).page (file.segment i).pages) m m₁ ∧ Underway ps d file data lo hi (i + 1) m₁ := by
  have sound := underway.sound.2 _ (ElfFile.mem_loadedFrom.mpr ⟨⟨i, Nat.zero_le i, more, rfl⟩, loaded⟩)
  have room := underway.room
  have budget : segmentFrames (file.loadedFrom i) = (file.segment i).frames + segmentFrames (file.loadedFrom (i + 1)) := by
    rw [file.loadedFrom_step more, if_pos loaded]
    rfl
  obtain ⟨ok, m₁, ran, acts, count⟩ := underway.toReady.loadSegment_acts sound loaded (by omega) file.size.toNat data
  have acted : Acted ps d (InRange (file.segment i).page (file.segment i).pages) m m₁ :=
    acts.acted underway.toReady fun _ _ _ known => known.1
  exact ⟨sound, by omega, ok, m₁, ran, acts, acted.ready underway.toReady, underway.inHeap.acted acted, underway.header,
    underway.sound, by omega⟩

theorem Underway.loadSegments_acts {fuel highest : Nat} (enough : phnum file.bytes 0 - i < fuel) (sofar : EndIn lo hi highest) :
    ∃ result m', loadSegments d file.size.toNat data fuel m i highest = some (result, m') ∧
      Acts d (Loaded m d (file.loadedFrom i)) m m' ∧ ∀ top ∈ result, EndIn lo hi top := by
  induction fuel generalizing m i highest with
  | zero => cases enough
  | succ fuel ih =>
    simp only [loadSegments, underway.inHeap.phnum underway.header]
    rcases Nat.lt_or_ge i (phnum file.bytes 0) with more | done
    · rw [if_neg (by omega), underway.segment more]
      by_cases loaded : (file.segment i).isLoaded = true
      · have all : file.loadedFrom i = file.segment i :: file.loadedFrom (i + 1) :=
          (file.loadedFrom_step more).trans (if_pos loaded)
        rw [if_pos loaded]
        have here : file.segment i ∈ file.loadedFrom i := by
          rw [all]
          exact mem_cons_self
        obtain ⟨sound, room, ok, m₁, ran, acts, later⟩ := underway.load more loaded
        have weak : Acts d (Loaded m d (file.loadedFrom i)) m m₁ := acts.mono fun m' q ok known =>
          ⟨⟨_, here, known.1⟩, fun _ => known.2.1, known.2.2 (.inl (((file.segment i).framesNeeded_le m d).trans room))⟩
        rw [ran]
        cases ok with
        | false => exact ⟨none, m₁, rfl, weak, fun top isTop => by cases isTop⟩
        | true =>
          have acted : Acted ps d (InRange (file.segment i).page (file.segment i).pages) m m₁ :=
            acts.acted underway.toReady fun _ _ _ known => known.1
          have stop : EndIn lo hi (file.segment i).stop := by
            rw [(sound.shape loaded).1]
            exact .inr ⟨by have := sound.1; omega, sound.2.1⟩
          obtain ⟨result, m', ran', acts', ends⟩ := ih later (by omega) (sofar.max stop)
          refine ⟨result, m', ran', weak.trans (acts'.mono fun m₂ q ok known => ?_), ends⟩
          obtain ⟨⟨seg, inside, range⟩, same, mapped⟩ := known
          refine ⟨⟨seg, by rw [all]; exact mem_cons_of_mem _ inside, range⟩, fun apart => ?_, mapped⟩
          rw [all] at apart
          obtain ⟨first, rest⟩ := pairwise_cons.mp apart
          rw [same rest, acted.view d underway.listed q ?_ fun again => ?_]
          · obtain ⟨⟨k, _, bound, isSeg⟩, loaded⟩ := ElfFile.mem_loadedFrom.mp inside
            have sound := underway.sound.2 seg (ElfFile.mem_loadedFrom.mpr ⟨⟨k, by omega, bound, isSeg⟩, loaded⟩)
            have bounds := sound.bounds loaded
            have upper := range.2
            omega
          · have disjoint := first seg inside
            obtain ⟨lower, upper⟩ := range
            obtain ⟨_, lower', upper'⟩ := again
            omega
      · obtain ⟨all, later⟩ := underway.skip more loaded
        rw [if_neg loaded, all]
        exact ih later (by omega) sofar
    · rw [if_pos done]
      exact ⟨some highest, m, rfl, .refl, fun top isTop => by cases isTop; exact sofar⟩

end Underway

/-! ## The heap's frames -/

section Heap

variable {h h' : Heap} {rs rs' : List Lib.Block} {size ptr : Nat}

theorem Grown.freeCount (grown : Grown h h') (ok : HeapOk h rs) (ok' : HeapOk h' rs') :
    h'.pmm.freeCount + (h'.stop - h.stop) / 4096 = h.pmm.freeCount := by
  have aligned := ok.stopPage
  have aligned' := ok'.stopPage
  have members (f : Nat) : f ∈ range' (h.stop / 4096) ((h'.stop - h.stop) / 4096) ↔
      h.stop ≤ 4096 * f ∧ 4096 * f < h'.stop := by
    rw [mem_range'_1]
    omega
  have count := Pmm.freeCount_eq_of_removed ok.pmm.inside ok'.pmm.inside nodup_range'
    (fun f => by simp only [grown.free f, members]) fun f member => grown.taken f ((members f).mp member).1 ((members f).mp member).2
  rwa [length_range'] at count

theorem heapExpand_stop {done : Bool} {needed : Nat} (ran : heapExpand h needed = some (done, h')) :
    h'.stop ≤ h.stop + 4096 * pagesNeeded needed := by
  simp only [heapExpand] at ran
  split at ran
  · cases ran
  · cases ran
    exact Nat.le_add_right _ _
  · split at ran
    · cases ran
    · cases ran
      simp only
      omega

theorem kmalloc_stop (ran : kmalloc h size = some (ptr, h')) : h'.stop ≤ h.stop + 4096 * pagesNeeded (align4 size) := by
  simp only [kmalloc] at ran
  split at ran
  · cases ran
    exact Nat.le_add_right _ _
  · split at ran
    · cases ran
    · cases ran
      exact Nat.le_add_right _ _
    · split at ran
      · cases ran
      · next expanded =>
        cases ran
        exact heapExpand_stop expanded
      · next expanded =>
        have stop := heapExpand_stop expanded
        split at ran <;> cases ran <;> exact stop

end Heap

/-- The used blocks of the heap are the live allocations. -/
def HeapHolds (h : Heap) (live : List Nat) : Prop := ∃ rs, HeapUse.Knows ⟨h, live⟩ rs

theorem HeapHolds.aligned {h : Heap} {live : List Nat} (holds : HeapHolds h live) : h.start % 4096 = 0 ∧ h.stop % 4096 = 0 := by
  obtain ⟨rs, ok, _⟩ := holds
  exact ⟨ok.startPage, ok.stopPage⟩

theorem HeapHolds.grant {h : Heap} {live : List Nat} (holds : HeapHolds h live) (size : UInt32) :
    ∃ ptr h', kmalloc h size.toNat = some (ptr, h') ∧ Grown h h' ∧ HeapHolds h' (HeapUse.granted live ptr) := by
  obtain ⟨rs, knows⟩ := holds
  obtain ⟨ptr, h', rs', fresh, ran, granted, _⟩ := knows.ok.kmalloc size.toNat (Nat.zero_le _)
  have follows : HeapUse.Follows ⟨h, live⟩ rs (.kmalloc size) 0 ptr ⟨h', _⟩ rs' [] fresh := .of_granted granted
  exact ⟨ptr, h', ran, granted.grown, rs', knows.next follows⟩

theorem HeapHolds.release {h : Heap} {live : List Nat} {ptr : Nat} (holds : HeapHolds h live) (isLive : ptr ∈ live) :
    ∃ h', kfree h ptr = some h' ∧ Grown h h' ∧ HeapHolds h' (live.erase ptr) := by
  obtain ⟨rs, knows⟩ := holds
  obtain ⟨y, inside, rfl⟩ := knows.block isLive
  obtain ⟨h', rs', ran, result, _⟩ := knows.ok.kfree inside
  have follows : HeapUse.Follows ⟨h, live⟩ rs (.kfree (y.1 + headerSize)) 0 0 ⟨h', _⟩ rs' [y] [] := .of_freed result isLive
  exact ⟨h', ran, result.grown, rs', knows.next follows⟩

theorem kfree_pmm {h h' : Heap} {ptr : Nat} (ran : kfree h ptr = some h') : h'.pmm = h.pmm := by
  simp only [kfree] at ran
  split at ran
  · cases ran
    rfl
  · split at ran
    · cases ran
    · split at ran
      · cases ran
      · split at ran
        · cases ran
        · split at ran
          · cases ran
          · cases ran
            rfl

/-! ## Loading a file -/

variable {P : Nat → Prop} {live : List Nat}

theorem HeapHolds.fileRead {h : Heap} (holds : HeapHolds m.toHeap live)
    (small : file.size.toNat ≤ 4294967292) (allocated : kmalloc m.toHeap file.size.toNat = some (data, h))
    (nonzero : data ≠ 0) :
    let m₁ : Machine := { m with toHeap := { h with mem := splice h.mem data file.delivered file.bytes } }
    Grown m.toHeap m₁.toHeap ∧ HeapHolds m₁.toHeap (data :: live) ∧
      (file.delivered = file.size.toNat → InHeap m₁ file data) ∧
      m.pmm.freeCount ≤ m₁.pmm.freeCount + pagesNeeded (align4 file.size.toNat) := by
  obtain ⟨rs, knows⟩ := holds
  obtain ⟨ptr, h', rs₁, fresh, ran, granted, _⟩ := knows.ok.kmalloc file.size.toNat (Nat.zero_le _)
  obtain ⟨rfl, rfl⟩ := Prod.mk.inj (Option.some.inj (ran.symm.trans allocated))
  have live' : (HeapUse.granted live ptr).Perm (pointers m.start rs₁) :=
    HeapUse.pointers_perm knows.live granted.change (HeapUse.granted_perm granted.hands)
  rw [HeapUse.granted, if_neg nonzero] at live'
  rcases granted.hands with ⟨zero, _⟩ | ⟨off, r, address, fits, rfl⟩
  · exact absurd zero nonzero
  have delivered := file.within
  have room := le_align4 small
  have isNew := granted.change.fresh_inside mem_cons_self
  rw [← granted.grown.start] at isNew
  rw [width_eq] at address
  have stored : Result h' rs₁ [_] [_] True { h' with mem := splice h'.mem ptr file.delivered file.bytes } rs₁ :=
    granted.ok.store _ isNew fun k outside => splice_outside (by simp only [len_eq] at outside; omega)
  have grown := granted.grown.trans stored.grown
  have bounds := Header.placed_bounds (Header.mem_inUse.mp isNew).1
  rw [← granted.ok.chain.end_eq] at bounds
  simp only [len_eq] at bounds
  refine ⟨grown, ⟨rs₁, stored.ok, ?_⟩, fun all => ⟨fun k bound => ?_, ?_, ?_, granted.ok.top⟩, ?_⟩
  · rw [grown.start]
    exact live'
  · show splice h'.mem ptr file.delivered file.bytes (ptr + k) = file.bytes k
    rw [splice_inside (by omega) (by omega), Nat.add_sub_cancel_left]
  · show h'.start ≤ ptr
    omega
  · show ptr + file.size.toNat ≤ h'.stop
    omega
  · have count := grown.freeCount knows.ok stored.ok
    have stop := kmalloc_stop allocated
    simp only at count ⊢
    omega

theorem HeapHolds.congr (holds : HeapHolds m.toHeap live) (pmm : m'.pmm.Ok)
    (used : ∀ page, m.start ≤ 4096 * page → 4096 * page < m.stop → m'.pmm.free page = false)
    (same : m'.head = m.head ∧ m'.start = m.start ∧ m'.stop = m.stop)
    (region : ∀ k, m.start ≤ k → k < m.stop → m'.mem k = m.mem k) : HeapHolds m'.toHeap live := by
  obtain ⟨rs, ok, live⟩ := holds
  have used' (page : Nat) (lower : m'.start ≤ 4096 * page) (upper : 4096 * page < m'.stop) : m'.pmm.free page = false := by
    rw [same.2.1] at lower
    rw [same.2.2] at upper
    exact used page lower upper
  refine ⟨rs, ok.congr pmm used' same region, ?_⟩
  rw [same.2.1]
  exact live

theorem HeapHolds.acted (holds : HeapHolds m.toHeap live) (acted : Acted ps d P m m') : HeapHolds m'.toHeap live := by
  refine holds.congr acted.held.tables.pmm (fun page lower upper => ?_) acted.heap acted.region
  obtain ⟨rs, ok, _⟩ := holds
  exact acted.used page (ok.used page lower upper)

theorem Held.heap {h : Heap} (held : Held m ps) (grown : Grown m.toHeap h) (holds : HeapHolds h live) :
    Undisturbed (dirs ps) m { m with toHeap := h } ∧ Evolved ps d P m { m with toHeap := h } := by
  obtain ⟨rs, ok, _⟩ := holds
  exact ⟨.grown held.tables held.marked grown ok, .grown held grown ok⟩

theorem HeapHolds.finishLoad (holds : HeapHolds m.toHeap (data :: live)) (result : Option LoadResult) :
    ∃ h, finishLoad m data result = some (result, { m with toHeap := h }) ∧ Grown m.toHeap h ∧ HeapHolds h live ∧
      h.pmm = m.pmm := by
  obtain ⟨h, ran, grown, holds'⟩ := holds.release mem_cons_self
  rw [erase_cons_head] at holds'
  exact ⟨h, by rw [Memory.finishLoad, ran], grown, holds', kfree_pmm ran⟩

/-- The file does not overflow its block; if it is an executable, it is sound, and there are
frames for it. -/
def ElfFile.Fits (file : ElfFile) (lo hi frames : Nat) : Prop :=
  file.size.toNat ≤ 4294967292 ∧ (file.isExecutable = true →
    file.Sound lo hi ∧ pagesNeeded (align4 file.size.toNat) + segmentFrames (file.loadedFrom 0) ≤ frames)

instance (frames : Nat) : Decidable (file.Fits lo hi frames) := inferInstanceAs (Decidable (_ ∧ _))

/-- The pages from `lo` to `hi`. -/
def Between (lo hi q : Nat) : Prop := lo ≤ q ∧ q < hi

theorem InHeap.elfValidate (inHeap : InHeap m file data) (header : 52 ≤ file.size.toNat) :
    elfValidate m.mem data = elfValidate file.bytes 0 := by
  have first := inHeap.bytes 0 (by omega)
  rw [Nat.add_zero] at first
  simp only [Memory.elfValidate, inHeap.phnum header, inHeap.le16 (show 16 + 2 ≤ file.size.toNat by omega),
    inHeap.le16 (show 18 + 2 ≤ file.size.toNat by omega), inHeap.le16 (show 42 + 2 ≤ file.size.toNat by omega), first,
    inHeap.bytes 1 (by omega), inHeap.bytes 2 (by omega), inHeap.bytes 3 (by omega), inHeap.bytes 4 (by omega),
    inHeap.bytes 5 (by omega), Nat.zero_add]

theorem Loaded.between (sound : file.Sound lo hi) {m₀ m : Machine} {q : Nat} {ok : Bool}
    (known : Loaded m₀ d (file.loadedFrom 0) m q ok) : Between lo hi q := by
  obtain ⟨⟨seg, inside, lower, upper⟩, _⟩ := known
  have bounds := (sound.2 seg inside).bounds (ElfFile.mem_loadedFrom.mp inside).2
  exact ⟨by omega, by omega⟩

/-- The file has been read, and it is an executable. -/
theorem Ready.underway {h : Heap} (ready : Ready ps d m) (holds : HeapHolds m.toHeap live)
    (fits : file.Fits lo hi m.pmm.freeCount) (header : 52 ≤ file.size.toNat)
    (allocated : kmalloc m.toHeap file.size.toNat = some (data, h)) (nonzero : data ≠ 0)
    (delivered : file.delivered = file.size.toNat)
    (valid : elfValidate (splice h.mem data file.delivered file.bytes) data = true) :
    Underway ps d file data lo hi 0 { m with toHeap := { h with mem := splice h.mem data file.delivered file.bytes } } := by
  obtain ⟨small, fits⟩ := fits
  obtain ⟨grown, holds₁, inHeap, count⟩ := holds.fileRead small allocated nonzero
  have inHeap := inHeap delivered
  have isValid : elfValidate file.bytes 0 = true := (inHeap.elfValidate header).symm.trans valid
  obtain ⟨sound, room⟩ := fits (by simp [ElfFile.isExecutable, header, delivered, isValid])
  exact ⟨⟨(ready.held.heap (d := d) (P := fun _ => False) grown holds₁).2.held, ready.member, holds₁.aligned⟩, inHeap, header, sound,
    by omega⟩

theorem ElfFile.phnum_lt (file : ElfFile) : phnum file.bytes 0 - 0 < 65537 := by
  have := (Buf.le16 file.bytes (0 + 44)).toNat_lt
  simp only [phnum]
  omega

theorem Underway.elfLoadFrom (underway : Underway ps d file data lo hi 0 m) (holds : HeapHolds m.toHeap (data :: live)) :
    ∃ result m', elfLoadFrom m d file.size.toNat data = some (result, m') ∧ Evolved ps d (Between lo hi) m m' ∧
      HeapHolds m'.toHeap live ∧ ∀ r ∈ result, 4096 * lo ≤ r.brk ∧ r.brk ≤ min (4096 * hi) 4294963200 := by
  obtain ⟨result, m₁, ran, acts, ends⟩ := underway.loadSegments_acts file.phnum_lt (.inl rfl)
  have acted : Acted ps d (Between lo hi) m m₁ := acts.acted underway.toReady fun _ _ _ known => known.between underway.sound
  have finish (result : Option LoadResult)
      (brk : ∀ r ∈ result, 4096 * lo ≤ r.brk ∧ r.brk ≤ min (4096 * hi) 4294963200) :
      ∃ result' m', Memory.finishLoad m₁ data result = some (result', m') ∧ Evolved ps d (Between lo hi) m m' ∧
        HeapHolds m'.toHeap live ∧ ∀ r ∈ result', 4096 * lo ≤ r.brk ∧ r.brk ≤ min (4096 * hi) 4294963200 := by
    obtain ⟨h, finished, grown, holds', _⟩ := (holds.acted acted).finishLoad result
    exact ⟨result, _, finished, acted.toEvolved.trans underway.held.tables.pmm (acted.held.heap grown holds').2, holds', brk⟩
  simp only [Memory.elfLoadFrom, ran]
  cases result with
  | none => exact finish none fun r isResult => by cases isResult
  | some top =>
    rcases ends top rfl with rfl | ⟨lower, upper⟩
    · exact finish none fun r isResult => by cases isResult
    · simp only
      split
      · exact finish none fun r isResult => by cases isResult
      · refine finish _ fun r isResult => ?_
        cases isResult
        simp only [pageAlignUp]
        omega

/-- `elf_load` of a file that fits maps pages between `lo` and `hi`, and leaves the heap's
allocations as they were. -/
theorem Ready.elfLoad (ready : Ready ps d m) (holds : HeapHolds m.toHeap live) (file : Option ElfFile)
    (fits : ∀ f ∈ file, f.Fits lo hi m.pmm.freeCount) :
    ∃ result m', elfLoad m file d = some (result, m') ∧ Evolved ps d (Between lo hi) m m' ∧ HeapHolds m'.toHeap live ∧
      ∀ r ∈ result, 4096 * lo ≤ r.brk ∧ r.brk ≤ min (4096 * hi) 4294963200 := by
  have failed (m' : Machine) (evolved : Evolved ps d (Between lo hi) m m') (holds : HeapHolds m'.toHeap live) :
      ∃ result m'', some ((none : Option LoadResult), m') = some (result, m'') ∧ Evolved ps d (Between lo hi) m m'' ∧
        HeapHolds m''.toHeap live ∧ ∀ r ∈ result, 4096 * lo ≤ r.brk ∧ r.brk ≤ min (4096 * hi) 4294963200 :=
    ⟨none, m', rfl, evolved, holds, fun r isResult => by cases isResult⟩
  have held := ready.held
  cases file with
  | none => exact failed m (.refl held) holds
  | some file =>
    have fits := fits file rfl
    simp only [Memory.elfLoad]
    rcases Nat.lt_or_ge file.size.toNat 52 with short | header
    · rw [if_pos short]
      exact failed m (.refl held) holds
    · rw [if_neg (Nat.not_lt.mpr header)]
      obtain ⟨data, h, allocated, grown, holds'⟩ := holds.grant file.size
      simp only [allocated]
      by_cases null : data = 0
      · rw [if_pos null]
        rw [HeapUse.granted, if_pos null] at holds'
        exact failed _ (held.heap grown holds').2 holds'
      · rw [if_neg null]
        obtain ⟨grown₁, holds₁, _⟩ := holds.fileRead fits.1 allocated null
        have evolved : Evolved ps d (Between lo hi) m _ := (held.heap grown₁ holds₁).2
        obtain ⟨h', finished, grown', holds', _⟩ := holds₁.finishLoad none
        have stopped := failed _ (evolved.trans held.tables.pmm (evolved.held.heap grown' holds').2) holds'
        by_cases all : file.delivered = file.size.toNat
        · rw [if_neg (not_not.mpr all)]
          split
          · next valid =>
            obtain ⟨result, m₂, ran, evolved₂, rest⟩ :=
              (ready.underway holds fits header allocated null all valid).elfLoadFrom holds₁
            exact ⟨result, m₂, ran, evolved.trans held.tables.pmm evolved₂, rest⟩
          · rw [finished]
            exact stopped
        · rw [if_pos all, finished]
          exact stopped

end GinnOS.Memory
