import GinnOS.Memory.Conservation
import GinnOS.Memory.UserMemory

/-! # The image of a program

What `elf_load` leaves in the memory that the program sees.  One after another the segments get fresh pages,
the bytes of the file and zeros (`View.place`).  So a segment wipes what earlier ones have
on its pages (`shared_page_is_wiped`); segments without such pages are loaded faithfully.
-/

namespace GinnOS.Memory

open Lib Lib.Buf List

variable {p n vaddr done fuel size : Nat} {live : List Nat} {source : Buf → Nat → Buf} {proc : Process}

/-! ## What a program reads -/

/-- The bytes at the addresses that are mapped. -/
abbrev View : Type := Nat → Option UInt8

namespace View

def store (view : View) (vaddr size : Nat) (bytes : Nat → UInt8) : View := fun virt =>
  if vaddr ≤ virt ∧ virt < vaddr + size then some (bytes (virt - vaddr)) else view virt

/-- Pages get fresh frames. -/
def back (view : View) (p n : Nat) : View := fun virt =>
  if p ≤ virt / 4096 ∧ virt / 4096 < p + n then some 0 else view virt

/-- What loading a segment does. -/
def place (file : ElfFile) (view : View) (seg : Segment) : View :=
  ((view.back seg.page seg.pages).store seg.vaddr seg.filesz fun k => file.bytes (seg.offset + k)).store
    (seg.vaddr + seg.filesz) (seg.memsz - seg.filesz) fun _ => 0

variable {view : View} {vaddr size chunk virt : Nat} {bytes : Nat → UInt8}

theorem store_inside (lower : vaddr ≤ virt) (upper : virt < vaddr + size) :
    view.store vaddr size bytes virt = some (bytes (virt - vaddr)) := if_pos ⟨lower, upper⟩

theorem store_outside (outside : virt < vaddr ∨ vaddr + size ≤ virt) : view.store vaddr size bytes virt = view virt :=
  if_neg (by omega)

theorem store_nothing (view : View) (vaddr : Nat) (bytes : Nat → UInt8) : view.store vaddr 0 bytes = view :=
  funext fun _ => store_outside (by omega)

theorem back_inside (inside : InRange p n (virt / 4096)) : view.back p n virt = some 0 := if_pos inside

theorem back_outside (outside : ¬ InRange p n (virt / 4096)) : view.back p n virt = view virt := if_neg outside

theorem store_store {first : Nat → UInt8} (fits : chunk ≤ size) (same : ∀ k < chunk, first k = bytes k) :
    (view.store vaddr chunk first).store (vaddr + chunk) (size - chunk) (fun k => bytes (chunk + k)) = view.store vaddr size bytes := by
  funext virt
  rcases Nat.lt_or_ge virt vaddr with below | lower
  · rw [store_outside (.inl (by omega)), store_outside (.inl below), store_outside (.inl below)]
  rcases Nat.lt_or_ge virt (vaddr + chunk) with early | late
  · rw [store_outside (.inl early), store_inside lower early, store_inside lower (by omega), same _ (by omega)]
  rcases Nat.lt_or_ge virt (vaddr + size) with inside | behind
  · rw [store_inside late (by omega), store_inside lower inside, show chunk + (virt - (vaddr + chunk)) = virt - vaddr by omega]
  · rw [store_outside (.inr (by omega)), store_outside (.inr (by omega)), store_outside (.inr behind)]

end View

variable {m m' : Machine} {ps : List (Nat × Nat)} {d f n p q lo hi data virt : Nat} {view : View} {seg : Segment} {file : ElfFile}

/-- The program of the directory `d` sees the view, and its pages are in RAM. -/
structure Shows (m : Machine) (d : Nat) (view : View) : Prop where
  bytes : ∀ virt < 4294967296, peek m.mem d virt = view virt
  ram : ∀ q < 1048576, isPresent (pte m.mem d q) = true → isUser (pte m.mem d q) = true →
    pageFrame (pte m.mem d q) < m.pmm.totalPages

theorem Held.peek_page (held : Held m ps) (member : d ∈ dirs ps) (low : virt < 4294967296) (page : UserPage m d (virt / 4096) f) :
    peek m.mem d virt = some (m.mem (4096 * f + virt % 4096)) := by
  rw [peek, held.userEntry_eq member low, page.isThere, page.user, page.frame]
  rfl

namespace Shows

theorem congr (shows : Shows m d view) (held : Held m ps) (held' : Held m' ps) (member : d ∈ dirs ps)
    (same : ∀ q < 1048576, pte m'.mem d q = pte m.mem d q) (total : m'.pmm.totalPages = m.pmm.totalPages)
    (frames : ∀ q f, UserPage m d q f → SameFrame f m.mem m'.mem) : Shows m' d view where
  bytes virt low := by
    rw [← shows.bytes virt low]
    have bound : virt / 4096 < 1048576 := by omega
    refine peek_congr held held' member low (same _ bound) fun isThere user => ?_
    exact frames (virt / 4096) _ ⟨bound, isThere, user, rfl, shows.ram _ bound isThere user⟩
  ram q bound isThere user := by
    rw [same q bound] at isThere user ⊢
    rw [total]
    exact shows.ram q bound isThere user

theorem heap {h : Heap} (shows : Shows m d view) (held : Held m ps) (member : d ∈ dirs ps)
    (grown : Grown m.toHeap h) (holds : HeapHolds h live) : Shows { m with toHeap := h } d view := by
  obtain ⟨same, evolved⟩ := held.heap (d := d) (P := fun _ => False) grown holds
  refine shows.congr held evolved.held member (same.view d (mem_cons_of_mem _ member)) grown.total fun q f page x inside => ?_
  have owned := (held.loose (u := .page d q) ⟨member, page⟩).toOwned
  obtain ⟨rs, ok, _⟩ := holds
  have startPage := ok.startPage
  rw [grown.start] at startPage
  -- the frame is not in the heap, and the pages by which the heap grew were free
  have fresh : ¬ (m.stop ≤ 4096 * f ∧ 4096 * f < h.stop) := by
    rintro ⟨lower, upper⟩
    have isFree := grown.taken f lower upper
    rw [owned.used] at isFree
    cases isFree
  have outside := owned.outside
  refine grown.mem x ?_
  omega

/-! ## Storing and backing pages -/

theorem stored {chunk : Nat} (shows : Shows m d view) (ready : Ready ps d m) (stored : Stored ps source d m m' vaddr done chunk) (inPage : vaddr % 4096 + chunk ≤ 4096) :
    Shows m' d (view.store vaddr chunk (source m.mem done)) := by
  obtain ⟨held, member, _⟩ := id ready
  obtain ⟨f, page, _, mem⟩ := stored.page
  have same (q : Nat) (bound : q < 1048576) : pte m'.mem d q = pte m.mem d q :=
    stored.acted.view d ready.listed q bound fun here => here.2
  refine ⟨fun virt low => ?_, fun q bound isThere user => ?_⟩
  · by_cases here : virt / 4096 = vaddr / 4096
    · have old : UserPage m d (virt / 4096) f := by rwa [here]
      rw [stored.acted.held.peek_page member low (stored.acted.userPage member old id), mem]
      by_cases inside : vaddr ≤ virt ∧ virt < vaddr + chunk
      · rw [View.store_inside inside.1 inside.2, splice_inside (by omega) (by omega)]
        exact congrArg (fun k => some (source m.mem done k)) (by omega)
      · rw [View.store_outside (by omega), splice_outside (by omega), ← shows.bytes virt low, held.peek_page member low old]
    · rw [View.store_outside (by omega), ← shows.bytes virt low]
      have bound : virt / 4096 < 1048576 := by omega
      refine peek_congr held stored.acted.held member low (same _ bound) fun isThere user x inside => ?_
      have old : UserPage m d (virt / 4096) _ := ⟨bound, isThere, user, rfl, shows.ram _ bound isThere user⟩
      -- another page has another frame
      have other : pageFrame (pte m.mem d (virt / 4096)) ≠ f := by
        intro equal
        rw [equal] at old
        exact here (Use.page.inj (held.apart (u := .page d (virt / 4096)) ⟨member, old⟩
          (show UseAt m ps (.page d (vaddr / 4096)) f from ⟨member, page⟩))).2
      rw [mem, splice_outside (by omega)]
  · rw [same q bound] at isThere user ⊢
    rw [stored.acted.total]
    exact shows.ram q bound isThere user

theorem storeInProcess (src : Nat → UInt8) (shows : Shows m d view) (ready : Ready ps d m)
    (low : vaddr < 4294967296) (range : vaddr + size ≤ 4294967296)
    (pages : ∀ q, vaddr / 4096 ≤ q → 4096 * q < vaddr + size → ∃ f, UserPage m d q f)
    (heapOnly : ∀ mem : Buf, (∀ k, m.start ≤ k → k < m.stop → mem k = m.mem k) →
      ∀ x k, x + k < done + size → source mem x k = src (x + k))
    (ran : Memory.storeInProcess source d fuel m vaddr done size = some m') :
    Shows m' d (view.store vaddr size fun k => src (done + k)) := by
  induction fuel generalizing m vaddr done size view with
  | zero => cases ran
  | succ fuel ih =>
    simp only [Memory.storeInProcess] at ran
    rcases Nat.eq_zero_or_pos size with rfl | positive
    · cases ran
      rwa [View.store_nothing]
    · rw [if_neg (Nat.pos_iff_ne_zero.mp positive)] at ran
      obtain ⟨f, page⟩ := pages (vaddr / 4096) (Nat.le_refl _) (by omega)
      obtain ⟨chunk, isChunk⟩ : ∃ chunk, min (4096 - vaddr % 4096) size = chunk := ⟨_, rfl⟩
      have inPage : vaddr % 4096 + chunk ≤ 4096 := by omega
      have step := ready.storeInProcess_step source done chunk low inPage page
      rw [isChunk] at ran
      obtain ⟨_, start, stop⟩ := step.acted.heap
      have first := heapOnly m.mem (fun _ _ _ => rfl) done
      have rest : Shows m' d ((view.store vaddr chunk (source m.mem done)).store ((vaddr + chunk) % 4294967296) (size - chunk)
          fun k => src (done + chunk + k)) := by
        refine ih (shows.stored ready step inPage) (step.acted.ready ready) (by omega) (by omega)
          (fun q lower upper => ?_) (fun mem agrees x k inside => ?_) ran
        · obtain ⟨g, old⟩ := pages q (by omega) (by omega)
          exact ⟨g, step.acted.userPage ready.member old id⟩
        · refine heapOnly mem (fun y lower upper => ?_) x k (by omega)
          rw [agrees y (by omega) (by omega), step.acted.region y lower upper]
      have whole : (view.store vaddr chunk (source m.mem done)).store (vaddr + chunk) (size - chunk)
          (fun k => src (done + (chunk + k))) = view.store vaddr size fun k => src (done + k) :=
        View.store_store (by omega) fun k inside => first k (by omega)
      simp only [Nat.add_assoc] at rest
      rcases Nat.lt_or_ge (vaddr + chunk) 4294967296 with inside | wrapped
      · rwa [Nat.mod_eq_of_lt inside, whole] at rest
      · rw [show size - chunk = 0 by omega, View.store_nothing] at rest whole
        rwa [← whole]

theorem mapFresh (shows : Shows m d view) (ready : Ready ps d m) (bound : p + n ≤ 1048576) (roomy : Roomy m d p n) :
    Shows (Memory.mapFresh d userRw m n (4096 * p)).2 d (view.back p n) := by
  obtain ⟨held, member, _⟩ := id ready
  have acted := ready.mapFresh_acted forUsers_userRw bound
  obtain ⟨kept, zeroed⟩ := ready.mapFresh_contents forUsers_userRw bound
  obtain ⟨_, done⟩ := ready.mapFresh_acts forUsers_userRw bound
  have zeroed := zeroed (.inl roomy) (done roomy).1
  generalize (Memory.mapFresh d userRw m n (4096 * p)).2 = m' at acted kept zeroed ⊢
  have fresh (q : Nat) (inside : InRange p n q) : ∃ f, UserPage m' d q f ∧ ∀ x, x / 4096 = f → m'.mem x = 0 := by
    obtain ⟨f, view, _, ram, zero⟩ := zeroed q inside
    obtain ⟨lower, upper⟩ := inside
    have frame : f = pageFrame (pageEntry (4096 * f) userRw) := by
      rw [pageFrame_pageEntry]
      omega
    refine ⟨f, ⟨by omega, ?_, ?_, ?_, by rwa [acted.total]⟩, zero⟩
    · rw [view, isPresent_pageEntry, forUsers_userRw.isThere]
    · rw [view, isUser_pageEntry, forUsers_userRw.user]
    · rwa [view]
  have same (q : Nat) (bound : q < 1048576) (outside : ¬ InRange p n q) : pte m'.mem d q = pte m.mem d q :=
    acted.view d ready.listed q bound fun here => outside here.2
  refine ⟨fun virt low => ?_, fun q bound isThere user => ?_⟩
  · by_cases inside : InRange p n (virt / 4096)
    · obtain ⟨f, page, zero⟩ := fresh _ inside
      rw [acted.held.peek_page member low page, zero _ (by omega), View.back_inside inside]
    · rw [View.back_outside inside, ← shows.bytes virt low]
      have bound : virt / 4096 < 1048576 := by omega
      exact peek_congr held acted.held member low (same _ bound inside) fun isThere user =>
        kept _ (held.kept_page member bound isThere user)
  · by_cases inside : InRange p n q
    · obtain ⟨f, page, _⟩ := fresh q inside
      rw [← page.frame]
      exact page.ram
    · rw [same q bound inside] at isThere user ⊢
      rw [acted.total]
      exact shows.ram q bound isThere user

end Shows

/-! ## Loading segments -/

theorem loadSegment_done (ran : loadSegment m d size data seg = some (true, m')) :
    ∃ m₁ m₂, mapUserRange m d seg.vaddr seg.stop = (true, m₁) ∧
      copyToProcess m₁ d seg.vaddr (data + seg.offset) seg.filesz = some m₂ ∧
      (if seg.filesz < seg.memsz then zeroInProcess m₂ d ((seg.vaddr + seg.filesz) % 4294967296) (seg.memsz - seg.filesz) = some m'
        else m₂ = m') := by
  simp only [loadSegment] at ran
  split at ran
  · cases ran
  · next m₁ mapped =>
    split at ran
    · cases ran
    · split at ran
      · cases ran
      · next m₂ copied =>
        refine ⟨m₁, m₂, mapped, copied, ?_⟩
        split at ran
        · next more =>
          obtain ⟨_, zeroed, same⟩ := Option.map_eq_some_iff.mp ran
          rw [if_pos more, zeroed, (Prod.mk.inj same).2]
        · next full =>
          cases ran
          rw [if_neg full]

theorem Shows.loadSegment (shows : Shows m d view) (ready : Ready ps d m) (inHeap : InHeap m file data) (sound : seg.Sound lo hi)
    (loaded : seg.isLoaded = true) (inFile : 0 < seg.filesz → seg.offset + seg.filesz ≤ file.size.toNat)
    (room : seg.frames ≤ m.pmm.freeCount) (ran : Memory.loadSegment m d file.size.toNat data seg = some (true, m')) :
    Shows m' d (view.place file seg) := by
  obtain ⟨m₁, m₂, mapped, copied, zeroed⟩ := loadSegment_done ran
  obtain ⟨stop, shape, positive⟩ := sound.shape loaded
  obtain ⟨_, _, top⟩ := sound.bounds loaded
  have inMemory : seg.filesz ≤ seg.memsz := sound.2.2
  have roomy : Roomy m d seg.page seg.pages := (seg.framesNeeded_le m d).trans room
  have backed := shows.mapFresh ready (by omega) roomy
  obtain ⟨acts, done⟩ := ready.mapFresh_acts forUsers_userRw (n := seg.pages) (p := seg.page) (by omega)
  have acted : Acted ps d (InRange seg.page seg.pages) m _ := acts.acted ready fun _ _ _ known => known.1
  have pages := (done roomy).2.1
  rw [seg.mapUserRange_eq] at mapped
  rw [mapped] at backed acted pages
  have ready₁ : Ready ps d m₁ := acted.ready ready
  have inHeap₁ := inHeap.acted acted
  have inside (q : Nat) (lower : seg.vaddr / 4096 ≤ q) (upper : 4096 * q < seg.vaddr + seg.memsz) :
      ∃ f, UserPage m₁ d q f := pages q ⟨lower, by omega⟩
  -- the file in the heap is what is copied
  have copiedBytes : Shows m₂ d ((view.back seg.page seg.pages).store seg.vaddr seg.filesz fun k => file.bytes (seg.offset + (0 + k))) := by
    refine backed.storeInProcess (fun k => file.bytes (seg.offset + k)) ready₁ (by omega) (by omega)
      (fun q lower upper => inside q lower (by omega)) (fun mem agrees x k within => ?_) copied
    have lower := inHeap₁.lower
    have upper := inHeap₁.upper
    have top := inHeap₁.top
    have address : (data + seg.offset + x) % 4294967296 + k = data + (seg.offset + (x + k)) := by omega
    show mem ((data + seg.offset + x) % 4294967296 + k) = _
    rw [address, agrees _ (by omega) (by omega), inHeap₁.bytes _ (by omega)]
  obtain ⟨m₂', copied', writes⟩ : ∃ m₂, copyToProcess m₁ d seg.vaddr (data + seg.offset) seg.filesz = some m₂ ∧
      Acts d (fun _ _ _ => False) m₁ m₂ := by
    refine ready₁.storeInProcess_acts _ ?_ (by omega) (by omega) fun q lower upper => inside q lower (by omega)
    rw [walkLimit]
    omega
  obtain rfl := Option.some.inj (copied'.symm.trans copied)
  have acted₂ : Acted ps d (fun _ => False) m₁ m₂' := writes.acted ready₁ fun _ _ _ => id
  simp only [Nat.zero_add] at copiedBytes
  rw [View.place]
  split at zeroed
  · rw [Nat.mod_eq_of_lt (by omega), zeroInProcess] at zeroed
    refine copiedBytes.storeInProcess (fun _ => 0) (acted₂.ready ready₁) (by omega) (by omega)
      (fun q lower upper => ?_) (fun _ _ _ _ _ => rfl) zeroed
    obtain ⟨f, page⟩ := inside q (by omega) (by omega)
    exact ⟨f, acted₂.userPage ready.member page id⟩
  · rw [show seg.memsz - seg.filesz = 0 by omega, View.store_nothing, ← zeroed]
    exact copiedBytes

/-- The end of the segments. -/
def highestStop (highest : Nat) (segs : List Segment) : Nat := segs.foldl (fun top seg => max top seg.stop) highest

theorem Shows.loadSegments {i highest top : Nat} (shows : Shows m d view) (underway : Underway ps d file data lo hi i m)
    (inFile : ∀ seg ∈ file.loadedFrom i, 0 < seg.filesz → seg.offset + seg.filesz ≤ file.size.toNat)
    (ran : Memory.loadSegments d file.size.toNat data fuel m i highest = some (some top, m')) :
    Shows m' d ((file.loadedFrom i).foldl (View.place file) view) ∧ top = highestStop highest (file.loadedFrom i) := by
  induction fuel generalizing m i highest view with
  | zero => cases ran
  | succ fuel ih =>
    simp only [Memory.loadSegments, underway.inHeap.phnum underway.header] at ran
    rcases Nat.lt_or_ge i (phnum file.bytes 0) with more | done
    · rw [if_neg (by omega), underway.segment more] at ran
      split at ran
      · next loaded =>
        rw [file.loadedFrom_step more, if_pos loaded] at inFile ⊢
        obtain ⟨sound, room, ok, m₁, ranSegment, _, later⟩ := underway.load more loaded
        rw [ranSegment] at ran
        cases ok with
        | false => cases ran
        | true =>
          have placed := shows.loadSegment underway.toReady underway.inHeap sound loaded (inFile _ mem_cons_self) room ranSegment
          exact ih placed later (fun seg inside => inFile seg (mem_cons_of_mem _ inside)) ran
      · next skipped =>
        obtain ⟨all, later⟩ := underway.skip more skipped
        rw [all] at inFile ⊢
        exact ih shows later inFile ran
    · rw [if_pos done] at ran
      cases ran
      rw [file.loadedFrom_end done]
      exact ⟨shows, rfl⟩

/-- What the program of the file sees before it runs. -/
def ElfFile.image (file : ElfFile) : View := (file.loadedFrom 0).foldl (View.place file) fun _ => none

/-- The bytes that are copied are in the file. -/
def ElfFile.HasBytes (file : ElfFile) : Prop :=
  ∀ seg ∈ file.loadedFrom 0, 0 < seg.filesz → seg.offset + seg.filesz ≤ file.size.toNat
  deriving Decidable

namespace Segment

/-- The byte `k` of the segment in memory. -/
def byte (file : ElfFile) (seg : Segment) (k : Nat) : UInt8 := if k < seg.filesz then file.bytes (seg.offset + k) else 0

/-- No byte is in both. -/
def Apart (seg other : Segment) : Prop :=
  seg.vaddr + seg.memsz ≤ other.vaddr ∨ other.vaddr + other.memsz ≤ seg.vaddr
  deriving Decidable

/-- The bytes that this segment has from the file are on no page of the later one. -/
def Spared (seg later : Segment) : Prop :=
  seg.filesz = 0 ∨ (seg.vaddr + seg.filesz - 1) / 4096 < later.page ∨ later.page + later.pages ≤ seg.page
  deriving Decidable

/-- The view has the bytes of the segment. -/
def In (file : ElfFile) (seg : Segment) (view : View) : Prop := ∀ k < seg.memsz, view (seg.vaddr + k) = some (seg.byte file k)

variable {later : Segment}

theorem In.place (here : seg.In file view) (small : later.filesz ≤ later.memsz) (apart : seg.Apart later)
    (spared : seg.Spared later) : seg.In file (view.place file later) := by
  intro k inside
  rw [View.place]
  rw [Apart] at apart
  rw [View.store_outside (by omega), View.store_outside (by omega)]
  by_cases shared : InRange later.page later.pages ((seg.vaddr + k) / 4096)
  · -- a page of both: the byte is one of the zeros
    obtain ⟨lower, upper⟩ := shared
    have zero : ¬ k < seg.filesz := by
      intro fromFile
      simp only [Spared, Segment.page] at spared lower upper
      omega
    rw [View.back_inside ⟨lower, upper⟩, byte, if_neg zero]
  · rw [View.back_outside shared, here k inside]

theorem In.foldl {rest : List Segment} (here : seg.In file view) (small : ∀ later ∈ rest, later.filesz ≤ later.memsz)
    (apart : ∀ later ∈ rest, seg.Apart later ∧ seg.Spared later) : seg.In file (rest.foldl (View.place file) view) := by
  induction rest generalizing view with
  | nil => exact here
  | cons later rest ih =>
    obtain ⟨first, others⟩ := forall_mem_cons.mp apart
    obtain ⟨firstSmall, othersSmall⟩ := forall_mem_cons.mp small
    exact ih (here.place firstSmall first.1 first.2) othersSmall others

end Segment

namespace ElfFile

/-- A well-formed executable for user space: headers and bytes are inside the file, and the segments are apart, between
`USER_LOAD_ADDR` and `USER_MMAP_BASE`. -/
structure WellFormed (file : ElfFile) : Prop where
  headers : ∀ i < phnum file.bytes 0, file.headerOffset i + 32 ≤ file.size.toNat
  small : ∀ seg ∈ file.loadedFrom 0, seg.filesz ≤ seg.memsz
  bytes : file.HasBytes
  bounds : ∀ seg ∈ file.loadedFrom 0, 0x800000 ≤ seg.vaddr ∧ seg.vaddr + seg.memsz ≤ 0x50000000
  apart : (file.loadedFrom 0).Pairwise Segment.Apart

/-- No page of a segment has bytes of an earlier one, the size can be aligned, and there are frames for the file, the
segments and their tables. -/
structure Loadable (file : ElfFile) (frames : Nat) : Prop where
  spared : (file.loadedFrom 0).Pairwise Segment.Spared
  size : file.size.toNat ≤ 4294967292
  room : pagesNeeded (align4 file.size.toNat) + segmentFrames (file.loadedFrom 0) ≤ frames

theorem WellFormed.fits {frames : Nat} (wellFormed : file.WellFormed) (loadable : file.Loadable frames) :
    file.Fits 0 0x100000 frames := by
  refine ⟨loadable.size, fun _ => ⟨⟨wellFormed.headers, fun seg inside => ?_⟩, loadable.room⟩⟩
  have bounds := wellFormed.bounds seg inside
  exact ⟨by omega, by omega, wellFormed.small seg inside⟩

end ElfFile

theorem Created.bare (created : Created ps m m' proc) (q : Nat) (bound : q < 1048576) :
    isUser (pte m'.mem proc.pageDirectory q) = false := by
  have shared := created.shared (q / 1024) (by omega)
  have supervisor := created.held.supervisor q bound
  rwa [pte, ← shared] at supervisor

/-- The machine after `process_create`. -/
theorem System.Ok.fresh {s : System} {total : Nat} {caller : Option Nat} (ok : s.Ok total lo hi)
    (created : processCreate (s.under caller) = some (some proc, m)) :
    Sane total lo hi m ((proc.kernelStack, proc.pageDirectory) :: s.frames) s.held ∧ Created s.frames (s.under caller) m proc := by
  obtain ⟨sane, active⟩ := ok.under caller
  rcases sane.held.processCreate_cases (d := 0) (P := fun _ => False) sane.heap.aligned with ⟨proc', m', made, new⟩ | ⟨_, m', failed, _⟩
  · obtain ⟨isProc, rfl⟩ := Prod.mk.inj (Option.some.inj (made.symm.trans created))
    cases isProc
    exact ⟨sane.created active new, new⟩
  · cases failed.symm.trans created

end GinnOS.Memory
