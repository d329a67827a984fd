import GinnOS.Memory.Break

/-! # Anonymous mappings

`sys_mmap` hands out ranges from a cursor that only moves up.  They stay apart from one another, and from
the program's data while the break stays below the region.  Two things are not checked: a
length that is rounded up to zero (`mmap_rounds_to_nothing`), and a break that grows into the region.
-/

namespace GinnOS.Memory

open Lib Lib.Buf List

/-- The range that a call hands out: address and length. -/
def handed : UserOp × Option Nat → Option (Nat × Nat)
  | (.mmap length _ _, some virt) => some (virt, length.toNat)
  | _ => none

def ranges (trace : List (UserOp × Option Nat)) : List (Nat × Nat) := trace.filterMap handed

namespace Running

/-- The rounded length does not wrap, frames or tables for a mapping suffice, and the break stays below the region. -/
def Confined (r : Running) : UserOp → Prop
  | .sbrk increment => increment = 0 ∨ 2147483648 ≤ increment.toNat ∨ r.proc.brk + increment.toNat ≤ 0x50000000
  | .mmap length _ _ => length.toNat ≤ 0xFFFFF000 ∧
      Backable r.machine r.proc.pageDirectory (r.proc.mmapNext / 4096) (pageAlignUp length.toNat / 4096)
  | .store virt _ => virt < 4294967296

instance Covered.decide (m : Machine) (d p n : Nat) : Decidable (Covered m d p n) :=
  decidable_of_iff (∀ k < n, HasOwn m d ((p + k) / 1024))
    ⟨fun all q ⟨lower, upper⟩ => by
      have own := all (q - p) (by omega)
      rwa [show p + (q - p) = q by omega] at own, fun all k inside => all (p + k) ⟨by omega, by omega⟩⟩

instance Confined.decide (r : Running) (op : UserOp) : Decidable (r.Confined op) := by
  cases op <;> dsimp only [Confined, Backable] <;> infer_instance

/-- The frame of an address the program may access. -/
def frameAt (r : Running) (virt : Nat) : Option Nat := (userEntry r.machine.mem r.proc.pageDirectory virt).map pageFrame

/-- The ranges lie in the region, apart from one another and from the program's data, and all their pages are mapped, each to
a frame of its own. -/
structure Apart (r : Running) (ranges : List (Nat × Nat)) : Prop where
  aligned : ∀ range ∈ ranges, range.1 % 4096 = 0
  inside : ∀ range ∈ ranges, 0x50000000 ≤ range.1 ∧ range.1 + range.2 ≤ 0xB0000000
  apart : ranges.Pairwise fun x y => x.1 + x.2 ≤ y.1 ∨ y.1 + y.2 ≤ x.1
  data : ∀ range ∈ ranges, r.proc.brk ≤ range.1
  mapped : ∀ range ∈ ranges, ∀ virt, range.1 ≤ virt → virt < range.1 + range.2 → (r.frameAt virt).isSome
  own : ∀ range ∈ ranges, ∀ virt, range.1 ≤ virt → virt < range.1 + range.2 → ∀ virt' < 4294967296,
    r.frameAt virt' = r.frameAt virt → virt' / 4096 = virt / 4096

/-- The mapping just made: fresh frames, clear. -/
structure Fresh (r r' : Running) (virt length : Nat) : Prop where
  zero : ∀ k < length, r'.reads (virt + k) = some 0
  fresh : ∀ k < length, ∀ f ∈ r'.frameAt (virt + k), r.machine.pmm.free f = true

variable {r r' : Running} {ps : List (Nat × Nat)} {ans : Option Nat}

/-- `mmap` does nothing, or it backs the pages from the cursor on. -/
theorem step_mmap_cases (r : Running) (length prot offset : UInt32) (small : length.toNat ≤ 0xFFFFF000) (ok : r.proc.Ok 0) :
    r.step (.mmap length prot offset) = (none, r) ∨
      (0 < length.toNat ∧ r.proc.mmapNext + pageAlignUp length.toNat ≤ 0xB0000000 ∧
        ∃ mapped m, mapFresh r.proc.pageDirectory (pageFlags prot) r.machine (pageAlignUp length.toNat / 4096)
            (4096 * (r.proc.mmapNext / 4096)) = (mapped, m) ∧
          r.step (.mmap length prot offset) =
            if mapped then (some r.proc.mmapNext, ⟨m, { r.proc with mmapNext := r.proc.mmapNext + pageAlignUp length.toNat }⟩)
            else (none, ⟨m, r.proc⟩)) := by
  obtain ⟨lower, upper, page⟩ := ok.cursor
  simp only [Running.step, sysMmap]
  split
  · exact .inl rfl
  · next good =>
    split
    · exact .inl rfl
    · next fits =>
      have positive : length.toNat ≠ 0 := fun zero => good (.inl (UInt32.toNat_inj.mp zero))
      have room : r.proc.mmapNext + pageAlignUp length.toNat ≤ 0xB0000000 := by
        simp only [sub32] at fits
        omega
      have cursor : (r.proc.mmapNext + pageAlignUp length.toNat) % 4294967296 = r.proc.mmapNext + pageAlignUp length.toNat := by omega
      have start : 4096 * (r.proc.mmapNext / 4096) = r.proc.mmapNext := by omega
      rw [if_pos (by decide), cursor, start]
      refine .inr ⟨by omega, room, ?_⟩
      cases result : mapFresh r.proc.pageDirectory (pageFlags prot) r.machine (pageAlignUp length.toNat / 4096) r.proc.mmapNext with
      | mk mapped m => cases mapped <;> exact ⟨_, m, rfl, rfl⟩

theorem Ok.frameAt_eq (ok : r.Ok ps) {virt : Nat} (low : virt < 4294967296) : r.frameAt virt =
    if isPresent (pte r.machine.mem r.proc.pageDirectory (virt / 4096)) &&
        isUser (pte r.machine.mem r.proc.pageDirectory (virt / 4096))
      then some (pageFrame (pte r.machine.mem r.proc.pageDirectory (virt / 4096))) else none := by
  rw [frameAt, ok.held.userEntry_eq ok.member low]
  split <;> rfl

theorem Ok.page_of_frameAt (ok : r.Ok ps) {virt f : Nat} (low : virt < 4294967296) (here : r.frameAt virt = some f)
    (ram : f < r.machine.pmm.totalPages) : UserPage r.machine r.proc.pageDirectory (virt / 4096) f := by
  rw [ok.frameAt_eq low] at here
  split at here
  · next allowed =>
    rw [Bool.and_eq_true] at allowed
    cases here
    exact ⟨by omega, allowed.1, allowed.2, rfl, ram⟩
  · cases here

theorem Ok.frameAt_of_page (ok : r.Ok ps) {virt f : Nat} (low : virt < 4294967296)
    (page : UserPage r.machine r.proc.pageDirectory (virt / 4096) f) : r.frameAt virt = some f := by
  rw [ok.frameAt_eq low, page.isThere, page.user, page.frame]
  rfl

/-! ## What a run keeps -/

/-- The ranges lie behind one another below the cursor, above the break, and their pages have frames. -/
structure Tracks (r : Running) (ps : List (Nat × Nat)) (ranges : List (Nat × Nat)) : Prop where
  ok : r.Ok ps
  brk : r.proc.brk ≤ 0x50000000
  bounds : ∀ range ∈ ranges, range.1 % 4096 = 0 ∧ 0x50000000 ≤ range.1 ∧ range.1 + range.2 ≤ r.proc.mmapNext
  sorted : ranges.Pairwise fun x y => x.1 + x.2 ≤ y.1
  pages : ∀ range ∈ ranges, ∀ q, range.1 ≤ 4096 * q → 4096 * q < range.1 + range.2 →
    ∃ f, UserPage r.machine r.proc.pageDirectory q f

variable {rs : List (Nat × Nat)}

theorem Tracks.acted (tracks : r.Tracks ps rs) {m' : Machine} {proc' : Process} {P : Nat → Prop}
    (acted : Acted ps r.proc.pageDirectory P r.machine m') (ok : Ok ⟨m', proc'⟩ ps)
    (same : proc'.pageDirectory = r.proc.pageDirectory) (brk : proc'.brk ≤ 0x50000000) (cursor : r.proc.mmapNext ≤ proc'.mmapNext)
    (other : ∀ q, P q → 4096 * q < 0x50000000 ∨ r.proc.mmapNext ≤ 4096 * q) : Tracks ⟨m', proc'⟩ ps rs where
  ok := ok
  brk := brk
  bounds range known := by
    obtain ⟨aligned, lower, upper⟩ := tracks.bounds range known
    exact ⟨aligned, lower, Nat.le_trans upper cursor⟩
  sorted := tracks.sorted
  pages range known q lower upper := by
    obtain ⟨aligned, above, below⟩ := tracks.bounds range known
    obtain ⟨f, page⟩ := tracks.pages range known q lower upper
    refine ⟨f, ?_⟩
    rw [same]
    exact acted.userPage tracks.ok.member page fun here => by
      have := other q here
      omega

theorem Tracks.sbrk (tracks : r.Tracks ps rs) {increment : UInt32} (confined : r.Confined (.sbrk increment))
    (stepped : r.step (.sbrk increment) = (ans, r')) : r'.Tracks ps rs := by
  have ok' : r'.Ok ps := by
    have next : (r.step (.sbrk increment)).2.Ok ps := tracks.ok.step trivial
    rwa [stepped] at next
  have low := tracks.ok.proc.brk.2
  rcases step_sbrk_cases r increment low with nothing | ⟨rfl, nothing⟩ | ⟨top, positive, small, mapped, m, result, made⟩
  · cases nothing.symm.trans stepped
    exact tracks
  · cases nothing.symm.trans stepped
    exact tracks
  · have below : r.proc.brk + increment.toNat ≤ 0x50000000 := by
      rcases confined with rfl | negative | below
      · exact absurd positive (by decide)
      · omega
      · exact below
    obtain ⟨n, isN, count⟩ := pages_between r.proc.brk (show r.proc.brk + increment.toNat ≤ 0xFFFFF000 by omega)
    rw [isN] at result
    have acted := tracks.ok.ready.mapFresh_acted (p := r.proc.brk / 4096) (n := n) forUsers_userRw (by omega)
    rw [result] at acted
    have other (q : Nat) (here : InRange (r.proc.brk / 4096) n q) : 4096 * q < 0x50000000 ∨ r.proc.mmapNext ≤ 4096 * q := by
      obtain ⟨_, upper⟩ := here
      omega
    cases mapped with
    | true =>
      cases made.symm.trans stepped
      exact tracks.acted acted ok' rfl below (Nat.le_refl _) other
    | false =>
      cases made.symm.trans stepped
      exact tracks.acted acted ok' rfl tracks.brk (Nat.le_refl _) other

theorem Tracks.mmap (tracks : r.Tracks ps rs) {length prot offset : UInt32} (confined : r.Confined (.mmap length prot offset))
    (stepped : r.step (.mmap length prot offset) = (ans, r')) :
    r'.Tracks ps (rs ++ (handed (.mmap length prot offset, ans)).toList) ∧ ∀ virt ∈ ans, Fresh r r' virt length.toNat := by
  have ok' : r'.Ok ps := by
    have next : (r.step (.mmap length prot offset)).2.Ok ps := tracks.ok.step trivial
    rwa [stepped] at next
  obtain ⟨small, backable⟩ := confined
  have procOk := tracks.ok.proc
  rcases step_mmap_cases r length prot offset small procOk with nothing | ⟨positive, room, mapped, m, result, made⟩
  · cases nothing.symm.trans stepped
    exact ⟨(append_nil rs).symm ▸ tracks, nofun⟩
  obtain ⟨lower, upper, page⟩ := procOk.cursor
  obtain ⟨size, isSize⟩ : ∃ size, pageAlignUp length.toNat = size := ⟨_, rfl⟩
  have whole : size % 4096 = 0 ∧ length.toNat ≤ size := by
    rw [← isSize, pageAlignUp]
    omega
  rw [isSize] at result made backable room
  have flagged := pageFlags_user prot
  have bound : r.proc.mmapNext / 4096 + size / 4096 ≤ 1048576 := by omega
  have acted := tracks.ok.ready.mapFresh_acted flagged bound
  obtain ⟨_, zeroed⟩ := tracks.ok.ready.mapFresh_contents flagged bound
  rw [result] at acted zeroed
  have other (q : Nat) (here : InRange (r.proc.mmapNext / 4096) (size / 4096) q) :
      4096 * q < 0x50000000 ∨ r.proc.mmapNext ≤ 4096 * q := by
    obtain ⟨above, _⟩ := here
    omega
  cases mapped with
  | false =>
    cases made.symm.trans stepped
    exact ⟨(append_nil rs).symm ▸ tracks.acted acted ok' rfl tracks.brk (Nat.le_refl _) other, nofun⟩
  | true =>
    cases made.symm.trans stepped
    have zeroed := zeroed backable rfl
    have kept : Tracks ⟨m, { r.proc with mmapNext := r.proc.mmapNext + size }⟩ ps rs :=
      tracks.acted acted ok' rfl tracks.brk (Nat.le_add_right _ _) other
    have fresh (q : Nat) (first : r.proc.mmapNext ≤ 4096 * q) (last : 4096 * q < r.proc.mmapNext + length.toNat) :
        ∃ f, UserPage m r.proc.pageDirectory q f ∧ r.machine.pmm.free f = true ∧ ∀ x, x / 4096 = f → m.mem x = 0 := by
      obtain ⟨f, view, free, ram, zero⟩ := zeroed q ⟨by omega, by omega⟩
      refine ⟨f, ⟨by omega, ?_, ?_, ?_, ?_⟩, free, zero⟩
      · rw [view, isPresent_pageEntry, flagged.isThere]
      · rw [view, isUser_pageEntry, flagged.user]
      · rw [view, pageFrame_pageEntry]
        omega
      · rw [acted.total]
        exact ram
    refine ⟨⟨ok', tracks.brk, fun range known => ?_, ?_, fun range known q first last => ?_⟩, ?_⟩
    · rcases mem_append.mp known with old | new
      · exact kept.bounds range old
      · cases mem_singleton.mp new
        exact ⟨page, lower, by simp only; omega⟩
    · refine pairwise_append.mpr ⟨tracks.sorted, pairwise_singleton .., fun old known new isNew => ?_⟩
      cases mem_singleton.mp isNew
      exact (tracks.bounds old known).2.2
    · rcases mem_append.mp known with old | new
      · exact kept.pages range old q first last
      · cases mem_singleton.mp new
        obtain ⟨f, isPage, _⟩ := fresh q first last
        exact ⟨f, isPage⟩
    · rintro virt ⟨⟩
      have here (k : Nat) (inside : k < length.toNat) : ∃ f, Running.frameAt
          ⟨m, { r.proc with mmapNext := r.proc.mmapNext + size }⟩ (r.proc.mmapNext + k) = some f ∧
            r.machine.pmm.free f = true ∧ ∀ x, x / 4096 = f → m.mem x = 0 := by
        obtain ⟨f, isPage, free, zero⟩ := fresh ((r.proc.mmapNext + k) / 4096) (by omega) (by omega)
        exact ⟨f, ok'.frameAt_of_page (by omega) isPage, free, zero⟩
      refine ⟨fun k inside => ?_, fun k inside f isFrame => ?_⟩
      · obtain ⟨f, isFrame, _, zero⟩ := here k inside
        rw [frameAt] at isFrame
        obtain ⟨e, isEntry, rfl⟩ := Option.map_eq_some_iff.mp isFrame
        rw [reads, peek, isEntry, Option.map_some, zero _ (by omega)]
      · obtain ⟨f', isFrame', free, _⟩ := here k inside
        cases isFrame'.symm.trans isFrame
        exact free

theorem Tracks.step {op : UserOp} (tracks : r.Tracks ps rs) (confined : r.Confined op) (stepped : r.step op = (ans, r')) :
    r'.Tracks ps (rs ++ (handed (op, ans)).toList) := by
  cases op with
  | sbrk increment => exact (append_nil rs).symm ▸ tracks.sbrk confined stepped
  | mmap length prot offset => exact (tracks.mmap confined stepped).1
  | store virt value =>
    cases stepped
    have undisturbed := poke_undisturbed tracks.ok.held tracks.ok.member confined value
    have stored : Tracks (r.step (.store virt value)).2 ps rs := by
      refine ⟨tracks.ok.step confined, tracks.brk, tracks.bounds, tracks.sorted, fun range known q first last => ?_⟩
      obtain ⟨f, page⟩ := tracks.pages range known q first last
      exact ⟨f, (undisturbed.userPage tracks.ok.member).mpr page⟩
    exact (append_nil rs).symm ▸ stored

theorem Tracks.run {trace : List (UserOp × Option Nat)} (run : Run Running.step Confined r trace r') (tracks : r.Tracks ps rs) :
    r'.Tracks ps (rs ++ ranges trace) := by
  induction run generalizing rs with
  | nil => rwa [ranges, filterMap_nil, append_nil]
  | @cons r₁ r₂ r₃ op ans trace allowed stepped _ ih =>
    have next := ih (tracks.step allowed stepped)
    rw [append_assoc] at next
    have whole : ranges ((op, ans) :: trace) = (handed (op, ans)).toList ++ ranges trace := by
      rw [ranges, ranges, filterMap_cons]
      cases handed (op, ans) <;> rfl
    rwa [whole]

theorem Tracks.apart (tracks : r.Tracks ps rs) : r.Apart rs := by
  have low (range : Nat × Nat) (known : range ∈ rs) : range.1 + range.2 ≤ 0xB0000000 :=
    Nat.le_trans (tracks.bounds range known).2.2 tracks.ok.proc.cursor.2.1
  have page (range : Nat × Nat) (known : range ∈ rs) (virt : Nat) (first : range.1 ≤ virt) (last : virt < range.1 + range.2) :
      ∃ f, r.frameAt virt = some f ∧ UserPage r.machine r.proc.pageDirectory (virt / 4096) f := by
    have aligned := (tracks.bounds range known).1
    have top := low range known
    obtain ⟨f, isPage⟩ := tracks.pages range known (virt / 4096) (by omega) (by omega)
    exact ⟨f, tracks.ok.frameAt_of_page (by omega) isPage, isPage⟩
  refine ⟨fun range known => (tracks.bounds range known).1, fun range known => ⟨(tracks.bounds range known).2.1, low range known⟩,
    tracks.sorted.imp .inl, fun range known => ?_, fun range known virt first last => ?_,
    fun range known virt first last virt' low' same => ?_⟩
  · exact Nat.le_trans tracks.brk (tracks.bounds range known).2.1
  · obtain ⟨f, isFrame, _⟩ := page range known virt first last
    rw [isFrame]
    rfl
  · obtain ⟨f, isFrame, isPage⟩ := page range known virt first last
    have isPage' := tracks.ok.page_of_frameAt low' (same.trans isFrame) isPage.ram
    have one : UseAt r.machine ps (.page r.proc.pageDirectory (virt' / 4096)) f := ⟨tracks.ok.member, isPage'⟩
    have two : UseAt r.machine ps (.page r.proc.pageDirectory (virt / 4096)) f := ⟨tracks.ok.member, isPage⟩
    exact (Use.page.inj (tracks.ok.held.apart one two)).2

end Running

/-- The frame of a user page has this use only: it is neither free nor in the heap, holds no page table and no kernel stack,
and backs one page of one process. -/
theorem user_frames_are_exclusive {image : KernelImage} {stage2 : Nat × Nat} {regions : List MemoryRegion} {mem : Buf}
    {framebuffer : Option (Nat × Nat)} {m : Machine} {trace : List (SysOp × Option Nat)} {s : System} {i q f : Nat} {proc : Process}
    (started : boot image stage2 regions mem framebuffer = some m)
    (run : Run System.step (fun s op => s.Allowed 0 0x100000 op) (bootSystem m framebuffer) trace s)
    (is : s.process i = some proc) (page : UserPage s.machine proc.pageDirectory q f) :
    Loose s.machine (dirs s.frames) f ∧ ∀ j other, s.process j = some other → f ≠ other.kernelStack ∧
      ∀ q', UserPage s.machine other.pageDirectory q' f → j = i ∧ q' = q := by
  have held := (System.Ok.run started (by decide) (by decide) (by decide) run).sane.held
  have use : UseAt s.machine s.frames (.page proc.pageDirectory q) f := ⟨System.mem_dirs is, page⟩
  refine ⟨held.loose use, fun j other isOther => ⟨?_, fun q' page' => ?_⟩⟩
  · rintro rfl
    cases held.apart use (show UseAt _ _ (.stack other.pageDirectory) _ from System.mem_frames isOther)
  · have use' : UseAt s.machine s.frames (.page other.pageDirectory q') f := ⟨System.mem_dirs isOther, page'⟩
    obtain ⟨directory, samePage⟩ := Use.page.inj (held.apart use' use)
    exact ⟨System.slot_eq held.nodup is isOther directory, samePage⟩

theorem user_frames_are_exclusive_sample : ∃ f, UserPage sampleStarted.2.machine sampleProcess.pageDirectory 0x400 f ∧
    Loose sampleStarted.2.machine (dirs sampleStarted.2.frames) f := by
  have page : UserPage sampleStarted.2.machine sampleProcess.pageDirectory 0x400 _ :=
    ⟨by decide, by decide +kernel, by decide +kernel, rfl, by decide +kernel⟩
  exact ⟨_, page, (user_frames_are_exclusive sampleMachine_boot sampleStarted_run sampleProcess_is page).1⟩

end GinnOS.Memory
