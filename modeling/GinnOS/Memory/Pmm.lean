import Mathlib.Data.Finset.Card

/-! # The physical memory manager (`kernel/memory/pmm.c`, `pmm_layout.c`, `region.c`)

A bitmap of page frames, bit set for free, with a next-fit cursor and a count of the
free frames.  Frames are numbered: frame `f` is the 4 KiB at address `4096 * f`, and
frame 0 is the null pointer.

* `pmmInit` — the walk over the memory map.
* `pmmAllocPage`, `pmmFreePage`, `pmmMarkPageUsed` — the bitmap operations; `none` is a
  kernel panic.
* `Took p p' frames` — `p'` is `p` after `frames` were taken and not given back.
-/

namespace GinnOS.Memory

open List

variable {page totalPages i f : Nat} {table : List (Nat × Nat)} {p' : Pmm} {frames : List Nat}

structure Pmm where
  /-- the bitmap: set for a free page -/
  free : Nat → Bool
  totalPages : Nat
  freePages : UInt32
  searchStart : Nat

/-- `memory_region_t`: an entry of the E820 map, with 64-bit numbers. -/
structure MemoryRegion where
  base : Nat
  length : Nat
  type : Nat

namespace MemoryRegion

/-- Usable RAM that starts below 4 GiB. -/
def usable (r : MemoryRegion) : Bool := r.type = 1 && r.base / 4294967296 = 0

def stop (r : MemoryRegion) : Nat := min ((r.base + r.length) % 18446744073709551616) 4294967295

/-- The first whole page, in 32-bit arithmetic; page 0 is skipped. -/
def pageStart (r : MemoryRegion) : Nat :=
  let page := (r.base + 4095) % 4294967296 / 4096
  if page = 0 then 1 else page

end MemoryRegion

/-- `pmm_layout_init`: the pages the bitmap tracks; without usable memory it panics. -/
def pmmTotalPages (regions : List MemoryRegion) : Option Nat :=
  let highest := ((regions.take 32).filter MemoryRegion.usable).foldl (fun top r => max top r.stop) 0
  if highest = 0 then none else some (highest / 4096)

/-- `region_overlaps`, over the table of reserved regions. -/
def regionOverlaps (table : List (Nat × Nat)) (start stop : Nat) : Bool :=
  table.any fun r => start < r.2 && r.1 < stop

namespace Pmm

variable (p : Pmm)

/-- `bitmap_set` and the count. -/
def markFree (page : Nat) : Pmm :=
  { p with free := Function.update p.free page true, freePages := p.freePages + 1 }

/-- `bitmap_clear` and the count. -/
def markUsed (page : Nat) : Pmm :=
  { p with free := Function.update p.free page false, freePages := p.freePages - 1 }

/-- Free the `count` pages from `page` on that exist and are not reserved. -/
def freeRange (table : List (Nat × Nat)) : Pmm → (page count : Nat) → Pmm
  | p, _, 0 => p
  | p, page, count + 1 =>
    let p := if page < p.totalPages ∧ regionOverlaps table (4096 * page) (4096 * page + 4096) = false
      then p.markFree page else p
    freeRange table p (page + 1) count

def freeRegion (table : List (Nat × Nat)) (r : MemoryRegion) : Pmm :=
  p.freeRange table r.pageStart (r.stop / 4096 - r.pageStart)

end Pmm

/-- `pmm_init`: everything is used but the usable pages outside the reserved regions. -/
def pmmInit (totalPages : Nat) (regions : List MemoryRegion) (table : List (Nat × Nat)) : Pmm :=
  ((regions.take 32).filter MemoryRegion.usable).foldl (fun p r => p.freeRegion table r)
    { free := fun _ => false, totalPages := totalPages, freePages := 0, searchStart := 0 }

namespace Pmm

/-- The next-fit scan: `n` pages are left, the next one is `i` pages behind the cursor. -/
def scan (p : Pmm) : (n i : Nat) → Option Nat
  | 0, _ => none
  | n + 1, i =>
    let index := (p.searchStart + i) % p.totalPages
    if p.free index then some index else p.scan n (i + 1)

end Pmm

def pmmAllocPage (p : Pmm) : Option Nat × Pmm :=
  match p.scan p.totalPages 0 with
  | none => (none, p)
  | some index =>
    -- the address of page 0 is the null pointer
    (if index = 0 then none else some index,
      { p.markUsed index with searchStart := (index + 1) % p.totalPages })

/-- `pmm_free_page`: the three panics are a misaligned address, one out of range, a double free. -/
def pmmFreePage (p : Pmm) (address : Nat) : Option Pmm :=
  let index := address / 4096
  if address % 4096 ≠ 0 then none
  else if p.totalPages ≤ index then none
  else if p.free index then none
  else some (p.markFree index)

def pmmOwns (p : Pmm) (frame : Nat) : Bool := frame < p.totalPages

def pmmIsPageFree (p : Pmm) (page : Nat) : Bool := if p.totalPages ≤ page then false else p.free page

def pmmMarkPageUsed (p : Pmm) (page : Nat) : Pmm :=
  if p.totalPages ≤ page then p else if p.free page then p.markUsed page else p

/-- The pages `[page, page + count)` are taken out of the bitmap. -/
def markPagesUsed : Pmm → (page count : Nat) → Pmm
  | p, _, 0 => p
  | p, page, count + 1 => markPagesUsed (pmmMarkPageUsed p page) (page + 1) count

def pmmMarkRegionUsed (p : Pmm) (start stop : Nat) : Pmm :=
  markPagesUsed p (start / 4096) (stop / 4096 - start / 4096)

/-! ## What holds of every bitmap -/

/-- Only real pages are free, and never the null page; page addresses have 32 bits. -/
structure Pmm.Ok (p : Pmm) : Prop where
  null : p.free 0 = false
  inside : ∀ {i}, p.free i = true → i < p.totalPages
  small : p.totalPages < 1048576

theorem Pmm.Ok.markFree {p : Pmm} (ok : p.Ok) (real : page < p.totalPages) (used : page ≠ 0) :
    (p.markFree page).Ok where
  null := by simp [Pmm.markFree, ok.null, used.symm]
  inside {i} isFree := by
    rcases eq_or_ne i page with rfl | other
    · exact real
    · simp only [Pmm.markFree, Function.update_of_ne other] at isFree
      exact ok.inside isFree
  small := ok.small

theorem Pmm.Ok.markUsed {p : Pmm} (ok : p.Ok) (page : Nat) : (p.markUsed page).Ok where
  null := by
    rcases eq_or_ne 0 page with rfl | other
    · simp [Pmm.markUsed]
    · simp [Pmm.markUsed, other, ok.null]
  inside {i} isFree := by
    rcases eq_or_ne i page with rfl | other
    · simp [Pmm.markUsed] at isFree
    · simp only [Pmm.markUsed, Function.update_of_ne other] at isFree
      exact ok.inside isFree
  small := ok.small

theorem Pmm.Ok.freeRange {p : Pmm} (ok : p.Ok) (count : Nat)
    (used : page ≠ 0) : (p.freeRange table page count).Ok := by
  induction count generalizing p page with
  | zero => exact ok
  | succ count ih =>
    simp only [Pmm.freeRange]
    split
    · next real => exact ih (ok.markFree real.1 used) (by omega)
    · exact ih ok (by omega)

theorem Pmm.Ok.freeRegion {p : Pmm} (ok : p.Ok) (r : MemoryRegion) :
    (p.freeRegion table r).Ok := by
  refine ok.freeRange _ ?_
  simp only [MemoryRegion.pageStart]
  split <;> omega

/-- What `pmm_init` makes of any memory map. -/
theorem pmmInit_ok (small : totalPages < 1048576) (regions : List MemoryRegion)
    (table : List (Nat × Nat)) : (pmmInit totalPages regions table).Ok := by
  have folded (rs : List MemoryRegion) : ∀ {p : Pmm}, p.Ok →
      (rs.foldl (fun p r => p.freeRegion table r) p).Ok := by
    induction rs with
    | nil => exact id
    | cons r rs ih => exact fun ok => ih (ok.freeRegion r)
  exact folded _ ⟨rfl, nofun, small⟩

theorem pmmTotalPages_small {regions : List MemoryRegion}
    (total : pmmTotalPages regions = some totalPages) : totalPages < 1048576 := by
  have folded (rs : List MemoryRegion) : ∀ {top : Nat}, top ≤ 4294967295 →
      rs.foldl (fun top r => max top r.stop) top ≤ 4294967295 := by
    induction rs with
    | nil => exact id
    | cons r rs ih => exact fun bound => ih (Nat.max_le.mpr ⟨bound, Nat.min_le_right _ _⟩)
  have bound := folded ((regions.take 32).filter MemoryRegion.usable) (Nat.zero_le _)
  simp only [pmmTotalPages] at total
  split at total
  · cases total
  · cases total
    omega

theorem pmmMarkPageUsed_ok {p : Pmm} (ok : p.Ok) (page : Nat) : (pmmMarkPageUsed p page).Ok := by
  simp only [pmmMarkPageUsed]
  split
  · exact ok
  · split
    · exact ok.markUsed page
    · exact ok

@[simp] theorem pmmMarkPageUsed_totalPages (p : Pmm) (page : Nat) :
    (pmmMarkPageUsed p page).totalPages = p.totalPages := by
  simp only [pmmMarkPageUsed]
  split
  · rfl
  · split <;> rfl

theorem pmmMarkPageUsed_free {p : Pmm} (inside : ∀ {i}, p.free i = true → i < p.totalPages) (page i : Nat) :
    (pmmMarkPageUsed p page).free i = (p.free i && decide (i ≠ page)) := by
  rcases eq_or_ne i page with rfl | other
  · simp only [pmmMarkPageUsed]
    split
    · next outside =>
      have used : ¬ p.free i = true := fun isFree => absurd (inside isFree) (by omega)
      simpa using used
    · split
      · simp [Pmm.markUsed]
      · next used => simpa using used
  · simp only [pmmMarkPageUsed]
    split
    · simp [other]
    · split
      · simp [Pmm.markUsed, other]
      · simp [other]

theorem markPagesUsed_ok {p : Pmm} (ok : p.Ok) (count page : Nat) : (markPagesUsed p page count).Ok := by
  induction count generalizing p page with
  | zero => exact ok
  | succ count ih => exact ih (pmmMarkPageUsed_ok ok page) (page + 1)

theorem markPagesUsed_free {p : Pmm} (inside : ∀ {i}, p.free i = true → i < p.totalPages) (count page i : Nat) :
    (markPagesUsed p page count).free i = (p.free i && !decide (page ≤ i ∧ i < page + count)) := by
  induction count generalizing p page with
  | zero =>
    have outside : ¬ (page ≤ i ∧ i < page + 0) := by omega
    rw [markPagesUsed, decide_eq_false outside]
    simp
  | succ count ih =>
    have inside' {i : Nat} (isFree : (pmmMarkPageUsed p page).free i = true) : i < (pmmMarkPageUsed p page).totalPages := by
      rw [pmmMarkPageUsed_free inside] at isFree
      rw [pmmMarkPageUsed_totalPages]
      exact inside (Bool.and_eq_true_iff.mp isFree).1
    rw [markPagesUsed, ih inside', pmmMarkPageUsed_free inside, Bool.and_assoc]
    congr 1
    by_cases first : i = page
    · simp [first]
    · by_cases later : page + 1 ≤ i ∧ i < page + 1 + count
      · rw [decide_eq_true later, decide_eq_true (show page ≤ i ∧ i < page + (count + 1) by omega)]
        simp
      · rw [decide_eq_false later, decide_eq_false (show ¬ (page ≤ i ∧ i < page + (count + 1)) by omega)]
        simp [first]

theorem Pmm.scan_free {p : Pmm} (n : Nat) {index : Nat} (found : p.scan n i = some index) :
    p.free index = true := by
  induction n generalizing i with
  | zero => cases found
  | succ n ih =>
    simp only [Pmm.scan] at found
    split at found
    · next isFree =>
      cases found
      exact isFree
    · exact ih found

theorem pmmAllocPage_some {p : Pmm} (allocated : pmmAllocPage p = (some f, p')) :
    p.free f = true ∧ f ≠ 0 ∧ p' = { p.markUsed f with searchStart := (f + 1) % p.totalPages } := by
  simp only [pmmAllocPage] at allocated
  split at allocated
  · cases allocated
  · next index found =>
    obtain ⟨same, rfl⟩ := Prod.mk.inj allocated
    split at same
    · cases same
    · next real =>
      cases same
      exact ⟨Pmm.scan_free _ found, real, rfl⟩

theorem pmmAllocPage_used {p : Pmm} {r : Option Nat} (allocated : pmmAllocPage p = (r, p'))
    (used : p.free f = false) : p'.free f = false := by
  simp only [pmmAllocPage] at allocated
  split at allocated
  · cases allocated
    exact used
  · next index _ =>
    cases allocated
    rcases eq_or_ne f index with rfl | other
    · simp [Pmm.markUsed]
    · simpa [Pmm.markUsed, other] using used

theorem pmmAllocPage_none {p : Pmm} (ok : p.Ok) (allocated : pmmAllocPage p = (none, p')) : p' = p := by
  simp only [pmmAllocPage] at allocated
  split at allocated
  · cases allocated
    rfl
  · next index found =>
    have isFree := Pmm.scan_free _ found
    have real : index ≠ 0 := by
      rintro rfl
      rw [ok.null] at isFree
      cases isFree
    simp [real] at allocated

theorem Pmm.Ok.alloc {p : Pmm} {f : Option Nat} (ok : p.Ok) (allocated : pmmAllocPage p = (f, p')) :
    p'.Ok := by
  cases f with
  | none =>
    rw [pmmAllocPage_none ok allocated]
    exact ok
  | some f =>
    obtain ⟨_, _, rfl⟩ := pmmAllocPage_some allocated
    exact ⟨(ok.markUsed f).null, (ok.markUsed f).inside, ok.small⟩

@[simp] theorem Pmm.markFree_totalPages (p : Pmm) (page : Nat) :
    (p.markFree page).totalPages = p.totalPages := rfl

theorem pmmAllocPage_totalPages (p : Pmm) : (pmmAllocPage p).2.totalPages = p.totalPages := by
  simp only [pmmAllocPage]
  split <;> rfl

/-! ## Frames taken and given back -/

/-- `p'` is `p` without the `frames`, which were free in it; the cursor does not count. -/
structure Took (p p' : Pmm) (frames : List Nat) : Prop where
  nodup : frames.Nodup
  free : ∀ f, p'.free f = (p.free f && !decide (f ∈ frames))
  were : ∀ f ∈ frames, p.free f = true
  total : p'.totalPages = p.totalPages
  count : p'.freePages + UInt32.ofNat frames.length = p.freePages

namespace Took

variable {p p' p'' : Pmm} {frames more : List Nat} {f : Nat}

theorem refl (p : Pmm) : Took p p [] :=
  ⟨nodup_nil, fun f => by simp, nofun, rfl, by simp⟩

theorem perm (took : Took p p' frames) (same : frames.Perm more) : Took p p' more where
  nodup := same.nodup_iff.mp took.nodup
  free f := by simp only [took.free, same.mem_iff]
  were f member := took.were f (same.mem_iff.mpr member)
  total := took.total
  count := by rw [← same.length_eq, took.count]

theorem mark (took : Took p p' frames) (isFree : p'.free f = true) : Took p (p'.markUsed f) (f :: frames) := by
  have here := took.free f
  rw [isFree] at here
  have both : p.free f = true ∧ f ∉ frames := by simpa using here.symm
  refine ⟨nodup_cons.mpr ⟨both.2, took.nodup⟩, fun g => ?_, fun g member => ?_, took.total, ?_⟩
  · rcases eq_or_ne g f with rfl | other
    · simp [Pmm.markUsed]
    · simp [Pmm.markUsed, other, took.free]
  · rcases mem_cons.mp member with rfl | old
    · exact both.1
    · exact took.were g old
  · rw [← took.count, length_cons, UInt32.ofNat_add]
    simp only [Pmm.markUsed]
    grind

theorem alloc (took : Took p p' frames) (allocated : pmmAllocPage p' = (some f, p'')) :
    Took p p'' (f :: frames) := by
  obtain ⟨isFree, _, rfl⟩ := pmmAllocPage_some allocated
  have marked := took.mark isFree
  exact ⟨marked.nodup, marked.free, marked.were, marked.total, marked.count⟩

theorem used (took : Took p p' frames) (member : f ∈ frames) : p'.free f = false := by
  rw [took.free]
  simp [member]

theorem give (took : Took p p' (f :: frames)) (ok : p.Ok) :
    pmmFreePage p' (4096 * f) = some (p'.markFree f) ∧ Took p (p'.markFree f) frames := by
  obtain ⟨notLater, nodup⟩ := nodup_cons.mp took.nodup
  have wasFree := took.were f mem_cons_self
  have real : ¬ p'.totalPages ≤ f := by
    rw [took.total]
    exact Nat.not_le.mpr (ok.inside wasFree)
  have isUsed := took.used mem_cons_self
  constructor
  · have index : 4096 * f / 4096 = f := by omega
    simp [pmmFreePage, index, real, isUsed]
  refine ⟨nodup, fun g => ?_, fun g member => took.were g (mem_cons_of_mem f member), took.total, ?_⟩
  · rcases eq_or_ne g f with rfl | other
    · simp [Pmm.markFree, wasFree, notLater]
    · simp [Pmm.markFree, other, took.free]
  · rw [← took.count, length_cons, UInt32.ofNat_add]
    simp only [Pmm.markFree]
    grind

theorem append (first : Took p p' frames) (second : Took p' p'' more) : Took p p'' (more ++ frames) where
  nodup := by
    refine nodup_append.mpr ⟨second.nodup, first.nodup, fun f late g early same => ?_⟩
    subst same
    have isFree := second.were f late
    rw [first.used early] at isFree
    cases isFree
  free f := by
    rw [second.free, first.free]
    by_cases late : f ∈ more <;> by_cases early : f ∈ frames <;> simp [late, early]
  were f member := by
    rcases mem_append.mp member with late | early
    · have isFree := second.were f late
      rw [first.free] at isFree
      exact (Bool.and_eq_true_iff.mp isFree).1
    · exact first.were f early
  total := second.total.trans first.total
  count := by
    rw [← first.count, ← second.count, length_append, UInt32.ofNat_add]
    ac_rfl

theorem of_free (used : p.free f = false) (ram : f < p.totalPages) :
    pmmFreePage p (4096 * f) = some (p.markFree f) ∧ Took (p.markFree f) p [f] := by
  have index : 4096 * f / 4096 = f := by omega
  have aligned : 4096 * f % 4096 = 0 := by omega
  refine ⟨?_, nodup_singleton f, fun g => ?_, fun g member => ?_, rfl, ?_⟩
  · simp [pmmFreePage, index, aligned, ram, used]
  · rcases eq_or_ne g f with rfl | other
    · simp [Pmm.markFree, used]
    · simp [Pmm.markFree, other]
  · rw [mem_singleton.mp member]
    simp [Pmm.markFree]
  · rfl

theorem all_back (took : Took p p' []) : p'.free = p.free ∧ p'.freePages = p.freePages := by
  refine ⟨funext fun f => by simpa using took.free f, ?_⟩
  simpa using took.count

end Took

/-! ## How many pages are free -/

def Pmm.freeSet (p : Pmm) : Finset Nat := (Finset.range p.totalPages).filter fun f => p.free f = true

/-- Their number.  It is not always `free_pages`, which counts a page of overlapping regions of
the memory map more than once. -/
def Pmm.freeCount (p : Pmm) : Nat := p.freeSet.card

theorem Pmm.mem_freeSet {p : Pmm} (inside : ∀ {i}, p.free i = true → i < p.totalPages) :
    f ∈ p.freeSet ↔ p.free f = true := by
  simp only [freeSet, Finset.mem_filter, Finset.mem_range, and_iff_right_iff_imp]
  exact inside

theorem Pmm.freeCount_eq_of_removed {p : Pmm} (inside : ∀ {i}, p.free i = true → i < p.totalPages)
    (inside' : ∀ {i}, p'.free i = true → i < p'.totalPages) (nodup : frames.Nodup) (removed : ∀ f, p'.free f = (p.free f && !decide (f ∈ frames))) (were : ∀ f ∈ frames, p.free f = true) :
    p'.freeCount + frames.length = p.freeCount := by
  have same : p'.freeSet = p.freeSet \ frames.toFinset := by
    ext f
    simp [Pmm.mem_freeSet inside, Pmm.mem_freeSet inside', removed]
  have subset : frames.toFinset ⊆ p.freeSet := fun f member =>
    (Pmm.mem_freeSet inside).mpr (were f (mem_toFinset.mp member))
  rw [freeCount, same, ← toFinset_card_of_nodup nodup]
  exact Finset.card_sdiff_add_card_eq_card subset

theorem Took.freeCount {p : Pmm} (took : Took p p' frames) (ok : p.Ok) (ok' : p'.Ok) :
    p'.freeCount + frames.length = p.freeCount :=
  Pmm.freeCount_eq_of_removed ok.inside ok'.inside took.nodup took.free took.were

theorem Pmm.scan_none {p : Pmm} {n : Nat} (missing : p.scan n i = none) {k : Nat} (lower : i ≤ k) (upper : k < i + n) :
    p.free ((p.searchStart + k) % p.totalPages) = false := by
  induction n generalizing i with
  | zero => omega
  | succ n ih =>
    simp only [Pmm.scan] at missing
    split at missing
    · cases missing
    · next isUsed =>
      rcases Nat.eq_or_lt_of_le lower with rfl | later
      · simpa using isUsed
      · exact ih missing later (by omega)

theorem Pmm.scan_ne_none {p : Pmm} (isFree : p.free f = true) (inside : f < p.totalPages) :
    p.scan p.totalPages 0 ≠ none := by
  intro missing
  have cursor := Nat.mod_lt p.searchStart (by omega : p.totalPages > 0)
  have position : p.searchStart + (f + (p.totalPages - p.searchStart % p.totalPages)) =
      f + p.totalPages * (p.searchStart / p.totalPages + 1) := by
    have := Nat.div_add_mod p.searchStart p.totalPages
    rw [Nat.mul_add]
    omega
  have passed := Pmm.scan_none missing (Nat.zero_le _)
    (Nat.lt_of_lt_of_eq (Nat.mod_lt (f + (p.totalPages - p.searchStart % p.totalPages)) (by omega)) (Nat.zero_add _).symm)
  rw [Nat.add_mod_mod, position, Nat.add_mul_mod_self_left, Nat.mod_eq_of_lt inside, isFree] at passed
  cases passed

theorem pmmAllocPage_isSome {p : Pmm} (ok : p.Ok) (available : 0 < p.freeCount) :
    ∃ f p', pmmAllocPage p = (some f, p') ∧ p'.freeCount + 1 = p.freeCount := by
  obtain ⟨f, member⟩ := Finset.card_pos.mp available
  have isFree := (Pmm.mem_freeSet ok.inside).mp member
  have inside := ok.inside isFree
  cases found : pmmAllocPage p with
  | mk r p' =>
    cases r with
    | some g =>
      have took : Took p p' [g] := (Took.refl p).alloc found
      exact ⟨g, p', rfl, took.freeCount ok (ok.alloc found)⟩
    | none =>
      refine absurd ?_ (Pmm.scan_ne_none isFree inside)
      simp only [pmmAllocPage] at found
      split at found
      · next missing => exact missing
      · next index found' =>
        have isFree := Pmm.scan_free _ found'
        have real : index ≠ 0 := by
          rintro rfl
          rw [ok.null] at isFree
          cases isFree
        simp [real] at found

theorem pmmAllocPage_exhausted {p : Pmm} (ok : p.Ok) (none : (pmmAllocPage p).1 = none) : p.freeCount = 0 := by
  by_contra left
  obtain ⟨f, _, found, _⟩ := pmmAllocPage_isSome ok (Nat.pos_of_ne_zero left)
  rw [found] at none
  cases none

end GinnOS.Memory
