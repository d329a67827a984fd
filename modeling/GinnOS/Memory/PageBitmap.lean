import GinnOS.Lib.Bitmap
import GinnOS.Lib.Run
import GinnOS.Memory.Pmm

/-! # The page bitmap as a set of free pages

The allocator of `pmm.c` on its own data: a bitmap with eight pages to a byte and 32-bit
counters.  `toPmm` reads it as the bitmap of `GinnOS.Memory.Pmm`, and every operation is the one there.
Over whole runs the allocator is a set of free pages (`page_bitmap_refines_set`): taking, giving back and
marking change the set, and the count is its size.
-/

namespace GinnOS.Memory

open Lib Lib.Buf List Function
open UInt32 (toNat_mod toNat_div toNat_inj lt_iff_toNat_lt)

variable {f : Nat} {free' : Set Nat} {ans : PageAns} {address : UInt32}

structure PageBitmap where
  bitmap : Buf
  totalPages : UInt32
  freePages : UInt32
  searchStart : UInt32

namespace PageBitmap

variable (p : PageBitmap)

/-- `bitmap_set` and `free_pages++`. -/
def bitmapSet (page : UInt32) : PageBitmap :=
  { p with
    bitmap := put8 p.bitmap (page.toNat / 8) (p.bitmap (page.toNat / 8) ||| mask page.toNat)
    freePages := p.freePages + 1 }

/-- `bitmap_clear` and `free_pages--`. -/
def bitmapClear (page : UInt32) : PageBitmap :=
  { p with
    bitmap := put8 p.bitmap (page.toNat / 8) (p.bitmap (page.toNat / 8) &&& ~~~mask page.toNat)
    freePages := p.freePages - 1 }

def bitmapTest (page : UInt32) : Bool := p.bitmap.bit page.toNat

/-- The loop of `pmm_alloc_page` at `i`, with `n` rounds left. -/
def scan : (n : Nat) → (i : UInt32) → Option UInt32
  | 0, _ => none
  | n + 1, i =>
    let index := (p.searchStart + i) % p.totalPages
    if p.bitmapTest index then some index else scan n (i + 1)

/-- `pmm_alloc_page`: an address, 0 for `NULL`. -/
def pmmAllocPage : UInt32 × PageBitmap :=
  match p.scan p.totalPages.toNat 0 with
  | none => (0, p)
  | some index => (index * 4096, { p.bitmapClear index with searchStart := (index + 1) % p.totalPages })

/-- `pmm_free_page`; `none` is a panic. -/
def pmmFreePage (address : UInt32) : Option PageBitmap :=
  let index := address / 4096
  if address % 4096 ≠ 0 then none
  else if p.totalPages ≤ index then none
  else if p.bitmapTest index then none
  else some (p.bitmapSet index)

def pmmMarkPageUsed (page : UInt32) : PageBitmap :=
  if p.totalPages ≤ page then p else if p.bitmapTest page then p.bitmapClear page else p

/-- The loop of `pmm_mark_region_used` at `page`, with `n` pages left to the end of the region. -/
def markFrom : PageBitmap → (n : Nat) → (page : UInt32) → PageBitmap
  | p, 0, _ => p
  | p, n + 1, page =>
    if page < p.totalPages then
      let p := if p.bitmapTest page then p.bitmapClear page else p
      markFrom p n (page + 1)
    else p

def pmmMarkRegionUsed (start stop : UInt32) : PageBitmap :=
  p.markFrom ((stop / 4096).toNat - (start / 4096).toNat) (start / 4096)

/-! ## The set bits -/

/-- The pages below `total_pages` whose bit is set. -/
def freeSet : Finset Nat := (Finset.range p.totalPages.toNat).filter fun i => p.bitmap.bit i = true

/-- The bitmap without what lies behind `total_pages`. -/
def toPmm : Pmm where
  free i := decide (i < p.totalPages.toNat) && p.bitmap.bit i
  totalPages := p.totalPages.toNat
  freePages := p.freePages
  searchStart := p.searchStart.toNat

/-- The count is right, and the null page is not free. -/
structure Counted (p : PageBitmap) : Prop where
  small : p.totalPages.toNat ≤ 1048576
  cursor : p.searchStart = 0 ∨ p.searchStart < p.totalPages
  count : p.freePages.toNat = p.freeSet.card
  null : 0 ∉ p.freeSet

end PageBitmap

variable {p p' : PageBitmap} {page : UInt32}

namespace PageBitmap

theorem freeSet_toPmm (p : PageBitmap) : p.toPmm.freeSet = p.freeSet := by
  ext f
  simp only [Pmm.freeSet, freeSet, toPmm, Finset.mem_filter, Finset.mem_range, Bool.and_eq_true, decide_eq_true_eq]
  exact ⟨fun known => ⟨known.1, known.2.2⟩, fun known => ⟨known.1, known.1, known.2⟩⟩

theorem toPmm_inside (p : PageBitmap) {i : Nat} (isFree : p.toPmm.free i = true) : i < p.toPmm.totalPages :=
  of_decide_eq_true (Bool.and_eq_true_iff.mp isFree).1

theorem mem_freeSet : f ∈ p.freeSet ↔ p.toPmm.free f = true := by
  rw [← freeSet_toPmm, Pmm.mem_freeSet p.toPmm_inside]

theorem free_toPmm (inside : page < p.totalPages) : p.toPmm.free page.toNat = p.bitmapTest page := by
  simp only [toPmm, bitmapTest, decide_eq_true (UInt32.lt_iff_toNat_lt.mp inside), Bool.true_and]

/-! ## Every operation is the one on pages -/

theorem bitmapClear_toPmm (p : PageBitmap) (page : UInt32) : (p.bitmapClear page).toPmm = p.toPmm.markUsed page.toNat := by
  simp only [toPmm, bitmapClear, Pmm.markUsed, Pmm.mk.injEq, and_true]
  funext i
  rw [bit_andMask, update_apply]
  split
  · exact Bool.and_false _
  · rfl

theorem bitmapSet_toPmm (inside : page < p.totalPages) : (p.bitmapSet page).toPmm = p.toPmm.markFree page.toNat := by
  simp only [toPmm, bitmapSet, Pmm.markFree, Pmm.mk.injEq, and_true]
  funext i
  rw [bit_orMask, update_apply]
  split
  · next here =>
    rw [here]
    exact (Bool.and_true _).trans (decide_eq_true (UInt32.lt_iff_toNat_lt.mp inside))
  · rfl

theorem toNat_next (small : p.totalPages.toNat ≤ 1048576) (inside : page < p.totalPages) : (page + 1).toNat = page.toNat + 1 := by
  have bound := UInt32.lt_iff_toNat_lt.mp inside
  rw [UInt32.toNat_add]
  exact Nat.mod_eq_of_lt (show page.toNat + 1 < 4294967296 by omega)

theorem scan_toPmm (counted : p.Counted) (n : Nat) {i : UInt32} (rest : i.toNat + n ≤ p.totalPages.toNat) :
    (p.scan n i).map UInt32.toNat = p.toPmm.scan n i.toNat := by
  induction n generalizing i with
  | zero => rfl
  | succ n ih =>
    have small := counted.small
    have cursor : p.searchStart.toNat ≤ p.totalPages.toNat := by
      rcases counted.cursor with zero | below
      · rw [zero]
        exact Nat.zero_le _
      · exact Nat.le_of_lt (UInt32.lt_iff_toNat_lt.mp below)
    have sum : (p.searchStart + i).toNat = p.searchStart.toNat + i.toNat := by
      rw [UInt32.toNat_add]
      exact Nat.mod_eq_of_lt (show p.searchStart.toNat + i.toNat < 4294967296 by omega)
    have index : ((p.searchStart + i) % p.totalPages).toNat = (p.searchStart.toNat + i.toNat) % p.totalPages.toNat := by
      rw [toNat_mod, sum]
    have inside : (p.searchStart + i) % p.totalPages < p.totalPages := by
      rw [lt_iff_toNat_lt, index]
      exact Nat.mod_lt _ (by omega)
    have next : (i + 1).toNat = i.toNat + 1 := toNat_next small (UInt32.lt_iff_toNat_lt.mpr (by omega))
    have tested := free_toPmm inside
    rw [index] at tested
    simp only [scan, Pmm.scan]
    rw [show p.toPmm.searchStart = p.searchStart.toNat from rfl, show p.toPmm.totalPages = p.totalPages.toNat from rfl, tested]
    split
    · rw [Option.map_some, index]
    · rw [ih (by omega), next]

theorem alloc_toPmm (counted : p.Counted) : GinnOS.Memory.pmmAllocPage p.toPmm =
    (if p.pmmAllocPage.1 = 0 then none else some (p.pmmAllocPage.1.toNat / 4096), p.pmmAllocPage.2.toPmm) := by
  have small := counted.small
  have scanned : (p.scan p.totalPages.toNat 0).map UInt32.toNat = p.toPmm.scan p.toPmm.totalPages 0 :=
    scan_toPmm counted p.totalPages.toNat (Nat.le_of_eq (Nat.zero_add _))
  cases found : p.scan p.totalPages.toNat 0 with
  | none =>
    rw [found] at scanned
    simp only [GinnOS.Memory.pmmAllocPage, pmmAllocPage, found, ← scanned]
    rfl
  | some index =>
    rw [found] at scanned
    have inside : index.toNat < p.totalPages.toNat := by
      exact p.toPmm_inside (Pmm.scan_free _ scanned.symm)
    have address : (index * 4096).toNat = 4096 * index.toNat := by
      rw [UInt32.toNat_mul, Nat.mul_comm]
      exact Nat.mod_eq_of_lt (show 4096 * index.toNat < 4294967296 by omega)
    have null : index * 4096 = 0 ↔ index.toNat = 0 := by
      rw [← toNat_inj, address]
      show 4096 * index.toNat = 0 ↔ _
      omega
    have next : ((index + 1) % p.totalPages).toNat = (index.toNat + 1) % p.toPmm.totalPages := by
      rw [toNat_mod, toNat_next small (UInt32.lt_iff_toNat_lt.mpr inside)]
      rfl
    have cleared := bitmapClear_toPmm p index
    simp only [GinnOS.Memory.pmmAllocPage, pmmAllocPage, found, ← scanned, Option.map_some, null, address, Prod.mk.injEq]
    refine ⟨?_, ?_⟩
    · rw [Nat.mul_div_cancel_left _ (by decide)]
    · rw [← cleared, ← next]
      rfl

theorem freePage_toPmm (p : PageBitmap) (address : UInt32) :
    (p.pmmFreePage address).map toPmm = GinnOS.Memory.pmmFreePage p.toPmm address.toNat := by
  have aligned : address % 4096 ≠ 0 ↔ address.toNat % 4096 ≠ 0 := by
    rw [Ne, ← toNat_inj, toNat_mod]
    rfl
  have index : (address / 4096).toNat = address.toNat / 4096 := toNat_div ..
  have range : p.totalPages ≤ address / 4096 ↔ p.toPmm.totalPages ≤ address.toNat / 4096 := by
    rw [UInt32.le_iff_toNat_le, index]
    rfl
  simp only [pmmFreePage, GinnOS.Memory.pmmFreePage, aligned, range]
  split
  · rfl
  · split
    · rfl
    · next inside =>
      have below : address / 4096 < p.totalPages := by
        rw [lt_iff_toNat_lt, index]
        exact Nat.lt_of_not_le inside
      have tested := free_toPmm below
      rw [index] at tested
      rw [tested, ← index, ← bitmapSet_toPmm below]
      split <;> rfl

theorem markPageUsed_toPmm (p : PageBitmap) (page : UInt32) :
    (p.pmmMarkPageUsed page).toPmm = GinnOS.Memory.pmmMarkPageUsed p.toPmm page.toNat := by
  have range : p.totalPages ≤ page ↔ p.toPmm.totalPages ≤ page.toNat := UInt32.le_iff_toNat_le
  simp only [pmmMarkPageUsed, GinnOS.Memory.pmmMarkPageUsed, range]
  split
  · rfl
  · next inside =>
    rw [free_toPmm (UInt32.lt_iff_toNat_lt.mpr (Nat.lt_of_not_le inside)), ← bitmapClear_toPmm]
    split <;> rfl

theorem pmmMarkPageUsed_counters (p : PageBitmap) (page : UInt32) :
    (p.pmmMarkPageUsed page).totalPages = p.totalPages ∧ (p.pmmMarkPageUsed page).searchStart = p.searchStart := by
  rw [pmmMarkPageUsed]
  split
  · exact ⟨rfl, rfl⟩
  · split <;> exact ⟨rfl, rfl⟩

theorem markFrom_counters (p : PageBitmap) (n : Nat) (page : UInt32) :
    (p.markFrom n page).totalPages = p.totalPages ∧ (p.markFrom n page).searchStart = p.searchStart := by
  induction n generalizing p page with
  | zero => exact ⟨rfl, rfl⟩
  | succ n ih =>
    simp only [markFrom]
    split
    · split
      · exact ih (p.bitmapClear page) (page + 1)
      · exact ih p (page + 1)
    · exact ⟨rfl, rfl⟩

theorem pmmAllocPage_totalPages (p : PageBitmap) : p.pmmAllocPage.2.totalPages = p.totalPages := by
  rw [pmmAllocPage]
  split <;> rfl

theorem pmmAllocPage_searchStart (cursor : p.searchStart = 0 ∨ p.searchStart < p.totalPages) :
    p.pmmAllocPage.2.searchStart = 0 ∨ p.pmmAllocPage.2.searchStart < p.totalPages := by
  rw [pmmAllocPage]
  split
  · exact cursor
  · next index found =>
    have some_page : 0 < p.totalPages := by
      rw [UInt32.pos_iff_ne_zero]
      intro zero
      rw [zero] at found
      cases found
    exact .inr (UInt32.mod_lt _ some_page)

theorem pmmAllocPage_aligned (p : PageBitmap) : p.pmmAllocPage.1.toNat % 4096 = 0 := by
  rw [pmmAllocPage]
  split
  · rfl
  · next index _ =>
    rw [UInt32.toNat_mul]
    show index.toNat * 4096 % 4294967296 % 4096 = 0
    omega

theorem markPagesUsed_outside {q : Pmm} (n : Nat) {first : Nat} (outside : q.totalPages ≤ first) :
    markPagesUsed q first n = q := by
  induction n generalizing first with
  | zero => rfl
  | succ n ih =>
    rw [markPagesUsed, GinnOS.Memory.pmmMarkPageUsed, if_pos outside]
    exact ih (by omega)

theorem markFrom_toPmm (small : p.totalPages.toNat ≤ 1048576) (n : Nat) (page : UInt32) :
    (p.markFrom n page).toPmm = markPagesUsed p.toPmm page.toNat n := by
  induction n generalizing p page with
  | zero => rfl
  | succ n ih =>
    rw [markFrom]
    split
    · next inside =>
      have marked : (if p.bitmapTest page then p.bitmapClear page else p) = p.pmmMarkPageUsed page := by
        rw [pmmMarkPageUsed, if_neg (UInt32.not_le.mpr inside)]
      simp only [marked]
      rw [ih (by rwa [(p.pmmMarkPageUsed_counters page).1]), markPageUsed_toPmm, markPagesUsed, toNat_next small inside]
    · next outside =>
      rw [markPagesUsed_outside]
      exact UInt32.le_iff_toNat_le.mp (UInt32.not_lt.mp outside)

theorem markRegionUsed_toPmm (small : p.totalPages.toNat ≤ 1048576) (start stop : UInt32) :
    (p.pmmMarkRegionUsed start stop).toPmm = GinnOS.Memory.pmmMarkRegionUsed p.toPmm start.toNat stop.toNat := by
  rw [pmmMarkRegionUsed, markFrom_toPmm small, GinnOS.Memory.pmmMarkRegionUsed, toNat_div, toNat_div]
  rfl

end PageBitmap

/-! ## The count -/

/-- The count is the number of free pages, and the null page is not one of them. -/
structure Pmm.Exact (q : Pmm) : Prop where
  null : q.free 0 = false
  inside : ∀ {i}, q.free i = true → i < q.totalPages
  small : q.totalPages ≤ 1048576
  count : q.freePages.toNat = q.freeCount

namespace Pmm.Exact

variable {q q' : Pmm} {f : Nat}

section

variable (exact : q.Exact)

include exact

theorem freeCount_le : q.freeCount ≤ 1048576 := by
  have fewer : q.freeCount ≤ q.totalPages := by
    refine (Finset.card_filter_le _ _).trans ?_
    rw [Finset.card_range]
  exact fewer.trans exact.small

theorem mem_freeSet : f ∈ q.freeSet ↔ q.free f = true := Pmm.mem_freeSet exact.inside

theorem markUsed (isFree : q.free f = true) :
    (q.markUsed f).Exact ∧ (q.markUsed f).freeSet = q.freeSet.erase f := by
  have inside {i : Nat} (stillFree : (q.markUsed f).free i = true) : i < q.totalPages := by
    simp only [Pmm.markUsed, update_apply] at stillFree
    split at stillFree
    · cases stillFree
    · exact exact.inside stillFree
  have set : (q.markUsed f).freeSet = q.freeSet.erase f := by
    ext g
    rw [Pmm.mem_freeSet (p := q.markUsed f) inside, Finset.mem_erase, exact.mem_freeSet]
    simp only [Pmm.markUsed, update_apply]
    split
    · next here => simp [here]
    · next other => simp [other]
  refine ⟨⟨?_, inside, exact.small, ?_⟩, set⟩
  · simp only [Pmm.markUsed, update_apply]
    split
    · rfl
    · exact exact.null
  · have member := exact.mem_freeSet.mpr isFree
    have positive : 1 ≤ q.freePages := by
      rw [UInt32.le_iff_toNat_le, exact.count]
      exact Finset.card_pos.mpr ⟨f, member⟩
    rw [Pmm.freeCount, set, Finset.card_erase_of_mem member]
    show (q.freePages - 1).toNat = _
    rw [UInt32.toNat_sub_of_le _ _ positive, exact.count]
    rfl

theorem markFree (isUsed : q.free f = false) (real : f ≠ 0) (below : f < q.totalPages) :
    (q.markFree f).Exact ∧ (q.markFree f).freeSet = insert f q.freeSet := by
  have inside {i : Nat} (isFree : (q.markFree f).free i = true) : i < q.totalPages := by
    simp only [Pmm.markFree, update_apply] at isFree
    split at isFree
    · next here => rwa [here]
    · exact exact.inside isFree
  have set : (q.markFree f).freeSet = insert f q.freeSet := by
    ext g
    rw [Pmm.mem_freeSet (p := q.markFree f) inside, Finset.mem_insert, exact.mem_freeSet]
    simp only [Pmm.markFree, update_apply]
    split
    · next here => simp [here]
    · next other => simp [other]
  refine ⟨⟨?_, inside, exact.small, ?_⟩, set⟩
  · simp only [Pmm.markFree, update_of_ne real.symm]
    exact exact.null
  · have absent : f ∉ q.freeSet := fun member => absurd (isUsed.symm.trans (exact.mem_freeSet.mp member)) (by simp)
    have bound := exact.freeCount_le
    rw [Pmm.freeCount, set, Finset.card_insert_of_notMem absent]
    show (q.freePages + 1).toNat = q.freeCount + 1
    rw [UInt32.toNat_add, exact.count]
    exact Nat.mod_eq_of_lt (show q.freeCount + 1 < 4294967296 by omega)

theorem cursor (searchStart : Nat) : ({ q with searchStart := searchStart } : Pmm).Exact :=
  ⟨exact.null, exact.inside, exact.small, exact.count⟩

theorem markPageUsed (page : Nat) :
    (pmmMarkPageUsed q page).Exact ∧ (pmmMarkPageUsed q page).freeSet = q.freeSet.erase page := by
  have same (isUsed : q.free page = false) : q.freeSet = q.freeSet.erase page := by
    refine (Finset.erase_eq_of_notMem fun member => ?_).symm
    rw [exact.mem_freeSet, isUsed] at member
    cases member
  rw [pmmMarkPageUsed]
  split
  · next outside =>
    refine ⟨exact, same (Bool.eq_false_iff.mpr fun isFree => ?_)⟩
    exact absurd (exact.inside isFree) (Nat.not_lt.mpr outside)
  · split
    · next isFree => exact exact.markUsed isFree
    · next isUsed => exact ⟨exact, same (Bool.eq_false_iff.mpr isUsed)⟩

theorem markPagesUsed (n page : Nat) : (markPagesUsed q page n).Exact ∧
    (GinnOS.Memory.markPagesUsed q page n).freeSet = q.freeSet.filter fun f => ¬ (page ≤ f ∧ f < page + n) := by
  induction n generalizing q page with
  | zero =>
    refine ⟨exact, (Finset.filter_true_of_mem fun f _ => ?_).symm⟩
    omega
  | succ n ih =>
    obtain ⟨marked, first⟩ := exact.markPageUsed page
    obtain ⟨done, rest⟩ := ih marked (page + 1)
    refine ⟨done, ?_⟩
    rw [GinnOS.Memory.markPagesUsed, rest, first]
    ext g
    simp only [Finset.mem_filter, Finset.mem_erase]
    constructor
    · rintro ⟨⟨other, member⟩, later⟩
      exact ⟨member, by omega⟩
    · rintro ⟨member, outside⟩
      exact ⟨⟨by omega, member⟩, by omega⟩

theorem alloc_some (allocated : pmmAllocPage q = (some f, q')) :
    q'.Exact ∧ f ∈ q.freeSet ∧ f ≠ 0 ∧ q'.freeSet = q.freeSet.erase f := by
  obtain ⟨isFree, real, rfl⟩ := pmmAllocPage_some allocated
  obtain ⟨marked, set⟩ := exact.markUsed isFree
  exact ⟨marked.cursor _, exact.mem_freeSet.mpr isFree, real, set⟩

/-- No page is handed out only if none is free. -/
theorem alloc_none (allocated : pmmAllocPage q = (none, q')) : q' = q ∧ q.freeSet = ∅ := by
  have missing : q.scan q.totalPages 0 = none := by
    cases found : q.scan q.totalPages 0 with
    | none => rfl
    | some index =>
      have real : index ≠ 0 := by
        rintro rfl
        exact absurd (exact.null.symm.trans (Pmm.scan_free _ found)) nofun
      simp only [pmmAllocPage, found, if_neg real] at allocated
      cases allocated
  refine ⟨?_, Finset.eq_empty_of_forall_notMem fun f member => ?_⟩
  · rw [pmmAllocPage, missing] at allocated
    exact (Prod.mk.inj allocated).2.symm
  · have isFree := exact.mem_freeSet.mp member
    exact Pmm.scan_ne_none isFree (exact.inside isFree) missing

end

end Pmm.Exact

namespace PageBitmap.Counted

theorem exact (counted : p.Counted) : p.toPmm.Exact where
  null := Bool.eq_false_iff.mpr fun isFree => counted.null (mem_freeSet.mpr isFree)
  inside := p.toPmm_inside
  small := counted.small
  count := by
    rw [Pmm.freeCount, freeSet_toPmm]
    exact counted.count

theorem of_exact (exact : p.toPmm.Exact) (cursor : p.searchStart = 0 ∨ p.searchStart < p.totalPages) : p.Counted where
  small := exact.small
  cursor := cursor
  count := by
    rw [← freeSet_toPmm]
    exact exact.count
  null member := absurd (exact.null.symm.trans (mem_freeSet.mp member)) nofun

end PageBitmap.Counted

/-! ## Runs -/

/-- The allocator, and the addresses that are handed out. -/
structure PageUse where
  pmm : PageBitmap
  out : List UInt32

inductive PageOp where
  | alloc
  | free (address : UInt32)
  | markPage (page : UInt32)
  | markRegion (start stop : UInt32)

inductive PageAns where
  | address (a : UInt32)
  | done
  | panicked
deriving DecidableEq

namespace PageUse

variable (s : PageUse)

def step : PageOp → PageAns × PageUse
  | .alloc =>
    let r := s.pmm.pmmAllocPage
    (.address r.1, ⟨r.2, if r.1 = 0 then s.out else r.1 :: s.out⟩)
  | .free address =>
    match s.pmm.pmmFreePage address with
    | none => (.panicked, s)
    | some pmm => (.done, ⟨pmm, s.out.erase address⟩)
  | .markPage page => (.done, { s with pmm := s.pmm.pmmMarkPageUsed page })
  | .markRegion start stop => (.done, { s with pmm := s.pmm.pmmMarkRegionUsed start stop })

/-- Only pages that are handed out are given back. -/
def MayFree : PageOp → Prop
  | .free address => address ∈ s.out
  | _ => True

/-- An address that can be handed out: of a page that is not free, and not the null page. -/
structure IsOut (p : PageBitmap) (address : UInt32) : Prop where
  aligned : address % 4096 = 0
  inside : address / 4096 < p.totalPages
  real : address ≠ 0
  used : p.bitmapTest (address / 4096) = false

/-- The count is right, and what is handed out is not free. -/
structure Ok (s : PageUse) : Prop where
  counted : s.pmm.Counted
  nodup : s.out.Nodup
  out : ∀ address ∈ s.out, IsOut s.pmm address

end PageUse

def pageAddress (f : Nat) : UInt32 := UInt32.ofNat (4096 * f)

/-- One request to an allocator that is a set of free pages. -/
inductive PageStep : Set Nat → PageOp → PageAns → Set Nat → Prop where
  | taken {free : Set Nat} {f : Nat} (was : f ∈ free) (real : 0 < f ∧ f < 1048576) :
      PageStep free .alloc (.address (pageAddress f)) (free \ {f})
  | empty : PageStep ∅ .alloc (.address 0) ∅
  | freed {free : Set Nat} {f : Nat} (was : f ∉ free) (real : 0 < f ∧ f < 1048576) :
      PageStep free (.free (pageAddress f)) .done (insert f free)
  | markPage {free : Set Nat} (page : UInt32) : PageStep free (.markPage page) .done (free \ {page.toNat})
  | markRegion {free : Set Nat} (start stop : UInt32) : PageStep free (.markRegion start stop) .done
      (free \ {f | start.toNat / 4096 ≤ f ∧ f < stop.toNat / 4096})

/-- The request takes the page out of the free ones. -/
def Takes (f : Nat) : PageOp × PageAns → Prop
  | (.alloc, ans) => ans = .address (pageAddress f)
  | (.free _, _) => False
  | (.markPage page, _) => page.toNat = f
  | (.markRegion start stop, _) => start.toNat / 4096 ≤ f ∧ f < stop.toNat / 4096

theorem toNat_pageAddress (small : f < 1048576) : (pageAddress f).toNat = 4096 * f := by
  rw [pageAddress, UInt32.toNat_ofNat']
  exact Nat.mod_eq_of_lt (show 4096 * f < 4294967296 by omega)

theorem pageAddress_inj {g : Nat} (smallF : f < 1048576) (smallG : g < 1048576) (same : pageAddress f = pageAddress g) : f = g := by
  have := congrArg UInt32.toNat same
  rw [toNat_pageAddress smallF, toNat_pageAddress smallG] at this
  omega

theorem pageAddress_ne_zero (real : 0 < f ∧ f < 1048576) : pageAddress f ≠ 0 := by
  intro null
  have address := toNat_pageAddress real.2
  rw [null] at address
  exact absurd address (by show ¬ 0 = 4096 * f; omega)

theorem PageStep.alloc_cases {free : Set Nat} (stepped : PageStep free .alloc ans free') :
    (ans = .address 0 ∧ free = ∅) ∨
      ∃ f ∈ free, (0 < f ∧ f < 1048576) ∧ ans = .address (pageAddress f) ∧ free' = free \ {f} := by
  cases stepped with
  | taken was real => exact .inr ⟨_, was, real, rfl, rfl⟩
  | empty => exact .inl ⟨rfl, rfl⟩

/-- A page that is not free stays so until it is given back. -/
theorem PageStep.stays_taken {free : Set Nat} {trace : List (PageOp × PageAns)}
    (run : SpecRun PageStep free trace free') (held : f ∉ free) (kept : ∀ ans, (PageOp.free (pageAddress f), ans) ∉ trace) :
    f ∉ free' := by
  induction run with
  | nil => exact held
  | cons stepped rest ih =>
    refine ih ?_ fun ans member => kept ans (mem_cons_of_mem _ member)
    cases stepped with
    | taken | markPage | markRegion => exact fun member => held member.1
    | empty => exact held
    | freed =>
      rintro (same | member)
      · subst same
        exact kept _ mem_cons_self
      · exact held member

theorem PageStep.given_between {free : Set Nat} {before between after : List (PageOp × PageAns)}
    {request : PageOp × PageAns} (takes : Takes f request) (real : 0 < f ∧ f < 1048576)
    (run : SpecRun PageStep free (before ++ request :: (between ++ (.alloc, .address (pageAddress f)) :: after)) free') :
    ∃ ans, (PageOp.free (pageAddress f), ans) ∈ between := by
  by_contra never
  have notNull := pageAddress_ne_zero real
  obtain ⟨_, _, run⟩ := run.split before
  cases run with
  | cons stepped run =>
    obtain ⟨free₂, middle, run⟩ := run.split between
    have gone : f ∉ free₂ := by
      refine PageStep.stays_taken middle ?_ fun ans member => never ⟨ans, member⟩
      cases stepped with
      | taken was real' =>
        have same := pageAddress_inj real'.2 real.2 (PageAns.address.inj takes)
        exact fun member => member.2 same.symm
      | empty => exact absurd (PageAns.address.inj takes).symm notNull
      | freed => exact takes.elim
      | markPage page => exact fun member => member.2 takes.symm
      | markRegion start stop => exact fun member => member.2 takes
    cases run with
    | cons again _ =>
      generalize isAddress : PageAns.address (pageAddress f) = ans at again
      cases again with
      | taken was real' =>
        have same := pageAddress_inj real.2 real'.2 (PageAns.address.inj isAddress)
        exact gone (same ▸ was)
      | empty => exact notNull (PageAns.address.inj isAddress)

namespace PageUse

variable {s s' : PageUse}

def free (s : PageUse) : Set Nat := { f | f ∈ s.pmm.freeSet }

theorem IsOut.not_free (isOut : IsOut p address) : address.toNat / 4096 ∉ p.freeSet := fun member => by
  have tested := PageBitmap.free_toPmm isOut.inside
  rw [toNat_div, isOut.used] at tested
  exact absurd (tested.symm.trans (PageBitmap.mem_freeSet.mp member)) nofun

theorem IsOut.of_page (aligned : address.toNat % 4096 = 0) (below : address.toNat / 4096 < p.totalPages.toNat)
    (real : address ≠ 0) (notFree : address.toNat / 4096 ∉ p.freeSet) : IsOut p address := by
  have inside : address / 4096 < p.totalPages := by
    rw [lt_iff_toNat_lt, toNat_div]
    exact below
  refine ⟨?_, inside, real, Bool.eq_false_iff.mpr fun isFree => notFree (PageBitmap.mem_freeSet.mpr ?_)⟩
  · rw [← toNat_inj, toNat_mod]
    exact aligned
  · have tested := PageBitmap.free_toPmm inside
    rwa [isFree, toNat_div] at tested

theorem IsOut.aligned_toNat (isOut : IsOut p address) : address.toNat % 4096 = 0 := by
  have := congrArg UInt32.toNat isOut.aligned
  rwa [toNat_mod] at this

theorem IsOut.below (isOut : IsOut p address) : address.toNat / 4096 < p.totalPages.toNat := by
  have := UInt32.lt_iff_toNat_lt.mp isOut.inside
  rwa [toNat_div] at this

/-- Nothing but the number of pages and the free ones matters. -/
theorem IsOut.of_not_free (isOut : IsOut p address) (total : p'.totalPages = p.totalPages)
    (notFree : address.toNat / 4096 ∉ p'.freeSet) : IsOut p' address :=
  .of_page isOut.aligned_toNat (total ▸ isOut.below) isOut.real notFree

theorem Ok.fewer {q : PageBitmap} (ok : s.Ok) (counted : q.Counted) (total : q.totalPages = s.pmm.totalPages)
    (fewer : q.freeSet ⊆ s.pmm.freeSet) : Ok ⟨q, s.out⟩ :=
  ⟨counted, ok.nodup, fun address member =>
    (ok.out address member).of_not_free total fun isFree => (ok.out address member).not_free (fewer isFree)⟩

/-- Some free pages are free no more. -/
theorem Ok.marked {q : PageBitmap} (ok : s.Ok) (gone : Set Nat) (exact : q.toPmm.Exact)
    (counters : q.totalPages = s.pmm.totalPages ∧ q.searchStart = s.pmm.searchStart)
    (set : ∀ f, f ∈ q.toPmm.freeSet ↔ f ∈ s.pmm.toPmm.freeSet ∧ f ∉ gone) :
    Ok ⟨q, s.out⟩ ∧ free ⟨q, s.out⟩ = s.free \ gone := by
  rw [PageBitmap.freeSet_toPmm, PageBitmap.freeSet_toPmm] at set
  refine ⟨ok.fewer (.of_exact exact ?_) counters.1 fun f member => ((set f).mp member).1, Set.ext set⟩
  rw [counters.1, counters.2]
  exact ok.counted.cursor

theorem Ok.markPage (ok : s.Ok) (page : UInt32) : Ok { s with pmm := s.pmm.pmmMarkPageUsed page } ∧
    PageStep s.free (.markPage page) .done (free { s with pmm := s.pmm.pmmMarkPageUsed page }) := by
  obtain ⟨exact, set⟩ := ok.counted.exact.markPageUsed page.toNat
  rw [← PageBitmap.markPageUsed_toPmm] at exact set
  obtain ⟨ok', left⟩ := ok.marked {page.toNat} exact (s.pmm.pmmMarkPageUsed_counters page) fun f => by
    rw [set, Finset.mem_erase, and_comm, Set.mem_singleton_iff]
  exact ⟨ok', left ▸ .markPage page⟩

theorem Ok.markRegion (ok : s.Ok) (start stop : UInt32) : Ok { s with pmm := s.pmm.pmmMarkRegionUsed start stop } ∧
    PageStep s.free (.markRegion start stop) .done (free { s with pmm := s.pmm.pmmMarkRegionUsed start stop }) := by
  obtain ⟨exact, set⟩ := ok.counted.exact.markPagesUsed (stop.toNat / 4096 - start.toNat / 4096) (start.toNat / 4096)
  rw [← pmmMarkRegionUsed, ← PageBitmap.markRegionUsed_toPmm ok.counted.small] at exact set
  obtain ⟨ok', left⟩ := ok.marked {f | start.toNat / 4096 ≤ f ∧ f < stop.toNat / 4096} exact
    (s.pmm.markFrom_counters _ _) fun f => by
      rw [set, Finset.mem_filter]
      refine and_congr_right fun _ => not_congr ?_
      show _ ↔ start.toNat / 4096 ≤ f ∧ f < stop.toNat / 4096
      omega
  exact ⟨ok', left ▸ .markRegion start stop⟩

theorem Ok.alloc (ok : s.Ok) : Ok (s.step .alloc).2 ∧ PageStep s.free .alloc (s.step .alloc).1 (s.step .alloc).2.free := by
  have allocated := PageBitmap.alloc_toPmm ok.counted
  have total := s.pmm.pmmAllocPage_totalPages
  have cursor := PageBitmap.pmmAllocPage_searchStart ok.counted.cursor
  have aligned := s.pmm.pmmAllocPage_aligned
  rw [← total] at cursor
  simp only [PageUse.step]
  generalize s.pmm.pmmAllocPage = r at allocated total cursor aligned ⊢
  obtain ⟨a, q⟩ := r
  dsimp only at allocated total cursor aligned ⊢
  by_cases null : a = 0
  · subst null
    rw [if_pos rfl] at allocated ⊢
    obtain ⟨same, nothing⟩ := ok.counted.exact.alloc_none allocated
    rw [PageBitmap.freeSet_toPmm] at nothing
    have nothing' : q.freeSet = ∅ := by rw [← PageBitmap.freeSet_toPmm, same, PageBitmap.freeSet_toPmm, nothing]
    have before : s.free = ∅ := by simp [free, nothing]
    have after : free ⟨q, s.out⟩ = ∅ := by simp [free, nothing']
    refine ⟨ok.fewer (.of_exact (same ▸ ok.counted.exact) cursor) total (by simp [nothing']), ?_⟩
    rw [before, after]
    exact .empty
  · rw [if_neg null] at allocated ⊢
    obtain ⟨exact, was, real, set⟩ := ok.counted.exact.alloc_some allocated
    rw [PageBitmap.freeSet_toPmm] at was
    rw [PageBitmap.freeSet_toPmm, PageBitmap.freeSet_toPmm] at set
    have inside := s.pmm.toPmm_inside (PageBitmap.mem_freeSet.mp was)
    have small : a.toNat / 4096 < 1048576 := Nat.lt_of_lt_of_le inside ok.counted.small
    have address : a = pageAddress (a.toNat / 4096) := by
      rw [← toNat_inj, toNat_pageAddress small]
      omega
    have counted : q.Counted := .of_exact exact cursor
    have fewer := ok.fewer counted total (set ▸ Finset.erase_subset _ _)
    have notFree : a.toNat / 4096 ∉ q.freeSet := set ▸ Finset.notMem_erase _ _
    refine ⟨⟨counted, nodup_cons.mpr ⟨fun member => (ok.out a member).not_free was, ok.nodup⟩, ?_⟩, ?_⟩
    · intro b member
      rcases mem_cons.mp member with rfl | old
      · exact .of_page aligned (total ▸ inside) null notFree
      · exact fewer.out b old
    · have sets : free ⟨q, a :: s.out⟩ = s.free \ {a.toNat / 4096} := by
        ext f
        simp only [free, set, Finset.mem_erase, Set.mem_setOf_eq, Set.mem_diff, Set.mem_singleton_iff, and_comm]
      rw [sets]
      nth_rewrite 1 [address]
      exact .taken was ⟨Nat.pos_of_ne_zero real, small⟩

theorem Ok.free (ok : s.Ok) (isOut : address ∈ s.out) :
    Ok (s.step (.free address)).2 ∧ PageStep s.free (.free address) (s.step (.free address)).1 (s.step (.free address)).2.free := by
  have known := ok.out address isOut
  have aligned := known.aligned_toNat
  have below := known.below
  have freed : s.pmm.pmmFreePage address = some (s.pmm.bitmapSet (address / 4096)) := by
    simp only [PageBitmap.pmmFreePage, known.aligned, ne_eq, not_true_eq_false, if_false,
      if_neg (UInt32.not_le.mpr known.inside), known.used, Bool.false_eq_true]
  have small : address.toNat / 4096 < 1048576 := Nat.lt_of_lt_of_le below ok.counted.small
  have isPage : address = pageAddress (address.toNat / 4096) := by
    rw [← toNat_inj, toNat_pageAddress small]
    omega
  have real : address.toNat / 4096 ≠ 0 := fun zero => known.real (by
    rw [← toNat_inj]
    show address.toNat = 0
    omega)
  have notFree := known.not_free
  have set := ok.counted.exact.markFree (f := address.toNat / 4096)
    (Bool.eq_false_iff.mpr fun isFree => notFree (PageBitmap.mem_freeSet.mpr isFree)) real below
  rw [← show (address / 4096).toNat = address.toNat / 4096 from toNat_div .., ← PageBitmap.bitmapSet_toPmm known.inside,
    PageBitmap.freeSet_toPmm, PageBitmap.freeSet_toPmm, toNat_div] at set
  obtain ⟨exact, set⟩ := set
  simp only [PageUse.step, freed]
  refine ⟨⟨.of_exact exact ok.counted.cursor, ok.nodup.erase _, fun b member => ?_⟩, ?_⟩
  · obtain ⟨other, old⟩ := (Nodup.mem_erase_iff ok.nodup).mp member
    have knownOld := ok.out b old
    have alignedOld := knownOld.aligned_toNat
    refine knownOld.of_not_free rfl fun isFree => ?_
    rw [set] at isFree
    rcases Finset.mem_insert.mp isFree with same | isFree
    · exact other (UInt32.toNat_inj.mp (show b.toNat = address.toNat by
        have : b.toNat / 4096 = address.toNat / 4096 := same
        omega))
    · exact knownOld.not_free isFree
  · have sets : PageUse.free ⟨s.pmm.bitmapSet (address / 4096), s.out.erase address⟩ =
        insert (address.toNat / 4096) s.free := by
      ext f
      simp only [PageUse.free, set, Set.mem_setOf_eq, Set.mem_insert_iff]
      exact Finset.mem_insert
    rw [sets]
    nth_rewrite 1 [isPage]
    exact .freed notFree ⟨Nat.pos_of_ne_zero real, small⟩

theorem Ok.step {op : PageOp} (ok : s.Ok) (may : s.MayFree op) (stepped : s.step op = (ans, s')) :
    s'.Ok ∧ PageStep s.free op ans s'.free := by
  obtain ⟨rfl, rfl⟩ : (s.step op).1 = ans ∧ (s.step op).2 = s' := by
    rw [stepped]
    exact ⟨rfl, rfl⟩
  cases op with
  | alloc => exact ok.alloc
  | free address => exact ok.free may
  | markPage page => exact ok.markPage page
  | markRegion start stop => exact ok.markRegion start stop

theorem Ok.alloc_null_iff (ok : s.Ok) : s.pmm.pmmAllocPage.1 = 0 ↔ s.pmm.freeSet = ∅ := by
  have nothing : s.free = ∅ ↔ s.pmm.freeSet = ∅ := by
    simp only [PageUse.free, Set.eq_empty_iff_forall_notMem, Set.mem_setOf_eq, Finset.eq_empty_iff_forall_notMem]
  rw [← nothing]
  rcases ok.alloc.2.alloc_cases with ⟨null, empty⟩ | ⟨f, was, real, address, _⟩
  · exact iff_of_true (PageAns.address.inj null) empty
  · refine iff_of_false (fun null => pageAddress_ne_zero real ?_) fun empty => ?_
    · exact (PageAns.address.inj address).symm.trans null
    · rw [empty] at was
      exact was

theorem Ok.cursor (ok : s.Ok) {cursor : UInt32} (below : cursor = 0 ∨ cursor < s.pmm.totalPages) :
    Ok { s with pmm := { s.pmm with searchStart := cursor } } :=
  ⟨⟨ok.counted.small, below, ok.counted.count, ok.counted.null⟩, ok.nodup, fun a member =>
    (ok.out a member).of_not_free rfl (ok.out a member).not_free⟩

theorem Ok.finds (ok : s.Ok) (isFree : f ∈ s.free) :
    ∃ n, (PageOp.alloc, PageAns.address (pageAddress f)) ∈ (execute PageUse.step s (replicate n .alloc)).1 := by
  -- one page less is free after every round
  induction rounds : s.pmm.freeSet.card generalizing s with
  | zero =>
    rw [Finset.card_eq_zero] at rounds
    have member : f ∈ s.pmm.freeSet := isFree
    rw [rounds] at member
    exact absurd member (Finset.notMem_empty f)
  | succ n ih =>
    obtain ⟨ok', stepped⟩ := ok.alloc
    rcases stepped.alloc_cases with ⟨_, empty⟩ | ⟨g, was, real, address, left⟩
    · rw [empty] at isFree
      exact isFree.elim
    · by_cases here : f = g
      · refine ⟨1, ?_⟩
        show _ ∈ [(PageOp.alloc, (s.step .alloc).1)]
        rw [address, here]
        exact mem_singleton.mpr rfl
      · have fewer : (s.step .alloc).2.pmm.freeSet = s.pmm.freeSet.erase g := by
          ext h
          have same : h ∈ (s.step .alloc).2.free ↔ h ∈ s.free \ {g} := by rw [left]
          rw [Finset.mem_erase, and_comm]
          exact same
        have count : (s.step .alloc).2.pmm.freeSet.card = n := by
          rw [fewer, Finset.card_erase_of_mem was, rounds, Nat.add_sub_cancel]
        obtain ⟨m, found⟩ := ih ok' (left ▸ ⟨isFree, here⟩) count
        exact ⟨m + 1, mem_cons_of_mem _ found⟩

end PageUse

/-- Refinement to a set of free pages.  Any sequence of allocations, marks and releases of pages
that are handed out keeps the count and answers as the set of free pages does: `NULL` is returned
only when the set is empty, page 0 never, and a page that was handed out or marked only after it
was given back.  Wherever the cursor stands, every free page is found. -/
theorem page_bitmap_refines_set {s s' : PageUse} {trace : List (PageOp × PageAns)} (ok : s.Ok)
    (run : Run PageUse.step PageUse.MayFree s trace s') :
    s'.Ok ∧ SpecRun PageStep s.free trace s'.free ∧
      (∀ f before request between after, 0 < f ∧ f < 1048576 → Takes f request →
        trace = before ++ request :: (between ++ (.alloc, .address (pageAddress f)) :: after) →
        ∃ ans, (.free (pageAddress f), ans) ∈ between) ∧
      ∀ cursor, cursor = 0 ∨ cursor < s'.pmm.totalPages →
        (({ s'.pmm with searchStart := cursor } : PageBitmap).pmmAllocPage.1 = 0 ↔ s'.free = ∅) ∧
        ∀ f ∈ s'.free, ∃ n, (PageOp.alloc, PageAns.address (pageAddress f)) ∈
          (execute PageUse.step { s' with pmm := { s'.pmm with searchStart := cursor } } (List.replicate n .alloc)).1 := by
  obtain ⟨final, spec⟩ := run.simulates PageUse.free (I := PageUse.Ok) (R := PageStep)
    (fun known may stepped => known.step may stepped) ok
  refine ⟨final, spec, ?_, fun cursor below => ⟨?_, fun f isFree => (final.cursor below).finds isFree⟩⟩
  · rintro f before request between after real takes rfl
    exact PageStep.given_between takes real spec
  · rw [(final.cursor below).alloc_null_iff]
    simp only [PageUse.free, Set.eq_empty_iff_forall_notMem, Set.mem_setOf_eq, Finset.eq_empty_iff_forall_notMem]
    rfl

instance (s : PageUse) (op : PageOp) : Decidable (s.MayFree op) := by
  cases op <;> dsimp only [PageUse.MayFree] <;> infer_instance

/-- Twenty pages, of which 1, 2 and 8 are free, and a cursor behind them. -/
def threeFree : PageUse := ⟨⟨ofList [0x06, 0x01], 20, 3, 9⟩, []⟩

/-- The scan wraps around, a mark takes a page, and a page that was given back is found again. -/
def mixedRequests : List PageOp :=
  [.alloc, .markPage 2, .alloc, .alloc, .free 4096, .markRegion 0x2000 0x5000, .alloc]

theorem page_bitmap_refines_set_sample :
    (execute PageUse.step threeFree mixedRequests).1.map Prod.snd =
      [.address 0x1000, .done, .address 0x8000, .address 0, .done, .done, .address 0x1000] ∧
    (execute PageUse.step threeFree mixedRequests).2.pmm.Counted := by
  have ok : threeFree.Ok :=
    ⟨⟨by decide, by decide, by decide +kernel, by decide +kernel⟩, nodup_nil, fun _ member => nomatch member⟩
  have allowed : AllAllowed PageUse.step PageUse.MayFree threeFree mixedRequests := by decide +kernel
  exact ⟨by decide +kernel, (page_bitmap_refines_set ok (Run.of_execute _ allowed)).1.counted⟩

end GinnOS.Memory
