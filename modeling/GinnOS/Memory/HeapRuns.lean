import GinnOS.Lib.Ints
import GinnOS.Memory.HeapTiling

/-! # Runs of the kernel heap

Every call keeps the region tiled by its block list, keeps the pages of the region out of
the PMM, and makes the used blocks exactly the live allocations.  The one exception is
`kcalloc` of a size that `align4` wraps to zero: it clears memory behind its block.

From what a call does to the blocks in use follow the room of a block that is handed out, the bytes that `krealloc` keeps, and which
free blocks lie side by side.
-/

namespace GinnOS.Memory

open Lib Lib.Buf Lib.Header List

variable {rs rs' rs'' before after : List Lib.Block} {r : Lib.Block} {h h' h'' : Heap} {ptr i a n m start newSize : Nat} {stats : HeapStats}
  {live : List Nat} {mem mem' : Buf} {gone middle fresh : List (Nat × Lib.Block)} {x y : Nat × Lib.Block} {apart apart' : Prop}

/-! ## The invariant -/

def EndsWithData (rs : List Lib.Block) : Prop := ∃ l, rs.getLast? = some l ∧ 0 < l.size

theorem EndsWithData.exchange (old ms : List Lib.Block) (ends : EndsWithData (before ++ (old ++ after))) (some : old ≠ [])
    (last : EndsWithData old → EndsWithData ms) : EndsWithData (before ++ (ms ++ after)) := by
  obtain ⟨l, isLast, data⟩ := ends
  cases after with
  | nil =>
    rw [append_nil, getLast?_append_of_ne_nil _ some] at isLast
    obtain ⟨l', isLast', data'⟩ := last ⟨l, isLast, data⟩
    exact ⟨l', by simp [isLast'], data'⟩
  | cons x after =>
    refine ⟨l, ?_, data⟩
    rw [← isLast]
    simp [getLast?_append, getLast?_cons]

theorem endsWithData_singleton : EndsWithData [r] ↔ 0 < r.size := by simp [EndsWithData]

theorem EndsWithData.cut (ends : 0 < r.size) (fits : a ≤ r.size) (use : Option Nat) : EndsWithData (blockHeader.cut 16 r a use) := by
  obtain ⟨size, rest, isCut, _, _, ⟨rfl, rfl⟩ | ⟨x, rfl, _, large, _⟩⟩ := blockHeader.cut_cases 16 use fits
  · rw [isCut]
    exact ⟨_, rfl, ends⟩
  · rw [isCut]
    exact ⟨x, rfl, by omega⟩

/-- The heap's region is tiled by `rs`, and its pages are not the PMM's to give. -/
structure HeapOk (h : Heap) (rs : List Lib.Block) : Prop where
  head : h.head = h.start
  low : 0 < h.start
  top : h.stop ≤ 4294963200
  startPage : h.start % 4096 = 0
  stopPage : h.stop % 4096 = 0
  chain : blockHeader.Chain h.mem h.stop h.start h.stop rs
  last : EndsWithData rs
  used : ∀ page, h.start ≤ 4096 * page → 4096 * page < h.stop → h.pmm.free page = false
  pmm : h.pmm.Ok

/-- What a call may do outside the heap: the region grows over free pages, and memory outside
the region is left alone. -/
structure Grown (h h' : Heap) : Prop where
  start : h'.start = h.start
  stop : h.stop ≤ h'.stop
  mem : ∀ k, k < h.start ∨ h'.stop ≤ k → h'.mem k = h.mem k
  free : ∀ f, h'.pmm.free f = (h.pmm.free f && !decide (h.stop ≤ 4096 * f ∧ 4096 * f < h'.stop))
  taken : ∀ f, h.stop ≤ 4096 * f → 4096 * f < h'.stop → h.pmm.free f = true
  total : h'.pmm.totalPages = h.pmm.totalPages

/-- What a call does: the blocks `gone` were in use and the blocks `fresh` are; free blocks stay apart under a condition. -/
structure Result (h : Heap) (rs : List Lib.Block) (gone fresh : List (Nat × Lib.Block)) (apart : Prop) (h' : Heap)
    (rs' : List Lib.Block) : Prop where
  ok : HeapOk h' rs'
  grown : Grown h h'
  change : blockHeader.Change h.start rs h.mem h.start rs' h'.mem gone fresh
  merged : apart → Merged rs → Merged rs'

/-- An allocating call: nothing was handed out, or a fresh block with room for `size` bytes. -/
structure Granted (h : Heap) (rs : List Lib.Block) (size n ptr : Nat) (h' : Heap) (rs' : List Lib.Block)
    (fresh : List (Nat × Lib.Block)) : Prop extends Result h rs [] fresh True h' rs' where
  hands : blockHeader.Hands ptr size n fresh
  stats : h'.stats = fresh.foldl (fun stats at_ => statsAlloc stats at_.2.size) h.stats

/-- Nothing has changed that matters: the PMM may look for pages elsewhere. -/
structure Unchanged (h h' : Heap) : Prop where
  same : h' = { h with pmm := h'.pmm }
  free : h'.pmm.free = h.pmm.free
  count : h'.pmm.freePages = h.pmm.freePages

theorem Grown.refl (h : Heap) : Grown h h where
  start := rfl
  stop := Nat.le_refl _
  mem _ _ := rfl
  free f := by
    have none : ¬ (h.stop ≤ 4096 * f ∧ 4096 * f < h.stop) := by omega
    simp [none]
  taken f lower upper := absurd upper (by omega)
  total := rfl

theorem Grown.trans (first : Grown h h') (second : Grown h' h'') : Grown h h'' where
  start := second.start.trans first.start
  stop := first.stop.trans second.stop
  mem k outside := by
    have := second.stop
    rw [second.mem k (by rw [first.start]; omega), first.mem k (by omega)]
  free f := by
    have lower := first.stop
    have upper := second.stop
    rw [second.free, first.free, Bool.and_assoc]
    congr 1
    by_cases old : 4096 * f < h'.stop
    · simp [show ¬ h'.stop ≤ 4096 * f by omega, old, show 4096 * f < h''.stop by omega]
    · simp [show h'.stop ≤ 4096 * f by omega, old, show h.stop ≤ 4096 * f by omega]
  taken f lower upper := by
    by_cases old : 4096 * f < h'.stop
    · exact first.taken f lower old
    · have free := second.taken f (by omega) upper
      rw [first.free f] at free
      exact (Bool.and_eq_true_iff.mp free).1
  total := second.total.trans first.total

theorem Grown.edit (same : ∀ k, k < h.start ∨ h.stop ≤ k → mem k = h.mem k) :
    Grown h { h with mem := mem, stats := stats } :=
  { Grown.refl h with mem := same }

theorem Result.refl (ok : HeapOk h rs) : Result h rs [] [] apart h rs := ⟨ok, .refl h, .refl .., fun _ => id⟩

theorem Result.weaken (result : Result h rs gone fresh apart h' rs') (enough : apart' → apart) : Result h rs gone fresh apart' h' rs' :=
  { result with merged := fun holds => result.merged (enough holds) }

theorem Result.trans (first : Result h rs gone middle apart h' rs') (second : Result h' rs' middle fresh apart' h'' rs'')
    (merged : apart → Merged rs → Merged rs'') : Result h rs gone fresh apart h'' rs'' :=
  ⟨second.ok, first.grown.trans second.grown, first.change.trans (first.grown.start ▸ second.change), merged⟩

theorem Granted.refl (ok : HeapOk h rs) (size n : Nat) : Granted h rs size n 0 h rs [] := ⟨.refl ok, .inl ⟨rfl, rfl⟩, rfl⟩

/-- Some blocks in a row are replaced by others, and memory changes between them only. -/
theorem HeapOk.edit (old ms : List Lib.Block) (ok : HeapOk h (before ++ (old ++ after)))
    (chain : blockHeader.Chain mem h.stop h.start h.stop (before ++ (ms ++ after))) (some : old ≠ [])
    (last : EndsWithData old → EndsWithData ms)
    (was : blockHeader.inUse (h.start + span blockHeader.len before) old = gone)
    (is : blockHeader.inUse (h.start + span blockHeader.len before) ms = fresh)
    (within : Within (h.start + span blockHeader.len before) (h.start + span blockHeader.len before + span blockHeader.len old) h.mem mem)
    (merged : apart → Merged (before ++ (old ++ after)) → Merged (before ++ (ms ++ after))) :
    Result h (before ++ (old ++ after)) gone fresh apart { h with mem := mem, stats := stats } (before ++ (ms ++ after)) := by
  have ends := ok.chain.end_eq
  have ends' := chain.end_eq
  simp only [span_append] at ends ends'
  refine ⟨{ ok with chain := chain, last := ok.last.exchange old ms some last }, .edit fun k outside => within k (by omega), ?_, merged⟩
  exact .of_edit old ms (by omega) was is within

theorem HeapOk.allocate (ok : HeapOk h (before ++ r :: after)) (isFree : r.use = none) (fits : a ≤ r.size) (asked : n ≤ a) :
    (h.allocate (h.start + span blockHeader.len before) a).1 ≠ 0 ∧
      ∃ rs' fresh, Granted h (before ++ r :: after) a n (h.allocate (h.start + span blockHeader.len before) a).1
        (h.allocate (h.start + span blockHeader.len before) a).2 rs' fresh := by
  obtain ⟨_, inside⟩ := ok.chain.at
  have top := ok.top
  have wide := len_eq r
  obtain ⟨split, frame⟩ := heapSplit_chain ok.chain top fits (by rw [isFree]; nofun) rfl
  have taken := blockFields.take_chain split fits asked
  obtain ⟨size, rest, isCut, large, _, isFresh⟩ := blockHeader.inUse_cut 16 n fits
  have isSize : blockSize (setFree (heapSplit h.mem (h.start + span blockHeader.len before) a)
      (h.start + span blockHeader.len before) false) (h.start + span blockHeader.len before) = size := by
    rw [isCut] at taken
    exact taken.at.1.size
  have pointer : (h.allocate (h.start + span blockHeader.len before) a).1 = h.start + span blockHeader.len before + 12 := by
    simp only [Heap.allocate, headerSize]
    omega
  refine ⟨by omega, _, _, ok.edit [r] _ taken (by simp) (fun data => .cut (endsWithData_singleton.mp data) fits _) (inUse_free isFree _ _)
    (isFresh _) (fun k outside => ?_) fun _ merged => merged.cut [r] fits fun _ => merged.next isFree, .inr ⟨_, size, pointer, large, rfl⟩, ?_⟩
  · simp only [span_cons, span_nil] at outside
    exact (blockFields.setFree_within k (by simp only [width_eq]; omega)).trans (frame k (by omega))
  · simp only [Heap.allocate, isSize]
    rfl

/-! ### Growing -/

section Claims

variable {p q : Pmm} {base : Nat}

theorem expand_address (aligned : base % 4096 = 0) (real : base / 4096 + i < 1048576) :
    (base + i * 4096) % 4294967296 = 4096 * (base / 4096 + i) := by omega

theorem unclaimPages_took (ok : p.Ok) (aligned : base % 4096 = 0) {j : Nat}
    (took : Took p q (range' (base / 4096 + j) n)) :
    ∃ q', unclaimPages base q n j = some q' ∧ Took p q' [] := by
  induction n generalizing q j with
  | zero => exact ⟨q, rfl, took⟩
  | succ n ih =>
    rw [range'_succ] at took
    have real := (ok.inside (took.were _ mem_cons_self)).trans ok.small
    obtain ⟨freed, less⟩ := took.give ok
    obtain ⟨q', rest, none⟩ := ih (j := j + 1) less
    refine ⟨q', ?_, none⟩
    rw [unclaimPages, expand_address aligned real, freed]
    exact rest

theorem claimPages_took (ok : p.Ok) (aligned : base % 4096 = 0)
    (took : Took p q (range' (base / 4096) i)) (low : base / 4096 + i ≤ 1048576) :
    ∃ q', claimPages base q n i = some (true, q') ∧ Took p q' (range' (base / 4096) (i + n)) ∨
      claimPages base q n i = some (false, q') ∧ Took p q' [] := by
  induction n generalizing q i with
  | zero => exact ⟨q, .inl ⟨rfl, took⟩⟩
  | succ n ih =>
    simp only [claimPages]
    split
    · next isFree =>
      simp only [pmmIsPageFree] at isFree
      split at isFree
      · cases isFree
      next real =>
      -- the page behind the last one of memory would be page 0, which is never free
      have small : base / 4096 + i < 1048576 := by
        by_contra wrapped
        have zero : expandPage base i = 0 := by
          simp only [expandPage]
          omega
        rw [zero, took.free, ok.null] at isFree
        cases isFree
      have page : expandPage base i = base / 4096 + i := by
        rw [expandPage, expand_address aligned small]
        omega
      rw [page] at isFree real ⊢
      have marked := took.mark isFree
      have longer : Took p (q.markUsed (base / 4096 + i)) (range' (base / 4096) (i + 1)) := by
        rw [range'_1_concat]
        exact marked.perm (perm_append_singleton _ _).symm
      have step : pmmMarkPageUsed q (base / 4096 + i) = q.markUsed (base / 4096 + i) := by
        rw [pmmMarkPageUsed, if_neg real, if_pos isFree]
      rw [step, show i + (n + 1) = i + 1 + n by omega]
      exact ih longer (by omega)
    · obtain ⟨q', freed, none⟩ := unclaimPages_took (j := 0) ok aligned took
      exact ⟨q', .inr ⟨by rw [freed], none⟩⟩

end Claims

theorem HeapOk.walk (ok : HeapOk h rs) : link h.stop h.start = h.head ∧ rs.length < walkLimit := by
  have length := ok.chain.length_le
  have top := ok.top
  obtain ⟨l, isLast, _⟩ := ok.last
  have some : rs ≠ [] := by
    rintro rfl
    cases isLast
  obtain ⟨first, rest, rfl⟩ := exists_cons_of_ne_nil some
  rw [link_of_ne ok.chain.inner, ok.head, walkLimit]
  exact ⟨rfl, by omega⟩

/-- New pages are a free block, or make the last block larger if it is free. -/
theorem HeapOk.extend (ok : HeapOk h rs) {pages : Nat} (positive : 0 < pages)
    (bound : h.stop + pages * 4096 ≤ 4294963200) :
    let mem := newBlock h.mem h.stop (pages * 4096 - 12)
    ∃ last rs', lastBlock walkLimit mem h.head = some last ∧
      let mem' := if blockFree mem last
        then setSize mem last ((blockSize mem last + headerSize + blockSize mem h.stop) % 4294967296)
        else setNext mem last h.stop
      blockHeader.Chain mem' (h.stop + pages * 4096) h.start (h.stop + pages * 4096) rs' ∧
        (∃ l, rs'.getLast? = some l ∧ l.use = none ∧ pages * 4096 - 12 ≤ l.size) ∧
        blockHeader.Change h.start rs h.mem h.start rs' mem' [] [] ∧ (Merged rs → Merged rs') ∧
        ∀ k, k < h.start ∨ h.stop + pages * 4096 ≤ k → mem' k = h.mem k := by
  intro mem
  obtain ⟨r, isLast, _⟩ := ok.last
  obtain ⟨before, rfl⟩ := getLast?_eq_some_iff.mp isLast
  obtain ⟨_, short⟩ := ok.walk
  obtain ⟨_, _, ends⟩ := tiles_append.mp ok.chain
  have ends : h.start + span blockHeader.len before + blockHeader.len r = h.stop := ends
  have wide := len_eq r
  have low := ok.low
  have within : Within h.stop (h.stop + 12) h.mem mem := newBlock_within
  have chain : blockHeader.Chain mem h.stop h.start h.stop (before ++ [r]) :=
    ok.chain.imp fun at_ y _ upper old => old.congr (within.agree (.inl (Nat.le_trans (by
      have := blockHeader.width_le y
      omega) upper)))
  have fresh : blockHeader.At mem (h.stop + pages * 4096) h.stop ⟨pages * 4096 - 12, none⟩ := newBlock_at (by omega) (by omega)
  obtain ⟨stored, _⟩ := chain.at
  have flag : blockFree mem (h.start + span blockHeader.len before) = r.use.isNone := stored.free
  have walk : lastBlock walkLimit mem h.head = some (h.start + span blockHeader.len before) := by
    rw [ok.head, lastBlock_eq]
    refine chain.last ?_
    rw [length_append] at short
    omega
  have known : (h.start + span blockHeader.len before, r) ∈ blockHeader.placed h.start (before ++ [r]) :=
    mem_placed.mpr ⟨before, [], rfl, rfl⟩
  -- the only header written inside the old region is that of the last block
  have same {mem' : Buf} {rs' : List Lib.Block} (equal : blockHeader.inUse h.start rs' = blockHeader.inUse h.start (before ++ [r]))
      (last : Within (h.start + span blockHeader.len before) (h.start + span blockHeader.len before + 12) mem mem') :
      blockHeader.Change h.start (before ++ [r]) h.mem h.start rs' mem' [] [] := by
    refine ⟨_, .refl _, .of_eq equal, fun at_ inside => AgreeOn.trans ((Change.of_header known last).kept inside (by simp)).2 ?_⟩
    have bounds := (placed_bounds (mem_inUse.mp inside).1).2
    rw [span_append, span_cons, span_nil] at bounds
    exact within.agree (.inl (by omega))
  rw [walk]
  cases isFree : r.use with
  | none =>
    have sizes : blockSize mem (h.start + span blockHeader.len before) = r.size ∧ blockSize mem h.stop = pages * 4096 - 12 :=
      ⟨stored.size, fresh.size⟩
    have size : (r.size + headerSize + (pages * 4096 - 12)) % 4294967296 = r.size + pages * 4096 := by
      simp only [headerSize]
      omega
    refine ⟨_, before ++ [⟨r.size + pages * 4096, none⟩], rfl, ?_⟩
    simp only [flag, isFree, Option.isNone_none, if_true, sizes.1, sizes.2, size]
    refine ⟨isFree ▸ blockFields.widen_chain chain (by omega), ⟨⟨r.size + pages * 4096, none⟩, by simp, rfl, by simp only; omega⟩,
      same ?_ blockFields.setSize_within, fun merged => ?_, fun k outside => ?_⟩
    · rw [inUse_append, inUse_append, inUse_free isFree, inUse_free rfl, inUse_nil, inUse_nil]
    · exact merged.exchange [r] [_] (.singleton _) (fun y isEnd _ _ => .inl (merged.prev isFree y isEnd)) (by simp)
    · exact (blockFields.setSize_within k (by simp only [width_eq]; omega)).trans (within k (by omega))
  | some m =>
    refine ⟨_, before ++ [r, ⟨pages * 4096 - 12, none⟩], rfl, ?_⟩
    simp only [flag, isFree, Option.isNone_some, Bool.false_eq_true, if_false]
    refine ⟨blockFields.append_chain chain (by omega) (by simp only [len_eq]; omega) fresh, ⟨⟨pages * 4096 - 12, none⟩, by simp, rfl, Nat.le_refl _⟩,
      same ?_ blockFields.setNext_within, fun merged => ?_, fun k outside => ?_⟩
    · rw [append_cons, inUse_append _ (before ++ [r]), inUse_free rfl, inUse_nil, append_nil]
    · rw [append_cons]
      refine isChain_append.mpr ⟨merged, .singleton _, fun y isEnd _ _ => .inl ?_⟩
      rw [getLast?_concat] at isEnd
      cases isEnd
      rw [isFree]
      rfl
    · exact (blockFields.setNext_within k (by simp only [width_eq]; omega)).trans (within k (by omega))

/-- `heap_expand` keeps the region tiled, whether it finds the pages or not. -/
theorem HeapOk.expand (ok : HeapOk h rs) (needed : Nat) :
    ∃ done h' rs', heapExpand h needed = some (done, h') ∧ Result h rs [] [] True h' rs' ∧ h'.stats = h.stats ∧
      (done = false → Unchanged h h') ∧
      (done = true → ∃ l ∈ rs', l.use = none ∧ pagesNeeded needed * 4096 - 12 ≤ l.size) := by
  have none : Took h.pmm h.pmm (range' (h.stop / 4096) 0) := Took.refl h.pmm
  have top := ok.top
  have aligned := ok.stopPage
  have least : 4 ≤ pagesNeeded needed := Nat.le_max_right _ _
  obtain ⟨pmm, ⟨claimed, took⟩ | ⟨claimed, took⟩⟩ :=
    claimPages_took (n := pagesNeeded needed) ok.pmm aligned none (by omega)
  · rw [Nat.zero_add] at took
    have small := ok.pmm.small
    -- the last page exists, so the new end of the region does too
    have lastPage := ok.pmm.inside (took.were (h.stop / 4096 + pagesNeeded needed - 1)
      (mem_range'_1.mpr (by omega)))
    have bytes : pagesNeeded needed * 4096 % 4294967296 = pagesNeeded needed * 4096 := by omega
    have stop : (h.stop + pagesNeeded needed * 4096) % 4294967296 = h.stop + pagesNeeded needed * 4096 := by
      omega
    have size : sub32 (pagesNeeded needed * 4096) headerSize = pagesNeeded needed * 4096 - 12 := by
      simp only [sub32, headerSize]
      omega
    have positive : 0 < pagesNeeded needed := by omega
    obtain ⟨last, rs', walk, chain, ⟨l, isLast, isFree, large⟩, change, merged, outside⟩ := ok.extend positive (by omega)
    have members (f : Nat) : f ∈ range' (h.stop / 4096) (pagesNeeded needed) ↔
        h.stop ≤ 4096 * f ∧ 4096 * f < h.stop + pagesNeeded needed * 4096 := by
      rw [mem_range'_1]
      omega
    refine ⟨true, { h with pmm := pmm, mem := _, stop := h.stop + pagesNeeded needed * 4096 }, rs',
      by simp only [heapExpand, claimed, bytes, size, walk, stop]; rfl, ⟨?_, ?_, change, fun _ => merged⟩, rfl, (by simp),
      fun _ => ⟨l, mem_of_getLast? isLast, isFree, large⟩⟩
    · refine { ok with
        top := by simp only; omega
        stopPage := by simp only; omega
        chain := chain, last := ⟨l, isLast, by omega⟩
        used := fun page lower upper => ?_
        pmm := ⟨?_, fun isFree => ?_, by rw [took.total]; exact small⟩ }
      · by_cases old : 4096 * page < h.stop
        · rw [took.free, ok.used page lower old, Bool.false_and]
        · exact took.used ((members page).mpr ⟨by omega, upper⟩)
      · rw [took.free, ok.pmm.null, Bool.false_and]
      · rw [took.free] at isFree
        rw [took.total]
        exact ok.pmm.inside (Bool.and_eq_true_iff.mp isFree).1
    · refine ⟨rfl, by simp only; omega, outside, fun f => ?_, fun f lower upper => ?_, took.total⟩
      · simp only [took.free, members]
      · exact took.were f ((members f).mpr ⟨lower, upper⟩)
  · obtain ⟨same, count⟩ := took.all_back
    refine ⟨false, { h with pmm := pmm }, rs, by simp [heapExpand, claimed], ⟨?_, ?_, .refl .., fun _ => id⟩, rfl,
      fun _ => ⟨rfl, same, count⟩, (by simp)⟩
    · exact { ok with
        used := fun page lower upper => by rw [same]; exact ok.used page lower upper
        pmm := ⟨by rw [same]; exact ok.pmm.null, fun isFree => by
          rw [same] at isFree
          rw [took.total]
          exact ok.pmm.inside isFree, by rw [took.total]; exact ok.pmm.small⟩ }
    · exact { Grown.refl h with free := fun f => by rw [same]; exact (Grown.refl h).free f, total := took.total }

/-! ### The calls -/

theorem HeapOk.search (ok : HeapOk h rs) (asked : n ≤ a) :
    (firstFit walkLimit h.mem h.head a = some none ∧ ∀ r ∈ rs, r.use = none → r.size < a) ∨
      ∃ block rs' fresh, firstFit walkLimit h.mem h.head a = some (some block) ∧ (h.allocate block a).1 ≠ 0 ∧
        Granted h rs a n (h.allocate block a).1 (h.allocate block a).2 rs' fresh := by
  obtain ⟨isHead, enough⟩ := ok.walk
  have found := ok.chain.search (a := a) (.inr ok.low) enough
  rw [isHead, ← firstFit_eq] at found
  rcases found with absent | ⟨before, r, after, rfl, isFree, fits, found⟩
  · exact .inl absent
  · obtain ⟨real, rs', fresh, granted⟩ := ok.allocate isFree fits asked
    exact .inr ⟨_, rs', fresh, found, real, granted⟩

/-- `kmalloc`; a request whose page count does not wrap is refused only if nothing has changed. -/
theorem HeapOk.kmalloc (ok : HeapOk h rs) (size : Nat) (asked : n ≤ align4 size) :
    ∃ ptr h' rs' fresh, kmalloc h size = some (ptr, h') ∧ Granted h rs (align4 size) n ptr h' rs' fresh ∧
      (align4 size + 4107 < 4294967296 → ptr = 0 → Unchanged h h') := by
  by_cases empty : size = 0
  · exact ⟨0, h, rs, [], by simp [Memory.kmalloc, empty], .refl ok _ _, fun _ _ => ⟨rfl, rfl, rfl⟩⟩
  simp only [Memory.kmalloc, empty, if_false]
  rcases ok.search asked with ⟨absent, _⟩ | ⟨block, rs', fresh, found, real, granted⟩
  · obtain ⟨done, h₁, rs₁, expanded, result₁, stats₁, failed, grew⟩ := ok.expand (align4 size)
    rw [absent]
    simp only [expanded]
    cases done with
    | false => exact ⟨0, h₁, rs₁, [], rfl, ⟨result₁, .inl ⟨rfl, rfl⟩, stats₁⟩, fun _ _ => failed rfl⟩
    | true =>
      rcases result₁.ok.search asked with ⟨absent, none⟩ | ⟨block, rs', fresh, found, real, granted⟩
      · refine ⟨0, h₁, rs₁, [], by simp [absent], ⟨result₁, .inl ⟨rfl, rfl⟩, stats₁⟩, fun noWrap _ => ?_⟩
        -- the pages were enough for the request
        obtain ⟨l, inside, isFree, large⟩ := grew rfl
        have small := none l inside isFree
        have enough : align4 size + 12 ≤ pagesNeeded (align4 size) * 4096 := by
          simp only [pagesNeeded, headerSize]
          omega
        omega
      · refine ⟨_, _, rs', fresh, by simp only [found], ⟨result₁.trans granted.toResult fun _ merged => ?_, granted.hands, ?_⟩, ?_⟩
        · exact granted.merged trivial (result₁.merged trivial merged)
        · rw [granted.stats, stats₁]
        · exact fun _ null => absurd null real
  · exact ⟨_, _, rs', fresh, by simp only [found], granted, fun _ null => absurd null real⟩

/-- A store into the data of a block in use. -/
theorem HeapOk.store (ok : HeapOk h rs) (mem : Buf) (inside : y ∈ blockHeader.inUse h.start rs)
    (within : Within (y.1 + 12) (y.1 + blockHeader.len y.2) h.mem mem) : Result h rs [y] [y] apart { h with mem := mem } rs := by
  obtain ⟨before, after, rfl, position⟩ := mem_placed.mp (mem_inUse.mp inside).1
  have bounds := ok.chain.at.2
  refine ⟨{ ok with chain := ok.chain.store (by rwa [← position]) }, .edit fun k outside => within k (by omega), .of_store inside within,
    fun _ => id⟩

theorem le_align4 {size : Nat} (bound : size ≤ 4294967292) : size ≤ align4 size := by
  simp only [align4]
  omega

theorem HeapOk.kcalloc (ok : HeapOk h rs) (count size : Nat) (small : count * size % 4294967296 ≤ 4294967292)
    (asked : n ≤ align4 (count * size % 4294967296)) :
    ∃ ptr h' rs' fresh, kcalloc h count size = some (ptr, h') ∧ Granted h rs (align4 (count * size % 4294967296)) n ptr h' rs' fresh := by
  simp only [Memory.kcalloc]
  generalize count * size % 4294967296 = total at small asked ⊢
  by_cases overflow : count ≠ 0 ∧ total / count ≠ size
  · exact ⟨0, h, rs, [], if_pos overflow, .refl ok _ _⟩
  rw [if_neg overflow]
  obtain ⟨ptr, h₁, rs₁, fresh, allocated, granted, _⟩ := ok.kmalloc total asked
  rw [allocated]
  rcases granted.hands with ⟨rfl, rfl⟩ | ⟨off, room, rfl, large, rfl⟩
  · exact ⟨0, h₁, rs₁, [], rfl, granted⟩
  have fits := (le_align4 small).trans large
  have isNew := granted.change.fresh_inside mem_cons_self
  have bounds := (placed_bounds (mem_inUse.mp isNew).1).2
  have ends := granted.ok.chain.end_eq
  have top := granted.ok.top
  simp only [len_eq] at bounds
  rw [granted.grown.start] at ends
  rw [← granted.grown.start] at isNew
  -- the cleared range is the data of the block, so the pointer does not wrap
  have stored : Result h₁ rs₁ [_] [_] True { h₁ with mem := memzero h₁.mem (off + 12) total } rs₁ :=
    granted.ok.store _ isNew fun k outside => if_neg fun within => by
      simp only [sub32, len_eq] at within outside
      omega
  exact ⟨_, _, rs₁, _, by simp [width_eq], granted.toResult.trans stored granted.merged, .inr ⟨off, room, rfl, large, rfl⟩, granted.stats⟩

theorem HeapOk.data_inside (ok : HeapOk h (before ++ r :: after)) :
    h.start + span blockHeader.len before + 12 < h.stop := by
  have ends := ok.chain.end_eq
  obtain ⟨l, isLast, data⟩ := ok.last
  simp only [span_append, span_cons, len_eq] at ends
  cases after with
  | nil =>
    rw [getLast?_concat] at isLast
    cases isLast
    omega
  | cons x after =>
    simp only [span_cons, len_eq] at ends
    omega

theorem EndsWithData.span {more : List Lib.Block} {size : Nat} (data : EndsWithData (r :: more))
    (spans : 12 + size = Lib.span blockHeader.len (r :: more)) : 0 < size := by
  rw [span_cons, len_eq] at spans
  cases more with
  | nil =>
    have := endsWithData_singleton.mp data
    rw [span_nil] at spans
    omega
  | cons x more =>
    rw [span_cons, len_eq] at spans
    omega

/-- `heap_coalesce`, as a change of the list. -/
theorem HeapOk.coalesce (ok : HeapOk h (before ++ r :: after)) (isFree : r.use = none) (stats : HeapStats) :
    ∃ mem size gone rest, heapCoalesce walkLimit h.mem (h.start + span blockHeader.len before) = some mem ∧ after = gone ++ rest ∧
      (∀ x ∈ gone, x.use = none) ∧ (∀ y ∈ rest.head?, y.use.isSome) ∧
      Result h (before ++ r :: after) [] [] False { h with mem := mem, stats := stats } (before ++ ⟨size, none⟩ :: rest) := by
  have enough : after.length < walkLimit := by
    have short := ok.walk.2
    rw [length_append, length_cons] at short
    omega
  obtain ⟨mem, size, gone, rest, coalesced, rfl, free, late, spans, chain, within⟩ := heapCoalesce_chain ok.chain ok.top enough rfl
  rw [isFree] at chain
  refine ⟨mem, size, gone, rest, coalesced, rfl, free, late, ?_⟩
  refine ok.edit (r :: gone) [_] chain (by simp) (fun data => endsWithData_singleton.mpr (data.span spans)) ?_ (inUse_free rfl _ _)
    (fun k outside => within k ?_) nofun
  · rw [inUse_free isFree, inUse_all_free free]
  · rw [span_cons, len_eq] at outside
    omega

/-- Behind a coalesced block is one in use, so the block before it, if free, takes in just that one. -/
theorem HeapOk.coalesceBack (ok : HeapOk h (before ++ r :: after)) (isFree : r.use = none) (late : ∀ y ∈ after.head?, y.use.isSome)
    (stats : HeapStats) : ∃ mem rs', coalesceBack h.mem h.head (h.start + span blockHeader.len before) = some mem ∧
      Result h (before ++ r :: after) [] [] False { h with mem := mem, stats := stats } rs' ∧
      ((rs' = before ++ r :: after ∧ ∀ y ∈ before.getLast?, y.use.isSome) ∨
        ∃ init p size, before = init ++ [p] ∧ p.use = none ∧ rs' = init ++ ⟨size, none⟩ :: after) := by
  have low := ok.low
  have same : Result h (before ++ r :: after) [] [] False { h with mem := h.mem, stats := stats } (before ++ r :: after) :=
    ⟨{ ok with }, .edit fun _ _ => rfl, .refl .., nofun⟩
  have isHead : prevBlock walkLimit h.mem h.head = prevBlock walkLimit h.mem h.start := by rw [ok.head]
  rw [Memory.coalesceBack, isHead]
  rcases prevBlock_chain ok.chain ok.low ok.walk.2 with ⟨rfl, walk⟩ | ⟨init, p, rfl, walk⟩
  · rw [walk]
    exact ⟨h.mem, _, rfl, same, .inl ⟨rfl, nofun⟩⟩
  rw [walk]
  have ok' : HeapOk h (init ++ p :: r :: after) := by simpa using ok
  have flag : blockFree h.mem (h.start + span blockHeader.len init) = p.use.isNone := ok'.chain.at.1.free
  dsimp only
  rw [flag]
  cases isFree' : p.use with
  | some m =>
    refine ⟨h.mem, _, by simp, same, .inl ⟨rfl, fun y isLast => ?_⟩⟩
    rw [getLast?_concat] at isLast
    cases isLast
    rw [isFree']
    rfl
  | none =>
    obtain ⟨mem, size, gone, rest, coalesced, isList, free, late', result⟩ := ok'.coalesce isFree' stats
    obtain ⟨rfl, rfl⟩ : gone = [r] ∧ rest = after := by
      match gone with
      | [] =>
        have used := late' r (by rw [← nil_append rest, ← isList]; rfl)
        rw [isFree] at used
        cases used
      | [z] =>
        cases isList
        exact ⟨rfl, rfl⟩
      | z :: z' :: gone =>
        cases isList
        have used := late z' rfl
        rw [free z' (by simp)] at used
        cases used
    refine ⟨mem, _, by rw [if_pos ⟨by omega, rfl⟩, coalesced], ?_, .inr ⟨init, p, size, rfl, isFree', rfl⟩⟩
    rw [append_assoc, singleton_append]
    exact result

theorem HeapOk.kfree (ok : HeapOk h rs) (inside : y ∈ blockHeader.inUse h.start rs) :
    ∃ h' rs', kfree h (y.1 + 12) = some h' ∧ Result h rs [y] [] True h' rs' ∧ h'.stats = statsFree h.stats y.2.size := by
  obtain ⟨off, r⟩ := y
  obtain ⟨inside, isUsed⟩ := mem_inUse.mp inside
  obtain ⟨before, after, rfl, position⟩ := mem_placed.mp inside
  simp only at position isUsed
  subst position
  have top := ok.top
  have low := ok.low
  have data := ok.data_inside
  obtain ⟨stored, _⟩ := ok.chain.at
  have block : sub32 (h.start + span blockHeader.len before + 12) headerSize = h.start + span blockHeader.len before := by
    simp only [sub32, headerSize]
    omega
  have flag : blockFree h.mem (h.start + span blockHeader.len before) = false :=
    stored.free.trans (Option.isNone_eq_false_iff.mpr isUsed)
  have size : blockSize h.mem (h.start + span blockHeader.len before) = r.size := stored.size
  have marked : Result h (before ++ r :: after) [(h.start + span blockHeader.len before, r)] [] False
      { h with mem := setFree h.mem (h.start + span blockHeader.len before) true, stats := h.stats } (before ++ ⟨r.size, none⟩ :: after) :=
    ok.edit [r] [_] (blockFields.setFree_chain ok.chain none rfl (by simp)) (by simp)
      (fun data => endsWithData_singleton.mpr (show 0 < r.size from endsWithData_singleton.mp data)) (inUse_cons isUsed _ _) (inUse_free rfl _ _) (fun k outside => blockFields.setFree_within k (by
        simp only [span_cons, span_nil, len_eq, width_eq] at outside ⊢
        omega)) (by simp)
  obtain ⟨mem₁, size₁, gone, rest, forward, rfl, free, late, result₁⟩ := marked.ok.coalesce rfl h.stats
  obtain ⟨mem₂, rs₂, backward, result₂, shape⟩ := result₁.ok.coalesceBack rfl late (statsFree h.stats r.size)
  refine ⟨_, rs₂, ?_, { (marked.trans result₁ (by simp)).trans result₂ (by simp) with merged := fun _ merged => ?_ }, rfl⟩
  · simp only at forward backward
    simp only [Memory.kfree, block, flag, size, forward, backward]
    rw [if_neg (by omega), if_neg (by omega)]
    rfl
  · rcases shape with ⟨rfl, early⟩ | ⟨init, p, size', rfl, isFree, rfl⟩
    · exact merged.exchange (r :: gone) [_] (.singleton _) (fun y isLast _ _ => .inl (early y isLast)) fun _ _ y isNext => .inr (late y isNext)
    · rw [append_assoc, singleton_append] at merged
      exact merged.exchange (p :: r :: gone) [_] (.singleton _) (fun y isLast _ _ => .inl (merged.prev isFree y isLast))
        fun _ _ y isNext => .inr (late y isNext)

/-! ### Resizing -/

/-- The statistics after a block has been made smaller, or larger, where it is. -/
def resized (stats : HeapStats) (old new : Nat) : HeapStats :=
  if new ≤ old then { stats with currentUsage := stats.currentUsage - UInt32.ofNat (old - new) }
  else
    let usage := stats.currentUsage + UInt32.ofNat (new - old)
    { stats with currentUsage := usage, peakUsage := max stats.peakUsage usage }

/-- What `krealloc` did with the block `y`: it is now `x`, which has the room asked for and the old bytes. -/
structure Moved (h : Heap) (rs : List Lib.Block) (y : Nat × Lib.Block) (newSize n q : Nat) (h' : Heap) (rs' : List Lib.Block)
    (x : Nat × Lib.Block) : Prop
    extends Result h rs [y] [x] (align4 newSize + 28 ≤ y.2.size →
      ∀ z ∈ blockHeader.placed h.start rs, z.1 = y.1 + blockHeader.len y.2 → z.2.use.isSome) h' rs' where
  pointer : q = x.1 + 12
  room : align4 newSize ≤ x.2.size
  use : x.2.use = some n
  bytes : newSize ≤ 4294967292 → ∀ k, k < min y.2.size newSize → h'.mem (q + k) = h.mem (y.1 + 12 + k)
  stats : (q = y.1 + 12 ∧ h'.stats = resized h.stats y.2.size x.2.size) ∨
    (q ≠ y.1 + 12 ∧ ∃ h₁, kmalloc h newSize = some (q, h₁) ∧ h₁.stats = statsAlloc h.stats x.2.size ∧
      h'.stats = statsFree h₁.stats y.2.size)

/-- A block in use is cut to a new size, after it has taken in the free blocks behind it. -/
theorem HeapOk.resize (more : List Lib.Block) {size : Nat} (ok : HeapOk h (before ++ (r :: more ++ after))) (isUsed : r.use = some m)
    (free : ∀ x ∈ more, x.use = none) (chain : blockHeader.Chain mem h.stop h.start h.stop (before ++ ⟨size, r.use⟩ :: after))
    (spans : 12 + size = span blockHeader.len (r :: more))
    (within : Within (h.start + span blockHeader.len before) (h.start + span blockHeader.len before + 12) h.mem mem)
    (fits : a ≤ size) (asked : n ≤ a) : ∃ room rs', a ≤ room ∧ room ≤ size ∧
      blockSize (heapSplit mem (h.start + span blockHeader.len before) a) (h.start + span blockHeader.len before) = room ∧
      (∀ stats, Result h (before ++ (r :: more ++ after)) [(h.start + span blockHeader.len before, r)]
        [(h.start + span blockHeader.len before, ⟨room, some n⟩)] (a + 28 ≤ size → ∀ y ∈ after.head?, y.use.isSome)
        { h with mem := heapSplit mem (h.start + span blockHeader.len before) a, stats := stats } rs') ∧
      ∀ k, k < a → heapSplit mem (h.start + span blockHeader.len before) a (h.start + span blockHeader.len before + 12 + k) =
        h.mem (h.start + span blockHeader.len before + 12 + k) := by
  have reused := chain.reuse isUsed (asked.trans fits)
  obtain ⟨split, frame⟩ := heapSplit_chain reused ok.top fits (by simpa using asked) rfl
  obtain ⟨room, rest, isCut, large, less, isFresh⟩ := blockHeader.inUse_cut 16 n (r := ⟨size, some n⟩) fits
  simp only [len_eq] at frame
  refine ⟨room, before ++ (blockHeader.cut 16 ⟨size, some n⟩ a (some n) ++ after), large, less, ?_, fun stats => ?_, fun k inside => ?_⟩
  · simp only at split
    rw [isCut] at split
    exact split.at.1.size
  · refine ok.edit (r :: more) _ split (by simp) (fun data => .cut (data.span spans) fits _) ?_ (isFresh _) (fun k outside => ?_)
      fun late merged => merged.cut (r :: more) fits fun big => late (by simp only [width_eq] at big; omega)
    · rw [inUse_cons (by rw [isUsed]; rfl), inUse_all_free free]
    · rw [← spans] at outside
      exact (frame k (by omega)).trans (within k (by omega))
  · exact (frame _ (by omega)).trans (within _ (by omega))

theorem HeapOk.move (ok : HeapOk h rs) (inside : y ∈ blockHeader.inUse h.start rs) (small : newSize ≤ 4294967292)
    (asked : n ≤ align4 newSize) :
    ∃ q h' rs', kreallocMove h (y.1 + 12) newSize = some (q, h') ∧
      ((q = 0 ∧ Result h rs [] [] True h' rs' ∧ h'.stats = h.stats) ∨ ∃ x, Moved h rs y newSize n q h' rs' x) := by
  obtain ⟨q, h₁, rs₁, fresh, allocated, granted, _⟩ := ok.kmalloc newSize asked
  simp only [kreallocMove, allocated]
  rcases granted.hands with ⟨rfl, rfl⟩ | ⟨off, room, rfl, large, rfl⟩
  · exact ⟨0, h₁, rs₁, rfl, .inl ⟨rfl, granted.toResult, granted.stats⟩⟩
  rw [if_neg (by rw [width_eq]; omega)]
  have fits := (le_align4 small).trans large
  have start := granted.grown.start
  -- the old block is where it was, and the new one is another
  obtain ⟨stillOld, kept⟩ := granted.change.kept inside (by simp)
  have isNew := granted.change.fresh_inside mem_cons_self
  have other := granted.change.fresh_ne inside
  have apart := inUse_apart isNew stillOld other
  rw [← start] at isNew stillOld
  have bounds := (placed_bounds (mem_inUse.mp stillOld).1).2
  have ends := granted.ok.chain.end_eq
  have top := granted.ok.top
  have size : blockSize h₁.mem (sub32 (y.1 + 12) headerSize) = y.2.size := by
    obtain ⟨before, after, rfl, position⟩ := mem_placed.mp (mem_inUse.mp stillOld).1
    have block : sub32 (y.1 + 12) headerSize = y.1 := by
      simp only [sub32, headerSize]
      rw [len_eq] at bounds
      omega
    rw [block, position]
    exact granted.ok.chain.at.1.size
  rw [size]
  have copied : Result h₁ rs₁ [_] [_] True
      { h₁ with mem := splice h₁.mem (off + 12) (min y.2.size newSize) (shift h₁.mem (y.1 + 12)) } rs₁ :=
    granted.ok.store _ isNew fun k outside => splice_outside (by simp only [len_eq] at outside; omega)
  obtain ⟨h₃, rs₃, freed, result, stats⟩ := copied.ok.kfree stillOld
  obtain ⟨_, left⟩ := result.change.kept isNew fun same => other (congrArg Prod.fst (mem_singleton.mp same))
  have first := granted.toResult.trans copied granted.merged
  have change := first.change.move (start ▸ result.change) inside
  refine ⟨off + 12, h₃, rs₃, by rw [width_eq, freed], .inr ⟨_, ⟨result.ok, first.grown.trans result.grown, change, fun _ merged => ?_⟩, rfl,
    large, rfl, fun _ k inside => ?_, .inr ⟨?_, h₁, allocated, granted.stats, stats⟩⟩⟩
  · exact result.merged trivial (granted.merged trivial merged)
  · simp only [len_eq, width_eq] at left kept apart
    rw [left _ (by omega) (by omega), splice_inside (by omega) (by omega), Nat.add_sub_cancel_left, shift]
    exact kept _ (by omega) (by omega)
  · simp only at other
    omega

theorem HeapOk.krealloc (ok : HeapOk h rs) (inside : y ∈ blockHeader.inUse h.start rs) (nonzero : newSize ≠ 0)
    (bound : newSize < 4294967296) (asked : n ≤ align4 newSize) :
    ∃ q h' rs', krealloc h (y.1 + 12) newSize = some (q, h') ∧
      ((q = 0 ∧ Result h rs [] [] True h' rs' ∧ h'.stats = h.stats) ∨ ∃ x, Moved h rs y newSize n q h' rs' x) := by
  have known := inside
  obtain ⟨off, r⟩ := y
  obtain ⟨inside, isUsed⟩ := mem_inUse.mp inside
  obtain ⟨before, after, isRs, position⟩ := mem_placed.mp inside
  obtain ⟨m, used⟩ := Option.isSome_iff_exists.mp isUsed
  simp only at isRs position used
  subst isRs position
  have top := ok.top
  obtain ⟨stored, fits⟩ := ok.chain.at
  have wide := len_eq r
  have block : sub32 (h.start + span blockHeader.len before + 12) headerSize = h.start + span blockHeader.len before := by
    simp only [sub32, headerSize]
    omega
  have size : blockSize h.mem (h.start + span blockHeader.len before) = r.size := stored.size
  simp only [Memory.krealloc, nonzero, if_false, block, size]
  rw [if_neg (by omega)]
  by_cases shrinks : align4 newSize ≤ r.size
  · rw [if_pos shrinks]
    obtain ⟨room, rs', large, less, isSize, result, same⟩ :=
      ok.resize [] used (by simp) ok.chain (by simp [len_eq]) (fun _ _ => rfl) shrinks asked
    have smaller : sub32 r.size room = r.size - room := by
      simp only [sub32]
      omega
    rw [isSize, smaller]
    refine ⟨_, _, rs', rfl, .inr ⟨_, { result _ with merged := fun late => (result h.stats).merged fun big y isNext => ?_ }, rfl, large, rfl,
      fun fits k inside => same k ?_, .inl ⟨rfl, (if_pos less).symm⟩⟩⟩
    · obtain ⟨rest, rfl⟩ := head?_eq_some_iff.mp isNext
      exact late big (_, y) (mem_placed.mpr ⟨before ++ [r], rest, by simp, by simp [Nat.add_assoc]⟩) rfl
    · have := le_align4 fits
      omega
  rw [if_neg shrinks]
  split
  · next room =>
    obtain ⟨hasNext, nextFree, enough⟩ := room
    cases after with
    | nil =>
      obtain ⟨_, _, ends⟩ := tiles_append.mp ok.chain
      have isEnd : h.start + span blockHeader.len before + blockHeader.len r = h.stop := ends
      refine absurd (stored.next.trans ?_) hasNext
      rw [isEnd, link_self]
    | cons x after =>
      obtain ⟨next, storedNext⟩ := blockFields.next_at ok.chain
      have ends := ok.chain.end_eq
      simp only [span_append, span_cons, len_eq] at ends
      have next : blockNext h.mem (h.start + span blockHeader.len before) = h.start + span blockHeader.len before + blockHeader.len r := next
      have sizeNext : blockSize h.mem (h.start + span blockHeader.len before + blockHeader.len r) = x.size := storedNext.size
      have linkNext : blockNext h.mem (h.start + span blockHeader.len before + blockHeader.len r) =
          link h.stop (h.start + span blockHeader.len before + blockHeader.len r + blockHeader.len x) := storedNext.next
      rw [next] at nextFree enough
      have isFree : x.use = none := Option.isNone_iff_eq_none.mp (storedNext.free.symm.trans nextFree)
      have sum : (r.size + headerSize + x.size) % 4294967296 = r.size + 12 + x.size := by
        simp only [headerSize]
        omega
      rw [sizeNext, sum] at enough
      have absorbed : blockHeader.Chain (setNext (setSize h.mem (h.start + span blockHeader.len before) (r.size + 12 + x.size))
          (h.start + span blockHeader.len before) (link h.stop (h.start + span blockHeader.len before + blockHeader.len r + blockHeader.len x)))
          h.stop h.start h.stop (before ++ ⟨r.size + 12 + x.size, r.use⟩ :: after) := blockFields.absorb_chain ok.chain (by omega)
      obtain ⟨room, rs', large, less, isSize, result, same⟩ := ok.resize [x] used (by simpa using isFree) absorbed
        (by simp only [span_cons, span_nil, len_eq]; omega) (fun k outside =>
          (blockFields.setNext_within k outside).trans (blockFields.setSize_within k outside)) enough asked
      have larger : sub32 room r.size = room - r.size := by
        simp only [sub32]
        omega
      have back : (h.start + span blockHeader.len before + headerSize) % 4294967296 = h.start + span blockHeader.len before + 12 := by
        simp only [headerSize]
        omega
      rw [next, sizeNext, sum, linkNext, back]
      rw [isSize, larger]
      have isResized : resized h.stats r.size room = { h.stats with
          currentUsage := h.stats.currentUsage + UInt32.ofNat (room - r.size)
          peakUsage := max h.stats.peakUsage (h.stats.currentUsage + UInt32.ofNat (room - r.size)) } := if_neg (by omega)
      refine ⟨_, _, rs', rfl, .inr ⟨_, { result _ with merged := fun _ merged => ?_ }, rfl, large, rfl,
        fun fits k inside => same k ?_, .inl ⟨rfl, isResized.symm⟩⟩⟩
      · exact (result h.stats).merged (fun _ => merged.next_next isFree) merged
      · have := le_align4 fits
        omega
  · have small : newSize ≤ 4294967292 := by
      simp only [align4] at shrinks
      omega
    have moved := ok.move known small asked
    exact moved
/-! ## Runs -/

inductive HeapOp where
  | kmalloc (size : UInt32)
  | kcalloc (count size : UInt32)
  | krealloc (ptr : Nat) (size : UInt32)
  | kfree (ptr : Nat)

/-- The heap and the pointers its clients hold. -/
structure HeapUse where
  heap : Heap
  live : List Nat

namespace HeapUse

/-- The live pointers once `ptr` has been handed out. -/
def granted (live : List Nat) (ptr : Nat) : List Nat := if ptr = 0 then live else ptr :: live

/-- One call; `none` is a kernel that has stopped. -/
def step : Option HeapUse → HeapOp → Option Nat × Option HeapUse
  | none, _ => (none, none)
  | some s, .kmalloc size =>
    match Memory.kmalloc s.heap size.toNat with
    | none => (none, none)
    | some (ptr, h) => (some ptr, some ⟨h, granted s.live ptr⟩)
  | some s, .kcalloc count size =>
    match Memory.kcalloc s.heap count.toNat size.toNat with
    | none => (none, none)
    | some (ptr, h) => (some ptr, some ⟨h, granted s.live ptr⟩)
  | some s, .krealloc ptr size =>
    match Memory.krealloc s.heap ptr size.toNat with
    | none => (none, none)
    | some (ptr', h) =>
      let live :=
        if ptr = 0 then granted s.live ptr'
        else if size = 0 then s.live.erase ptr
        else if ptr' = 0 then s.live else ptr' :: s.live.erase ptr
      (some ptr', some ⟨h, live⟩)
  | some s, .kfree ptr =>
    match Memory.kfree s.heap ptr with
    | none => (none, none)
    | some h => (some 0, some ⟨h, s.live.erase ptr⟩)

/-- The pointers passed are live, or null. -/
def Legal : Option HeapUse → HeapOp → Prop
  | some s, .krealloc ptr _ => ptr = 0 ∨ ptr ∈ s.live
  | some s, .kfree ptr => ptr = 0 ∨ ptr ∈ s.live
  | _, _ => True

/-- The size `kcalloc` asks for does not wrap when it is aligned. -/
def Alignable : HeapOp → Prop
  | .kcalloc count size => count.toNat * size.toNat % 4294967296 ≤ 4294967292
  | _ => True

instance (s : Option HeapUse) (op : HeapOp) : Decidable (Legal s op) := by
  cases s <;> cases op <;> dsimp only [Legal] <;> infer_instance

instance (op : HeapOp) : Decidable (Alignable op) := by
  cases op <;> dsimp only [Alignable] <;> infer_instance

/-- The data area of a live pointer, from the size in its header. -/
def dataSize (s : HeapUse) (ptr : Nat) : Nat := blockSize s.heap.mem (ptr - headerSize)

/-- The block list tiles the region; the live pointers are the used blocks and do not overlap;
the pages of the region are used. -/
structure Tiled (s : HeapUse) : Prop where
  blocks : ∃ rs, rs ≠ [] ∧ s.heap.head = s.heap.start ∧
    Chain s.heap.mem s.heap.stop s.heap.start s.heap.stop rs ∧ s.live.Perm (usedAt s.heap.start rs)
  disjoint : ∀ p ∈ s.live, ∀ q ∈ s.live, p ≠ q → p + s.dataSize p ≤ q ∨ q + s.dataSize q ≤ p
  pages : ∀ page, s.heap.start ≤ 4096 * page → 4096 * page < s.heap.stop →
    pmmIsPageFree s.heap.pmm page = false

/-- The bytes a call asks for. -/
def asks : HeapOp → Nat
  | .kmalloc size | .krealloc _ size => size.toNat
  | .kcalloc count size => count.toNat * size.toNat
  | .kfree _ => 0

/-- If the call makes a block smaller by cutting off a free one, then the next block is not free. -/
def Apart (s : HeapUse) : HeapOp → Prop
  | .krealloc ptr size => ptr ≠ 0 → size ≠ 0 → align4 size.toNat + 28 ≤ s.dataSize ptr →
    blockNext s.heap.mem (ptr - headerSize) = 0 ∨ blockFree s.heap.mem (blockNext s.heap.mem (ptr - headerSize)) = false
  | _ => True

/-- What a call does: one block at most is given back, and one at most is handed out. -/
structure Follows (s : HeapUse) (rs : List Lib.Block) (op : HeapOp) (n ptr : Nat) (s' : HeapUse) (rs' : List Lib.Block)
    (gone fresh : List (Nat × Lib.Block)) : Prop extends Result s.heap rs gone fresh (s.Apart op) s'.heap rs' where
  hands : blockHeader.Hands ptr (align4 (asks op)) n fresh
  live : (gone.map (·.1 + headerSize) ++ s'.live).Perm (fresh.map (·.1 + headerSize) ++ s.live)

/-- The live pointers are those to the blocks in use. -/
structure Knows (s : HeapUse) (rs : List Lib.Block) : Prop where
  ok : HeapOk s.heap rs
  live : s.live.Perm (pointers s.heap.start rs)

variable {use use' : HeapUse} {op : HeapOp}

theorem pointers_perm {live' : List Nat} (same : live.Perm (pointers start rs)) (change : blockHeader.Change start rs mem start rs' mem' gone fresh)
    (moved : (gone.map (·.1 + headerSize) ++ live').Perm (fresh.map (·.1 + headerSize) ++ live)) : live'.Perm (pointers start rs') := by
  obtain ⟨rest, was, is, _⟩ := change
  have was : live.Perm ((gone ++ rest).map (·.1 + headerSize)) := same.trans (was.map _)
  have is : (pointers start rs').Perm ((fresh ++ rest).map (·.1 + headerSize)) := is.map _
  rw [map_append] at was is
  refine Perm.trans ?_ is.symm
  refine (perm_append_left_iff (gone.map (·.1 + headerSize))).mp (moved.trans ((was.append_left _).trans ?_))
  rw [← append_assoc, ← append_assoc]
  exact perm_append_comm.append_right _

theorem granted_perm {size : Nat} (hands : blockHeader.Hands ptr size n fresh) :
    (granted live ptr).Perm (fresh.map (·.1 + headerSize) ++ live) := by
  rcases hands with ⟨rfl, rfl⟩ | ⟨off, room, rfl, _, rfl⟩
  · exact .refl _
  · rw [granted, if_neg (by rw [width_eq]; omega)]
    exact .refl _

section

variable (knows : Knows use rs)

include knows

theorem Knows.next (follows : Follows use rs op n ptr use' rs' gone fresh) : Knows use' rs' where
  ok := follows.ok
  live := by
    rw [follows.grown.start]
    exact pointers_perm knows.live follows.change follows.live

theorem Knows.block (isLive : ptr ∈ use.live) : ∃ y ∈ blockHeader.inUse use.heap.start rs, ptr = y.1 + headerSize := by
  obtain ⟨y, inside, position⟩ := mem_map.mp (knows.live.mem_iff.mp isLive)
  exact ⟨y, inside, position.symm⟩

/-- Null is never live, so freeing it changes nothing. -/
theorem Knows.null_not_live : 0 ∉ use.live := by
  intro isLive
  obtain ⟨y, _, position⟩ := knows.block isLive
  simp only [headerSize] at position
  omega

theorem Knows.stored (inside : y ∈ blockHeader.placed use.heap.start rs) :
    blockHeader.At use.heap.mem use.heap.stop y.1 y.2 ∧ y.1 + blockHeader.len y.2 ≤ use.heap.stop := by
  obtain ⟨before, after, rfl, position⟩ := mem_placed.mp inside
  rw [position]
  exact knows.ok.chain.at

theorem Knows.dataSize (inside : y ∈ blockHeader.inUse use.heap.start rs) : use.dataSize (y.1 + headerSize) = y.2.size := by
  rw [HeapUse.dataSize, Nat.add_sub_cancel]
  exact (knows.stored (mem_inUse.mp inside).1).1.size

/-- The block behind the one that is made smaller is in use. -/
theorem Knows.next_used {size : UInt32} (inside : y ∈ blockHeader.inUse use.heap.start rs) (nonzero : size ≠ 0)
    (apart : use.Apart (.krealloc (y.1 + headerSize) size)) (big : align4 size.toNat + 28 ≤ y.2.size) :
    ∀ z ∈ blockHeader.placed use.heap.start rs, z.1 = y.1 + blockHeader.len y.2 → z.2.use.isSome := by
  intro z isNext position
  obtain ⟨storedNext, ends⟩ := knows.stored isNext
  have low := knows.ok.low
  have start := (placed_bounds isNext).1
  have link : blockNext use.heap.mem y.1 = z.1 := by
    refine (knows.stored (mem_inUse.mp inside).1).1.next.trans ?_
    rw [← position, link_of_ne (by rw [len_eq] at ends; omega)]
  have next := apart (by simp only [headerSize]; omega) nonzero (by rwa [knows.dataSize inside])
  rw [Nat.add_sub_cancel, link] at next
  have isUsed : z.2.use.isNone = false := storedNext.free.symm.trans (next.resolve_left (by omega))
  simpa using isUsed

end

theorem Follows.of_granted {h' : Heap} (granted : Granted use.heap rs (align4 (asks op)) n ptr h' rs' fresh) :
    Follows use rs op n ptr ⟨h', HeapUse.granted use.live ptr⟩ rs' [] fresh where
  toResult := granted.weaken fun _ => trivial
  hands := granted.hands
  live := granted_perm granted.hands

theorem Follows.of_freed {h' : Heap} (result : Result use.heap rs [y] [] True h' rs') (isLive : y.1 + headerSize ∈ use.live) :
    Follows use rs op n 0 ⟨h', use.live.erase (y.1 + headerSize)⟩ rs' [y] [] where
  toResult := result.weaken fun _ => trivial
  hands := .inl ⟨rfl, rfl⟩
  live := (perm_cons_erase isLive).symm

theorem Follows.of_unchanged {h' : Heap} (result : Result use.heap rs [] [] True h' rs') : Follows use rs op n 0 ⟨h', use.live⟩ rs' [] [] where
  toResult := result.weaken fun _ => trivial
  hands := .inl ⟨rfl, rfl⟩
  live := .refl _

theorem Knows.moved {h' : Heap} {size : UInt32} (knows : Knows use rs) (inside : y ∈ blockHeader.inUse use.heap.start rs) (nonzero : size ≠ 0)
    (moved : Moved use.heap rs y size.toNat n ptr h' rs' x) (isLive : y.1 + headerSize ∈ use.live) :
    Follows use rs (.krealloc (y.1 + headerSize) size) n ptr ⟨h', ptr :: use.live.erase (y.1 + headerSize)⟩ rs' [y] [x] where
  toResult := moved.weaken (knows.next_used inside nonzero)
  hands := by
    obtain ⟨off, room, uses⟩ := x
    obtain rfl : uses = some n := moved.use
    exact .inr ⟨off, room, moved.pointer, moved.room, rfl⟩
  live := by
    rw [moved.pointer]
    exact (Perm.swap ..).trans ((perm_cons_erase isLive).symm.cons _)

theorem Knows.step (knows : Knows use rs) (legal : Legal (some use) op) (alignable : Alignable op) (asked : n ≤ align4 (asks op)) :
    ∃ ptr use' rs' gone fresh, step (some use) op = (some ptr, some use') ∧ Follows use rs op n ptr use' rs' gone fresh := by
  cases op with
  | kmalloc size =>
    obtain ⟨ptr, h, rs', fresh, result, granted, _⟩ := knows.ok.kmalloc size.toNat asked
    exact ⟨ptr, _, rs', [], fresh, by simp only [HeapUse.step, result], .of_granted granted⟩
  | kcalloc count size =>
    have total : align4 (count.toNat * size.toNat % 4294967296) = align4 (count.toNat * size.toNat) := by
      simp only [align4, Nat.mod_add_mod]
    obtain ⟨ptr, h, rs', fresh, result, granted⟩ := knows.ok.kcalloc count.toNat size.toNat alignable (total ▸ asked)
    exact ⟨ptr, _, rs', [], fresh, by simp only [HeapUse.step, result], .of_granted (total ▸ granted)⟩
  | kfree ptr =>
    rcases legal with rfl | isLive
    · refine ⟨0, use, rs, [], [], ?_, .of_unchanged (.refl knows.ok)⟩
      simp only [HeapUse.step, Memory.kfree, if_true, erase_of_not_mem knows.null_not_live]
    · obtain ⟨y, inside, rfl⟩ := knows.block isLive
      obtain ⟨h, rs', result, freed, _⟩ := knows.ok.kfree inside
      exact ⟨0, _, rs', [y], [], by simp only [HeapUse.step, headerSize, result], .of_freed freed isLive⟩
  | krealloc ptr size =>
    by_cases null : ptr = 0
    · subst null
      obtain ⟨ptr', h, rs', fresh, result, granted, _⟩ := knows.ok.kmalloc size.toNat asked
      exact ⟨ptr', _, rs', [], fresh, by simp only [HeapUse.step, Memory.krealloc, if_true, result], .of_granted granted⟩
    have isLive := legal.resolve_left null
    obtain ⟨y, inside, rfl⟩ := knows.block isLive
    by_cases empty : size = 0
    · subst empty
      obtain ⟨h, rs', result, freed, _⟩ := knows.ok.kfree inside
      have isFree : Memory.krealloc use.heap (y.1 + headerSize) (0 : UInt32).toNat = some (0, h) := by
        simp [Memory.krealloc, headerSize, result]
      exact ⟨0, _, rs', [y], [], by simp only [HeapUse.step, isFree, null, if_false, if_true], .of_freed freed isLive⟩
    have nonzero : size.toNat ≠ 0 := fun zero => empty (UInt32.toNat_inj.mp zero)
    obtain ⟨ptr', h, rs', result, ⟨rfl, failed, _⟩ | ⟨x, moved⟩⟩ := knows.ok.krealloc inside nonzero size.toNat_lt asked
    · have result : Memory.krealloc use.heap (y.1 + headerSize) size.toNat = some (0, h) := result
      exact ⟨0, _, rs', [], [], by simp only [HeapUse.step, result, null, empty, if_false, if_true], .of_unchanged failed⟩
    · have result : Memory.krealloc use.heap (y.1 + headerSize) size.toNat = some (ptr', h) := result
      have real : ptr' ≠ 0 := by
        rw [moved.pointer]
        omega
      exact ⟨ptr', _, rs', [y], [x], by simp only [HeapUse.step, result, null, empty, real, if_false],
        knows.moved inside empty moved isLive⟩

/-- The state between calls. -/
def Good (s : Option HeapUse) : Prop := ∃ use rs, s = some use ∧ use.Knows rs

theorem Good.step {s s' : Option HeapUse} {ans : Option Nat} (good : Good s) (legal : Legal s op) (alignable : Alignable op)
    (stepped : step s op = (ans, s')) : Good s' := by
  obtain ⟨use, rs, rfl, knows⟩ := good
  obtain ⟨_, use', rs', _, _, isStep, follows⟩ := knows.step legal alignable (Nat.zero_le _)
  cases stepped.symm.trans isStep
  exact ⟨use', rs', rfl, knows.next follows⟩

theorem Knows.tiled (knows : Knows use rs) : use.Tiled := by
  refine ⟨⟨rs.map seen, ?_, knows.ok.head, chain_seen knows.ok.chain, by rw [usedAt_seen]; exact knows.live⟩, fun p pLive q qLive other => ?_,
    fun page lower upper => ?_⟩
  · obtain ⟨l, isLast, _⟩ := knows.ok.last
    rintro isNil
    rw [map_eq_nil_iff.mp isNil] at isLast
    cases isLast
  · obtain ⟨y, inside, rfl⟩ := knows.block pLive
    obtain ⟨z, inside', rfl⟩ := knows.block qLive
    have apart := inUse_apart inside inside' fun same => other (congrArg (· + headerSize) same)
    rw [knows.dataSize inside, knows.dataSize inside']
    simp only [len_eq, headerSize] at apart ⊢
    omega
  · simp only [pmmIsPageFree]
    split
    · rfl
    · exact knows.ok.used page lower upper

end HeapUse

/-- The heap as `heap_init` leaves it: one free block. -/
theorem heapInit_ok {pmm : Pmm} (ok : pmm.Ok) (mem : Buf) {bitmapEnd : Nat} (low : 0 < bitmapEnd)
    (high : bitmapEnd ≤ 4294000000) : HeapOk (heapInit pmm mem bitmapEnd) [⟨65524, none⟩] := by
  obtain ⟨start, page⟩ : ∃ start, (bitmapEnd + 4095) % 4294967296 / 4096 * 4096 = start := ⟨_, rfl⟩
  obtain ⟨stop, ends⟩ : ∃ stop, (start + 16 * 4096) % 4294967296 = stop := ⟨_, rfl⟩
  obtain ⟨data, rest⟩ : ∃ data, data = 65524 := ⟨_, rfl⟩
  have region : start + (headerSize + data) = stop := by
    simp only [headerSize]
    omega
  have bytes : sub32 (sub32 stop start) headerSize = data := by
    simp only [sub32, headerSize]
    omega
  have stored : blockHeader.At (newBlock mem start data) stop start ⟨data, none⟩ := newBlock_at (by omega) (by omega)
  have size : blockSize (newBlock mem start data) start = data := stored.size
  have chain : blockHeader.Chain (fill (newBlock mem start data) (start + headerSize) data 0) stop start stop [⟨data, none⟩] :=
    ⟨stored.congr fun k lower upper => splice_outside (.inl (by simp only [width_eq] at upper; simp only [headerSize]; omega)), region⟩
  have used (page : Nat) (lower : start ≤ 4096 * page) (upper : 4096 * page < stop) :
      (pmmMarkRegionUsed pmm start stop).free page = false := by
    rw [pmmMarkRegionUsed, markPagesUsed_free ok.inside, decide_eq_true (by omega)]
    simp
  have bounds : 0 < start ∧ stop ≤ 4294963200 ∧ start % 4096 = 0 ∧ stop % 4096 = 0 := by omega
  rw [← rest]
  simp only [heapInit, page, ends, bytes, size]
  exact ⟨rfl, bounds.1, bounds.2.1, bounds.2.2.1, bounds.2.2.2, chain, endsWithData_singleton.mpr (by simp only; omega),
    used, markPagesUsed_ok ok _ _⟩

/-- The heap after `kernel_main` has set memory up. -/
theorem memoryInit_ok {image : KernelImage} {stage2 : Nat × Nat} {regions : List MemoryRegion} {h : Heap}
    (started : memoryInit image stage2 regions mem = some h) : HeapOk h [⟨65524, none⟩] := by
  simp only [memoryInit] at started
  split at started
  · cases started
  · next totalPages total =>
    cases started
    have small := pmmTotalPages_small total
    have nonempty := image.nonempty
    have low := image.low
    exact heapInit_ok (pmmInit_ok small _ _) mem (by omega) (by omega)

section Boot

variable {image : KernelImage} {stage2 : Nat × Nat} {regions : List MemoryRegion} {trace : List (HeapOp × Option Nat)}
  {s : Option HeapUse} (started : memoryInit image stage2 regions mem = some h)
  (run : Run HeapUse.step (fun s op => HeapUse.Legal s op ∧ HeapUse.Alignable op) (some ⟨h, []⟩) trace s)

include started run

theorem heap_run_good : HeapUse.Good s :=
  run.invariant (fun good allowed stepped => good.step allowed.1 allowed.2 stepped) ⟨_, _, rfl, memoryInit_ok started, .refl _⟩

/-- The block that is handed out has the bytes asked for, if the request can be aligned. -/
theorem granted_blocks_are_large_enough {op : HeapOp} {use : HeapUse} (stepped : HeapUse.step s op = (some ptr, some use))
    (legal : HeapUse.Legal s op) (alignable : HeapUse.asks op % 4294967296 ≤ 4294967292) (real : ptr ≠ 0) :
    HeapUse.asks op ≤ use.dataSize ptr := by
  obtain ⟨before, rs, rfl, knows⟩ := heap_run_good started run
  have small : HeapUse.asks op < 4294967296 ∧ HeapUse.Alignable op := by
    cases op with
    | kmalloc size | krealloc _ size => exact ⟨size.toNat_lt, trivial⟩
    | kfree _ => exact ⟨by simp [HeapUse.asks], trivial⟩
    | kcalloc count size =>
      simp only [HeapUse.asks, HeapUse.Alignable] at alignable ⊢
      rcases Nat.lt_or_ge (count.toNat * size.toNat) 4294967296 with small | wraps
      · exact ⟨small, alignable⟩
      · simp only [HeapUse.step, kcalloc, if_pos (mul_wraps wraps), Prod.mk.injEq, Option.some.injEq] at stepped
        exact absurd stepped.1.symm real
  obtain ⟨_, _, _, _, _, isStep, follows⟩ := knows.step legal small.2 (Nat.zero_le _)
  cases stepped.symm.trans isStep
  obtain ⟨off, room, rfl, large, rfl⟩ := follows.hands.resolve_left fun none => real none.1
  have inside := follows.change.fresh_inside mem_cons_self
  rw [← follows.grown.start] at inside
  have size := (knows.next follows).dataSize inside
  simp only [headerSize] at size
  rw [width_eq, size]
  exact (le_align4 (by omega)).trans large

/-- A `kmalloc` that fails changes nothing, if the pages it asks for do not wrap. -/
theorem failed_kmalloc_changes_nothing {use : HeapUse} {pmm : Pmm} (size : UInt32) (reached : s = some use) (ok : pmm.Ok)
    (used : ∀ page, use.heap.start ≤ 4096 * page → 4096 * page < use.heap.stop → pmm.free page = false)
    (noWrap : align4 size.toNat + 4107 < 4294967296)
    (failed : kmalloc { use.heap with pmm := pmm } size.toNat = some (0, h')) : Unchanged { use.heap with pmm := pmm } h' := by
  obtain ⟨_, rs, same, knows⟩ := heap_run_good started run
  cases reached.symm.trans same
  have taken : HeapOk { use.heap with pmm := pmm } rs := { knows.ok with used := used, pmm := ok }
  obtain ⟨_, _, _, _, result, _, unchanged⟩ := taken.kmalloc size.toNat (Nat.zero_le _)
  cases failed.symm.trans result
  exact unchanged noWrap rfl

end Boot

/-- From any memory map, the block list tiles the heap after every sequence of calls in which no
`kcalloc` asks for more than can be aligned; and no call stops the kernel. -/
theorem heap_stays_tiled {image : KernelImage} {stage2 : Nat × Nat} {regions : List MemoryRegion} {mem : Buf}
    {h : Heap} {trace : List (HeapOp × Option Nat)} {s : Option HeapUse}
    (started : memoryInit image stage2 regions mem = some h)
    (run : Run HeapUse.step (fun s op => HeapUse.Legal s op ∧ HeapUse.Alignable op) (some ⟨h, []⟩) trace s) :
    ∃ use, s = some use ∧ use.Tiled := by
  obtain ⟨use, rs, isUse, knows⟩ := heap_run_good started run
  exact ⟨use, isUse, knows.tiled⟩

/-- If no `krealloc` cuts a block in front of a free one, free blocks never lie side by side, and a heap without live pointers is one block. -/
theorem free_blocks_stay_merged {image : KernelImage} {stage2 : Nat × Nat} {regions : List MemoryRegion} {trace : List (HeapOp × Option Nat)}
    {s : Option HeapUse} (started : memoryInit image stage2 regions mem = some h)
    (run : Run HeapUse.step (fun s op => (HeapUse.Legal s op ∧ HeapUse.Alignable op) ∧ ∀ use ∈ s, use.Apart op) (some ⟨h, []⟩) trace s) :
    ∃ use rs, s = some use ∧ use.Knows rs ∧ Merged rs ∧ (use.live = [] → ∃ r, rs = [r] ∧ r.use = none) := by
  have known : ∃ use rs, s = some use ∧ use.Knows rs ∧ Merged rs := by
    refine run.invariant (I := fun s => ∃ use rs, s = some use ∧ use.Knows rs ∧ Merged rs) ?_
      ⟨_, _, rfl, ⟨memoryInit_ok started, .refl _⟩, .singleton _⟩
    rintro _ op _ _ ⟨use, rs, rfl, knows, merged⟩ ⟨⟨legal, alignable⟩, apart⟩ stepped
    obtain ⟨_, use', rs', _, _, isStep, follows⟩ := knows.step legal alignable (Nat.zero_le _)
    cases stepped.symm.trans isStep
    exact ⟨use', rs', rfl, knows.next follows, follows.merged (apart _ rfl) merged⟩
  obtain ⟨use, rs, rfl, knows, merged⟩ := known
  refine ⟨use, rs, rfl, knows, merged, fun empty => ?_⟩
  have live := knows.live
  rw [empty, nil_perm] at live
  rcases merged.single (map_eq_nil_iff.mp live) with rfl | single
  · obtain ⟨_, isLast, _⟩ := knows.ok.last
    cases isLast
  · exact single

/-! ### One memory map -/

def sampleImage : KernelImage := ⟨65536, 131072, by decide, by decide⟩

def sampleRegions : List MemoryRegion := [⟨0, 1048576, 1⟩]

def sampleHeap : Option Heap := memoryInit sampleImage (32768, 65536) sampleRegions fun _ => 0

theorem sampleHeap_boot : sampleHeap = some (sampleHeap.get rfl) := rfl

/-- Calls that split, merge in both directions, move and clear. -/
def sampleCalls : List HeapOp :=
  [.kmalloc 100, .kmalloc 50, .kcalloc 3 4, .krealloc 135180 10, .kfree 135292, .krealloc 135180 120,
    .kfree 135356, .kfree 0]

def sampleUse : Option HeapUse := sampleHeap.map fun h => ⟨h, []⟩

theorem heap_stays_tiled_sample :
    ∃ use, (execute HeapUse.step sampleUse sampleCalls).2 = some use ∧ use.Tiled := by
  have allowed : AllAllowed HeapUse.step (fun s op => HeapUse.Legal s op ∧ HeapUse.Alignable op)
      sampleUse sampleCalls := by decide +kernel
  exact heap_stays_tiled sampleHeap_boot (Run.of_execute _ allowed)

theorem free_blocks_stay_merged_sample : ∃ use rs, (execute HeapUse.step sampleUse [.kmalloc 100, .kfree 135180]).2 = some use ∧
    use.Knows rs ∧ Merged rs := by
  have allowed : AllAllowed HeapUse.step (fun s op => (HeapUse.Legal s op ∧ HeapUse.Alignable op) ∧ ∀ use ∈ s, use.Apart op) sampleUse
      [.kmalloc 100, .kfree 135180] := ⟨⟨by decide, fun _ _ => trivial⟩, ⟨by decide +kernel, fun _ _ => trivial⟩, trivial⟩
  obtain ⟨use, rs, isUse, knows, merged, _⟩ := free_blocks_stay_merged sampleHeap_boot (Run.of_execute _ allowed)
  exact ⟨use, rs, isUse, knows, merged⟩

theorem granted_blocks_are_large_enough_sample :
    ∃ use, HeapUse.step sampleUse (.kcalloc 3 5) = (some 135180, some use) ∧ 15 ≤ use.dataSize 135180 := by
  have ran : (HeapUse.step sampleUse (.kcalloc 3 5)).1 = some 135180 ∧ (HeapUse.step sampleUse (.kcalloc 3 5)).2.isSome := by
    decide +kernel
  obtain ⟨use, isUse⟩ := Option.isSome_iff_exists.mp ran.2
  exact ⟨use, Prod.ext ran.1 isUse,
    granted_blocks_are_large_enough sampleHeap_boot (.nil _) (Prod.ext ran.1 isUse) trivial (by decide) (by decide)⟩

theorem failed_kmalloc_changes_nothing_sample : ∃ h h', sampleHeap = some h ∧ kmalloc h 1048576 = some (0, h') ∧ Unchanged h h' := by
  have failed : (sampleHeap.bind fun h => (kmalloc h 1048576).map Prod.fst) = some 0 := by decide +kernel
  obtain ⟨h, started, failed⟩ := Option.bind_eq_some_iff.mp failed
  obtain ⟨⟨_, h'⟩, result, rfl⟩ := Option.map_eq_some_iff.mp failed
  have ok := memoryInit_ok started
  exact ⟨h, h', started, result, failed_kmalloc_changes_nothing started (.nil _) 1048576 rfl ok.pmm ok.used (by decide) result⟩

/-- Four pages are not enough. -/
theorem failed_kmalloc_grows_heap : (sampleHeap.bind fun h => (kmalloc h 4294967280).map fun r => (r.1, h.stop, r.2.stop)) =
    some (0, 200704, 217088) := by decide +kernel

/-- The size is rounded up to zero, and the block has no data. -/
theorem kmalloc_grants_nothing : (HeapUse.step sampleUse (.kmalloc 4294967293)).1 = some 135180 ∧
    ∀ use ∈ (HeapUse.step sampleUse (.kmalloc 4294967293)).2, use.dataSize 135180 = 0 := by decide +kernel

/-- The state after `kcalloc (1, 0xFFFFFFFD)`. -/
def wipedUse : Option HeapUse := (HeapUse.step sampleUse (.kcalloc 1 4294967293)).2

/-- The aligned size wraps to zero, the block gets no data, and the `memset` of the full size runs
over the headers: the first block then links to itself. -/
theorem kcalloc_wipes_headers : ∃ use,
    Run HeapUse.step HeapUse.Legal sampleUse [(.kcalloc 1 4294967293, some 135180)] (some use) ∧ ¬ use.Tiled := by
  have ran : (HeapUse.step sampleUse (.kcalloc 1 4294967293)).1 = some 135180 := by decide +kernel
  have alive : wipedUse.isSome = true := by decide +kernel
  have start : wipedUse.map (fun use => use.heap.start) = some 135168 := by decide +kernel
  have next : wipedUse.map (fun use => blockNext use.heap.mem 135168) = some 135168 := by decide +kernel
  obtain ⟨use, is⟩ := Option.isSome_iff_exists.mp alive
  rw [is] at start next
  simp only [Option.map_some, Option.some.injEq] at start next
  refine ⟨use, .cons trivial (Prod.ext ran is) (.nil _), fun tiled => ?_⟩
  obtain ⟨rs, nonempty, _, chain, _⟩ := tiled.blocks
  cases rs with
  | nil => exact nonempty rfl
  | cons r rs =>
    have link := chain.1.next
    rw [start, next] at link
    have wide : r.len = 12 + r.size := rfl
    simp only [linkTo] at link
    split at link <;> omega

end GinnOS.Memory
