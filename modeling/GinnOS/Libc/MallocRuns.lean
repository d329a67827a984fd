import GinnOS.Lib.Run
import GinnOS.Libc.MallocBlocks

/-! # Runs of the user allocator

A client calls `malloc`, `calloc`, `realloc` and `free` and stores into the blocks it holds.  After every
run the blocks it holds are aligned, large enough and apart from one another and from all
headers, and `realloc` carries their bytes over.  Requests that are too large fail and change nothing, as long as their
arithmetic does not wrap; and if no block is freed behind a free one, free memory is never in two pieces side by side.
-/

namespace GinnOS.Libc

open Lib Lib.Buf Lib.Header List

variable {size m : Nat} {live : List (Nat × Nat)} {call : Call}

/-- The list covers the memory from `lo` to the break. -/
structure Ok (first lo : Nat) (h : Heap) (rs : List Block) : Prop where
  base : first ≤ lo
  top : h.brk < 4294967296
  aligned : h.brk % 8 = 0
  low : rs = [] ∨ 0 < lo
  head : h.freeList = link h.brk lo
  chain : header.Chain h.mem h.brk lo h.brk rs
  sizes : ∀ r ∈ rs, r.size % 8 = 0

/-- The block that ends at `off`, if there is one, is in use. -/
def Backed (lo : Nat) (rs : List Block) (off : Nat) : Prop := off = lo ∨ ∃ at_ ∈ header.inUse lo rs, at_.1 + header.len at_.2 = off

/-- What a call does to the list; free blocks stay apart under a condition. -/
structure Result (first lo : Nat) (h : Heap) (rs : List Block) (gone fresh : List (Nat × Block)) (apart : Prop) (h' : Heap)
    (lo' : Nat) (rs' : List Block) : Prop where
  ok : Ok first lo' h' rs'
  start : 0 < first → lo' = lo
  change : header.Change lo rs h.mem lo' rs' h'.mem gone fresh
  merged : apart → Merged rs → Merged rs'

/-- An allocation: nothing happens, or one more block is in use, with room for `size` bytes. -/
def Granted (first lo : Nat) (h : Heap) (rs : List Block) (size n p : Nat) (h' : Heap) (lo' : Nat) (rs' : List Block) : Prop :=
  ∃ fresh, Result first lo h rs [] fresh True h' lo' rs' ∧ header.Hands p size n fresh

/-- What `realloc` does with a block `at_` in use for `m` bytes: nothing, or the block has moved to `q` and holds the same bytes. -/
def Moved (first lo : Nat) (h : Heap) (rs : List Block) (at_ : Nat × Block) (m n q : Nat) (h' : Heap) (lo' : Nat) (rs' : List Block) :
    Prop :=
  (q = 0 ∧ Result first lo h rs [] [] True h' lo' rs') ∨
    ∃ off room, q = off + 16 ∧
      Result first lo h rs [at_] [(off, ⟨room, some n⟩)] (0 < first ∧ Backed lo rs at_.1) h' lo' rs' ∧
      ∀ k, k < min m n → h'.mem (q + k) = h.mem (at_.1 + 16 + k)

section Calls

variable {first lo a n p : Nat} {h h' : Heap} {rs rs' before after : List Block} {r x : Block} {granted : Bool} {mem : Buf}

theorem span_mod (sizes : ∀ r ∈ rs, r.size % 8 = 0) : span header.len rs % 8 = 0 := by
  induction rs with
  | nil => rfl
  | cons r rs ih =>
    have here := sizes r mem_cons_self
    have later := ih fun x inside => sizes x (mem_cons_of_mem r inside)
    rw [span_cons, len_eq]
    omega

theorem Ok.short (ok : Ok first lo h rs) : rs.length < walkLimit := by
  have length := ok.chain.length_le
  have top := ok.top
  rw [walkLimit]
  omega

theorem Ok.edit (ok : Ok first lo h rs) (chain : header.Chain mem h.brk lo h.brk rs') (some : rs ≠ [])
    (sizes : ∀ r ∈ rs', r.size % 8 = 0) : Ok first lo { h with mem := mem } rs' :=
  { ok with chain := chain, sizes := sizes, low := .inr (ok.low.resolve_left some) }

theorem Ok.size_mod (ok : Ok first lo h (before ++ r :: after)) : r.size % 8 = 0 :=
  ok.sizes r (mem_append_right _ mem_cons_self)

theorem cut_sizes (sizes : r.size % 8 = 0) (asked : a % 8 = 0) (use : Option Nat) :
    ∀ x ∈ header.cut 8 r a use, x.size % 8 = 0 := by
  rw [cut, width_eq]
  split
  · next big =>
    have rest : (r.size - a - 16) % 8 = 0 := by omega
    simp [asked, rest]
  · simpa using sizes

theorem sizes_exchange (old ms : List Block) (sizes : ∀ r ∈ before ++ (old ++ after), r.size % 8 = 0)
    (fresh : ∀ r ∈ ms, r.size % 8 = 0) : ∀ r ∈ before ++ (ms ++ after), r.size % 8 = 0 := by
  simp only [mem_append, or_imp, forall_and] at sizes ⊢
  exact ⟨sizes.1, fresh, sizes.2.2⟩

theorem Backed.last (backed : Backed lo (before ++ r :: after) (lo + span header.len before)) :
    ∀ y ∈ before.getLast?, y.use.isSome := by
  intro y isLast
  obtain ⟨early, rfl⟩ := getLast?_eq_some_iff.mp isLast
  rw [span_append, span_cons, span_nil] at backed
  rcases backed with first | ⟨z, inside, ends⟩
  · rw [len_eq] at first
    omega
  · obtain ⟨inside, isUsed⟩ := mem_inUse.mp inside
    have known : (lo + span header.len early, y) ∈ header.placed lo (early ++ [y] ++ r :: after) :=
      mem_placed.mpr ⟨early, r :: after, by simp, rfl⟩
    rcases placed_disjoint inside known with rfl | before | behind
    · exact isUsed
    · simp only [len_eq] at before ends
      omega
    · simp only [len_eq] at behind ends
      omega

theorem Result.refl (ok : Ok first lo h rs) : Result first lo h rs [] [] True h lo rs :=
  ⟨ok, fun _ => rfl, .refl .., fun _ => id⟩

theorem Granted.refl (ok : Ok first lo h rs) (size n : Nat) : Granted first lo h rs size n 0 h lo rs :=
  ⟨[], .refl ok, .inl ⟨rfl, rfl⟩⟩

theorem Ok.take (ok : Ok first lo h (before ++ r :: after)) (fits : a ≤ r.size) (small : a ≤ 2147483616)
    (room : ∀ m ∈ r.use, m ≤ a) (asked : n ≤ a) (aligned : a % 8 = 0) :
    (h.take (lo + span header.len before) a).1 = lo + span header.len before + 16 ∧
      Ok first lo (h.take (lo + span header.len before) a).2 (before ++ (header.cut 8 r a (some n) ++ after)) ∧
      Within (lo + span header.len before) (lo + span header.len before + header.len r) h.mem
        (h.take (lo + span header.len before) a).2.mem := by
  obtain ⟨_, inside⟩ := ok.chain.at
  have top := ok.top
  have wide := len_eq r
  obtain ⟨split, frame⟩ := splitBlock_chain ok.chain top fits small room rfl
  refine ⟨?_, ok.edit (fields.take_chain split fits asked) (by simp) ?_, fun k outside => ?_⟩
  · simp only [Heap.take, headerSize]
    omega
  · exact sizes_exchange [r] _ ok.sizes (cut_sizes ok.size_mod aligned _)
  · exact (fields.setFree_within k (by simp only [width_eq]; omega)).trans (frame k (by omega))

theorem Ok.takeFree (ok : Ok first lo h (before ++ r :: after)) (isFree : r.use = none) (fits : a ≤ r.size)
    (small : a ≤ 2147483616) (asked : n ≤ a) (aligned : a % 8 = 0) (least : size ≤ a) :
    Granted first lo h (before ++ r :: after) size n (h.take (lo + span header.len before) a).1
      (h.take (lo + span header.len before) a).2 lo (before ++ (header.cut 8 r a (some n) ++ after)) := by
  obtain ⟨pointer, ok', within⟩ := ok.take fits small (by rw [isFree]; nofun) asked aligned
  obtain ⟨room, _, _, large, _, isCut⟩ := header.inUse_cut 8 n fits
  refine ⟨_, ⟨ok', fun _ => rfl, ?_, fun _ merged => merged.cut [r] fits fun _ => merged.next isFree⟩,
    .inr ⟨_, room, pointer, Nat.le_trans least large, rfl⟩⟩
  exact .of_edit [r] _ (header.span_cut 8 r a (some n)) (inUse_free isFree _ _) (isCut _) (by simpa using within)

/-- New memory at the break, and one block in it. -/
structure Brought (a : Nat) (h h₁ : Heap) (total : Nat) : Prop where
  large : a + 16 ≤ total
  aligned : total % 8 = 0
  top : h.brk + total < 4294967296
  brk : h₁.brk = h.brk + total
  list : h₁.freeList = h.freeList
  within : Within h.brk (h.brk + 16) h.mem h₁.mem
  stored : ∀ n, n ≤ a → header.At h₁.mem (h.brk + total) h.brk ⟨total - 16, some n⟩

theorem requestMemory_cases (aligned : a % 8 = 0) (small : a ≤ 2147483616) (granted : Bool) :
    requestMemory h a granted = (0, h) ∨
      (requestMemory h a granted).1 = h.brk ∧ ∃ total, Brought a h (requestMemory h a granted).2 total := by
  obtain ⟨total, isTotal⟩ : ∃ total, total = if (headerSize + a) % 4294967296 < minSbrkSize then minSbrkSize
      else (headerSize + a) % 4294967296 := ⟨_, rfl⟩
  have bounds : a + 16 ≤ total ∧ total % 8 = 0 ∧ total < 2147483648 := by
    split at isTotal <;> simp only [headerSize, minSbrkSize] at * <;> omega
  have increment : int32 total = total := int32_of_lt (by omega) (by omega)
  rw [requestMemory, ← isTotal, sbrk, increment]
  by_cases given : granted = true ∧ 0 ≤ (h.brk : Int) + total ∧ (h.brk : Int) + total < 4294967296
  · right
    rw [if_pos given]
    have size : minus total headerSize = total - 16 := by
      simp only [minus, headerSize]
      omega
    have next : ((h.brk : Int) + total).toNat = h.brk + total := by omega
    refine ⟨rfl, total, bounds.1, bounds.2.1, by omega, next, rfl, fun k outside => ?_, fun n asked => ⟨?_, ?_, ?_, ?_⟩⟩
    · exact (fields.setFree_within k outside).trans ((fields.setNext_within k outside).trans (fields.setSize_within k outside))
    · refine fields.size_setFree.trans (fields.size_setNext.trans ((fields.size_setSize ?_).trans size))
      omega
    · exact fields.free_setFree
    · refine fields.next_setFree.trans ((fields.next_setNext (by omega)).trans ?_)
      rw [len_eq, show h.brk + (16 + (total - 16)) = h.brk + total by omega, link_self]
    · simp only [Option.mem_def, Option.some.injEq]
      omega
  · left
    rw [if_neg given]

theorem Ok.append (ok : Ok first lo h rs) {h₁ : Heap} {total : Nat} (real : h.brk ≠ 0) (brought : Brought a h h₁ total) (asked : n ≤ a) :
    ∃ h₂, appendBlock h₁ h.brk = some h₂ ∧ Ok first lo h₂ (rs ++ [⟨total - 16, some n⟩]) ∧
      header.Change lo rs h.mem lo (rs ++ [⟨total - 16, some n⟩]) h₂.mem [] [(h.brk, ⟨total - 16, some n⟩)] := by
  obtain ⟨large, aligned, top, brk, list, within, stored⟩ := brought
  have stored := stored n asked
  have wide : h.brk + total = h.brk + header.len ⟨total - 16, some n⟩ := by
    simp only [len_eq]
    omega
  have ends := ok.chain.end_eq
  have least := ok.aligned
  have sizes : ∀ r ∈ rs ++ [⟨total - 16, some n⟩], r.size % 8 = 0 := by
    have whole : (total - 16) % 8 = 0 := by omega
    simpa [or_imp, forall_and, whole] using ok.sizes
  have isFresh : header.inUse (lo + span header.len rs) [⟨total - 16, some n⟩] = [(h.brk, ⟨total - 16, some n⟩)] := by
    rw [inUse_cons rfl, ← ends]
    rfl
  have same (at_ : Nat × Block) (inside : at_ ∈ header.inUse lo rs) : AgreeOn (at_.1 + 16) (at_.1 + header.len at_.2) h₁.mem h.mem :=
    fun k _ upper => within k (.inl (by have := (placed_bounds (mem_inUse.mp inside).1).2; omega))
  rw [← isFresh]
  rcases eq_nil_or_concat rs with rfl | ⟨before, l, rfl⟩
  · have start : lo = h.brk := ok.chain
    have empty : h₁.freeList = 0 := by rw [list, ok.head, start, link_self]
    refine ⟨{ h₁ with freeList := h.brk }, by rw [appendBlock, if_pos empty], ?_, .of_append _ nofun⟩
    refine ⟨ok.base, by rw [brk]; exact top, by simp only [brk]; omega, .inr (by omega), ?_, ?_, sizes⟩
    · simp only [brk]
      rw [start, link_of_ne (by omega)]
    · simp only [brk]
      rw [start]
      exact ⟨stored, by rw [tiles_nil, ← wide]⟩
  · rw [concat_eq_append] at *
    have low : 0 < lo := ok.low.resolve_left (by simp)
    have inner : lo ≠ h.brk := by
      simp only [span_append, span_cons, span_nil, len_eq] at ends
      omega
    have nonempty : h₁.freeList ≠ 0 := by
      rw [list, ok.head, link_of_ne inner]
      omega
    have chain : header.Chain h₁.mem h.brk lo h.brk (before ++ [l]) :=
      ok.chain.imp fun at_ y _ upper old => old.congr (within.agree (.inl (Nat.le_trans (by
        have := header.width_le y
        omega) upper)))
    have walked : lastBlock walkLimit h₁.mem h₁.freeList = some (lo + span header.len before) := by
      have short := ok.short
      rw [length_append, length_singleton] at short
      rw [lastBlock_eq, list, ok.head, link_of_ne inner]
      exact chain.last (by omega)
    have appended := fields.append_chain chain ok.top wide stored
    refine ⟨{ h₁ with mem := setNext h₁.mem (lo + span header.len before) h.brk },
      by rw [appendBlock, if_neg nonempty, walked], ?_, ?_⟩
    · refine ⟨ok.base, by rw [brk]; exact top, by simp only [brk]; omega, .inr low, ?_, ?_, sizes⟩
      · simp only [brk]
        rw [list, ok.head, link_of_ne inner, link_of_ne (by omega)]
      · simp only [brk]
        rw [append_assoc]
        exact appended
    · refine .of_append _ fun at_ inside => AgreeOn.trans ?_ (same at_ inside)
      have known : (lo + span header.len before, l) ∈ header.placed lo (before ++ [l]) := mem_placed.mpr ⟨before, [], rfl, rfl⟩
      exact ((Change.of_header known fields.setNext_within).kept inside (by simp)).2

theorem alignUp_bounds (bound : size ≤ 2147483616) :
    size ≤ alignUp size ∧ alignUp size ≤ 2147483616 ∧ alignUp size % 8 = 0 := by
  rw [alignUp]
  omega

/-- New memory is taken: the list grows by a block in use, and perhaps a free one behind it. -/
theorem Ok.extend (ok : Ok first lo h rs) (real : h.brk ≠ 0) {h₁ : Heap} {total : Nat} (brought : Brought a h h₁ total)
    (small : a ≤ 2147483616) (asked : n ≤ a) (aligned : a % 8 = 0) (least : size ≤ a) :
    ∃ h₂, appendBlock h₁ h.brk = some h₂ ∧
      Granted first lo h rs size n (h₂.take h.brk a).1 (h₂.take h.brk a).2 lo
        (rs ++ (header.cut 8 ⟨total - 16, some n⟩ a (some n) ++ [])) := by
  obtain ⟨h₂, appended, ok₂, change⟩ := ok.append real brought asked
  have large := brought.large
  refine ⟨h₂, appended, ?_⟩
  have ends := ok.chain.end_eq
  have fits : a ≤ (Block.mk (total - 16) (some n)).size := by
    simp only
    omega
  obtain ⟨pointer, ok₃, within₃⟩ := ok₂.take fits small (by simpa using asked) asked aligned
  obtain ⟨room, _, _, large', _, isCut⟩ := header.inUse_cut 8 n fits
  rw [← ends] at pointer ok₃
  refine ⟨_, ⟨ok₃, fun _ => rfl, change.trans ?_, fun _ merged => ?_⟩, .inr ⟨_, room, pointer, Nat.le_trans least large', rfl⟩⟩
  · rw [ends]
    exact .of_edit [_] _ (header.span_cut 8 _ a (some n)) (inUse_cons rfl _ _) (isCut _) (by simpa using within₃)
  · refine Merged.cut [⟨total - 16, some n⟩] ?_ fits fun _ => nofun
    exact isChain_append.mpr ⟨merged, .singleton _, fun _ _ y isNew => .inr (by cases isNew; rfl)⟩

theorem Ok.malloc (ok : Ok first lo h rs) (bound : size ≤ 2147483616) (asked : n ≤ size) (granted : Bool) :
    ∃ p h' lo' rs', malloc h size granted = some (p, h') ∧ Granted first lo h rs size n p h' lo' rs' := by
  by_cases zero : size = 0
  · exact ⟨0, h, lo, rs, by rw [Libc.malloc, if_pos zero], Granted.refl ok size n⟩
  obtain ⟨least, small, aligned⟩ := alignUp_bounds bound
  have room : n ≤ alignUp size := Nat.le_trans asked least
  rw [Libc.malloc, if_neg zero]
  generalize alignUp size = a at least small aligned room ⊢
  dsimp only
  have searched := ok.chain.search (a := a) ok.low ok.short
  rw [← ok.head, ← findFreeBlock_eq] at searched
  rcases searched with ⟨absent, _⟩ | ⟨before, r, after, rfl, isFree, fits, found⟩
  · rw [absent]
    rcases requestMemory_cases aligned small granted with refused | ⟨block, total, brought⟩
    · rw [refused, if_pos rfl]
      exact ⟨0, h, lo, rs, rfl, Granted.refl ok size n⟩
    · rw [block]
      by_cases null : h.brk = 0
      · -- the break was 0: the new memory is given up
        have below := ok.chain.length_le
        have empty : rs = [] := length_eq_zero_iff.mp (by omega)
        subst empty
        rw [if_pos null]
        have start : lo = h.brk := ok.chain
        have base := ok.base
        obtain ⟨_, aligned, top, brk, list, _, _⟩ := brought
        refine ⟨0, _, (requestMemory h a granted).2.brk, [], rfl, [], ⟨⟨by omega, by omega, by omega, .inl rfl, ?_, rfl, nofun⟩,
          fun _ => by omega, ⟨[], .nil, .nil, nofun⟩, fun _ => id⟩, .inl ⟨rfl, rfl⟩⟩
        rw [list, ok.head, start, link_self, link_self]
      · rw [if_neg null]
        obtain ⟨h₂, appended, grants⟩ := ok.extend null brought small room aligned least
        rw [appended]
        exact ⟨_, _, lo, _, rfl, grants⟩
  · rw [found]
    exact ⟨_, _, lo, _, rfl, ok.takeFree isFree fits small room aligned least⟩

/-- A store into the data of a block in use. -/
theorem Ok.store (ok : Ok first lo h rs) (mem : Buf) {at_ : Nat × Block} (inside : at_ ∈ header.inUse lo rs)
    (within : Within (at_.1 + 16) (at_.1 + header.len at_.2) h.mem mem) :
    Ok first lo { h with mem := mem } rs ∧ header.Change lo rs h.mem lo rs mem [at_] [at_] := by
  obtain ⟨before, after, rfl, position⟩ := mem_placed.mp (mem_inUse.mp inside).1
  refine ⟨{ ok with chain := ok.chain.store ?_ }, .of_store inside within⟩
  rw [← position]
  exact within

theorem Ok.minus_pointer (ok : Ok first lo h (before ++ r :: after)) :
    minus (lo + span header.len before + 16) headerSize = lo + span header.len before := by
  obtain ⟨_, inside⟩ := ok.chain.at
  have top := ok.top
  rw [len_eq] at inside
  simp only [minus, headerSize]
  omega

/-- `free` merges the block with the next one, so nothing more needs merging if the block before is in use. -/
theorem Ok.free (ok : Ok first lo h (before ++ r :: after)) (isUsed : r.use.isSome) :
    ∃ rs', Result first lo h (before ++ r :: after) [(lo + span header.len before, r)] [] (∀ y ∈ before.getLast?, y.use.isSome)
      (free h (lo + span header.len before + 16)) lo rs' := by
  have freed := fields.setFree_chain (f := true) ok.chain none rfl (by simp)
  have sizes : ∀ y ∈ before ++ ⟨r.size, none⟩ :: after, y.size % 8 = 0 :=
    sizes_exchange [r] [⟨r.size, none⟩] ok.sizes (by simpa using ok.size_mod)
  have header_within {k : Nat} (outside : k < lo + span header.len before ∨ lo + span header.len before + header.len r ≤ k) :
      k < lo + span header.len before ∨ lo + span header.len before + 16 ≤ k := by
    rw [len_eq] at outside
    omega
  rw [Libc.free, if_neg (by omega), ok.minus_pointer]
  dsimp only
  -- nothing is merged at the end of the list, or in front of a block in use
  have alone (late : ∀ y ∈ after.head?, y.use.isSome) : Result first lo h (before ++ r :: after) [(lo + span header.len before, r)] []
      (∀ y ∈ before.getLast?, y.use.isSome) { h with mem := setFree h.mem (lo + span header.len before) true } lo
      (before ++ ⟨r.size, none⟩ :: after) := by
    refine ⟨ok.edit freed (by simp) sizes, fun _ => rfl, ?_, fun early merged => ?_⟩
    · exact .of_edit [r] [⟨r.size, none⟩] (by simp [len]) (inUse_cons isUsed _ _) (inUse_free rfl _ _) fun k outside =>
        fields.setFree_within k (header_within (by simpa using outside))
    · exact merged.exchange [r] [_] (.singleton _) (fun y isLast _ _ => .inl (early y isLast)) fun _ _ y isNext => .inr (late y isNext)
  cases after with
  | nil =>
    obtain ⟨stored, _⟩ := freed.at
    obtain ⟨_, _, ends⟩ := tiles_append.mp freed
    have isNext : nextOf (setFree h.mem (lo + span header.len before) true) (lo + span header.len before) = 0 := by
      refine stored.next.trans ?_
      rw [show lo + span header.len before + header.len ⟨r.size, none⟩ = h.brk from ends, link_self]
    rw [if_neg (by rw [isNext]; simp)]
    exact ⟨_, alone (by simp)⟩
  | cons x after =>
    obtain ⟨absorbed, within⟩ := absorbNext_chain freed ok.top rfl
    obtain ⟨next, storedNext⟩ := fields.next_at freed
    have flag : isFree (setFree h.mem (lo + span header.len before) true)
        (lo + span header.len before + header.len ⟨r.size, none⟩) = x.use.isNone := storedNext.free
    rw [show nextOf _ _ = _ from next, flag]
    cases isFree : x.use with
    | some m =>
      rw [if_neg (by simp)]
      refine ⟨_, alone fun y isNext => ?_⟩
      cases isNext
      rw [isFree]
      rfl
    | none =>
      rw [if_pos ⟨by rw [len_eq]; omega, rfl⟩]
      refine ⟨_, ok.edit absorbed (by simp) ?_, fun _ => rfl, ?_, fun early merged => ?_⟩
      · refine sizes_exchange [⟨r.size, none⟩, x] [⟨r.size + 16 + x.size, none⟩] sizes fun y inside => ?_
        have left := ok.size_mod
        have right := sizes x (mem_append_right _ (mem_cons_of_mem _ mem_cons_self))
        rw [mem_singleton.mp inside]
        simp only
        omega
      · refine .of_edit [r, x] [⟨r.size + 16 + x.size, none⟩] (by simp only [span_cons, span_nil, len_eq]; omega)
          (by rw [inUse_cons isUsed, inUse_free isFree, inUse_nil]) (inUse_free rfl _ _) fun k outside => ?_
        simp only [span_cons, span_nil] at outside
        have outside := header_within (outside.imp_right fun behind => by omega)
        exact (within k outside).trans (fields.setFree_within k outside)
      · refine merged.exchange [r, x] [_] (.singleton _) (fun y isLast _ _ => .inl (early y isLast)) fun _ _ y isNext => .inr ?_
        exact merged.next_next isFree y isNext

theorem Ok.calloc (ok : Ok first lo h rs) {nmemb : Nat} (small : nmemb * size ≤ 2147483616 ∨ 4294967296 ≤ nmemb * size)
    (granted : Bool) : ∃ p h' lo' rs', calloc h nmemb size granted = some (p, h') ∧
      Granted first lo h rs (nmemb * size) (nmemb * size) p h' lo' rs' := by
  rw [Libc.calloc]
  rcases small with fits | overflow
  · rw [Nat.mod_eq_of_lt (by omega)]
    have exact_ : ¬ (nmemb ≠ 0 ∧ nmemb * size / nmemb ≠ size) := fun ⟨real, other⟩ =>
      other (Nat.mul_div_cancel_left size (Nat.pos_of_ne_zero real))
    rw [if_neg exact_]
    obtain ⟨p, h', lo', rs', allocated, fresh, result, hands⟩ := ok.malloc fits (Nat.le_refl _) granted
    rw [allocated]
    dsimp only
    rcases hands with ⟨rfl, rfl⟩ | ⟨off, room, rfl, large, rfl⟩
    · exact ⟨0, _, lo', rs', rfl, [], result, .inl ⟨rfl, rfl⟩⟩
    · rw [if_neg (by rw [width_eq]; omega)]
      obtain ⟨ok', store⟩ := result.ok.store (fill h'.mem (off + 16) (nmemb * size) 0) (result.change.fresh_inside mem_cons_self)
        fun k outside => splice_outside (by simp only [len_eq] at outside; omega)
      exact ⟨_, _, lo', rs', rfl, _, ⟨ok', result.start, result.change.trans store, result.merged⟩, .inr ⟨off, room, rfl, large, rfl⟩⟩
  · rw [if_pos (mul_wraps overflow)]
    exact ⟨0, h, lo, rs, rfl, .refl ok _ _⟩

theorem Ok.grow (ok : Ok first lo h (before ++ r :: x :: after)) (isUsed : r.use = some m) (isFree : x.use = none)
    (more : r.size < a) (fits : a ≤ r.size + 16 + x.size) (small : a ≤ 2147483616) (aligned : a % 8 = 0) (asked : n ≤ a) :
    Moved first lo h (before ++ r :: x :: after) (lo + span header.len before, r) m n (lo + span header.len before + 16)
      { h with mem := splitBlock (absorbNext h.mem (lo + span header.len before)) (lo + span header.len before) a } lo
      (before ++ (header.cut 8 ⟨r.size + 16 + x.size, some n⟩ a (some n) ++ after)) := by
  have bound : m ≤ r.size := ok.chain.at.1.room m isUsed
  obtain ⟨absorbed, within⟩ := absorbNext_chain ok.chain ok.top rfl
  have reused := absorbed.reuse isUsed (show n ≤ r.size + 16 + x.size by omega)
  obtain ⟨split, frame⟩ := splitBlock_chain reused ok.top fits small (by simpa using asked) rfl
  obtain ⟨room, _, _, _, _, isCut⟩ := header.inUse_cut 8 n (r := ⟨r.size + 16 + x.size, some n⟩) fits
  have spans : header.len ⟨r.size + 16 + x.size, some n⟩ = span header.len [r, x] := by
    simp only [span_cons, span_nil, len_eq]
    omega
  refine .inr ⟨_, room, rfl, ⟨ok.edit split (by simp) ?_, fun _ => rfl, ?_, fun _ merged => ?_⟩, fun k inside => ?_⟩
  · refine sizes_exchange [r, x] _ ok.sizes (cut_sizes ?_ aligned _)
    have left := ok.size_mod
    have right := ok.sizes x (mem_append_right _ (mem_cons_of_mem _ mem_cons_self))
    simp only
    omega
  · refine .of_edit [r, x] _ ((header.span_cut 8 _ a (some n)).trans spans)
      (by rw [inUse_cons (by rw [isUsed]; rfl), inUse_free isFree, inUse_nil]) (isCut _) fun k outside => ?_
    rw [← spans] at outside
    simp only [len_eq] at outside frame
    exact (frame k (by omega)).trans (within k (by omega))
  · exact merged.cut [r, x] fits fun _ => merged.next_next isFree
  · simp only
    rw [frame _ (by omega), within _ (by omega)]

/-- The block moves: the new one does not overlap it, so the copy is exact. -/
theorem Ok.move (ok : Ok first lo h (before ++ r :: after)) (isUsed : r.use = some m) (more : r.size < a)
    (small : a ≤ 2147483616) (asked : n ≤ a) (granted : Bool) :
    ∃ q h' lo' rs', reallocMove h (lo + span header.len before + 16) a granted = some (q, h') ∧
      Moved first lo h (before ++ r :: after) (lo + span header.len before, r) m n q h' lo' rs' := by
  have bound : m ≤ r.size := ok.chain.at.1.room m isUsed
  have isOld : (lo + span header.len before, r) ∈ header.inUse lo (before ++ r :: after) := inUse_at (by rw [isUsed]; rfl)
  obtain ⟨q, h₁, lo₁, rs₁, allocated, fresh, result, hands⟩ := ok.malloc small asked granted
  rw [reallocMove, allocated]
  dsimp only
  rcases hands with ⟨rfl, rfl⟩ | ⟨off, room, rfl, large, rfl⟩
  · rw [if_pos rfl]
    exact ⟨0, h₁, lo₁, rs₁, rfl, .inl ⟨rfl, result⟩⟩
  rw [if_neg (by rw [width_eq]; omega), ok.minus_pointer]
  -- the old block is where it was, and the new one is another
  obtain ⟨stillOld, kept⟩ := result.change.kept isOld (by simp)
  have isNew := result.change.fresh_inside mem_cons_self
  have apart := inUse_apart isNew stillOld (result.change.fresh_ne isOld)
  simp only [len_eq] at apart
  obtain ⟨ok₂, store⟩ := result.ok.store
    (splice h₁.mem (off + 16) r.size (shift h₁.mem (lo + span header.len before + 16))) isNew fun k outside => splice_outside (by simp only [len_eq] at outside; omega)
  obtain ⟨before₂, after₂, rfl, position⟩ := mem_placed.mp (mem_inUse.mp stillOld).1
  simp only at position
  have size : sizeOf h₁.mem (lo + span header.len before) = r.size := by
    rw [position]
    exact result.ok.chain.at.1.size
  obtain ⟨rs', freed⟩ := ok₂.free (by rw [isUsed]; rfl)
  rw [← position] at freed
  have change := (result.change.trans store).move freed.change isOld
  obtain ⟨_, left⟩ := freed.change.kept isNew (by simpa using fun same => (result.change.fresh_ne isOld same).elim)
  rw [size]
  refine ⟨_, _, lo₁, rs', rfl, .inr ⟨off, room, rfl, ⟨freed.ok, result.start, change, fun ⟨real, backed⟩ merged => ?_⟩, fun k inside => ?_⟩⟩
  · have backed₂ : Backed lo₁ (before₂ ++ r :: after₂) (lo₁ + span header.len before₂) := by
      rw [← position]
      rcases backed with first | ⟨z, known, ends⟩
      · exact .inl (first.trans (result.start real).symm)
      · exact .inr ⟨z, (result.change.kept known (by simp)).1, ends⟩
    exact freed.merged backed₂.last (result.merged trivial merged)
  · simp only [width_eq, len_eq] at left kept ⊢
    rw [left _ (by omega) (by omega), splice_inside (by omega) (by omega), Nat.add_sub_cancel_left, shift]
    exact kept _ (by omega) (by omega)

/-- What `realloc` finds if it may take the next block. -/
theorem Ok.next_free (ok : Ok first lo h (before ++ r :: after)) {next : Nat} (isNext : nextOf h.mem (lo + span header.len before) = next)
    (real : next ≠ 0) (free : isFree h.mem next) (fits : a ≤ (r.size + headerSize + sizeOf h.mem next) % 4294967296) :
    ∃ x rest, after = x :: rest ∧ x.use = none ∧ a ≤ r.size + 16 + x.size := by
  cases after with
  | nil =>
    obtain ⟨_, stored, ends⟩ := tiles_append.mp ok.chain
    have isEnd : lo + span header.len before + header.len r = h.brk := ends
    refine absurd (isNext.symm.trans (stored.next.trans ?_)) real
    rw [isEnd, link_self]
  | cons x rest =>
    obtain ⟨linked, stored⟩ := fields.next_at ok.chain
    have linked : next = lo + span header.len before + header.len r := isNext.symm.trans linked
    have flag : Libc.isFree h.mem next = x.use.isNone := linked ▸ stored.free
    have size : sizeOf h.mem next = x.size := linked ▸ stored.size
    rw [size] at fits
    refine ⟨x, rest, rfl, Option.isNone_iff_eq_none.mp (flag.symm.trans free), fits.trans ?_⟩
    simp only [headerSize]
    exact Nat.mod_le _ _

theorem Ok.realloc (ok : Ok first lo h (before ++ r :: after)) (isUsed : r.use = some m) (real : n ≠ 0)
    (bound : n ≤ 2147483616) (granted : Bool) :
    ∃ q h' lo' rs', realloc h (lo + span header.len before + 16) n granted = some (q, h') ∧
      Moved first lo h (before ++ r :: after) (lo + span header.len before, r) m n q h' lo' rs' := by
  have size : sizeOf h.mem (lo + span header.len before) = r.size := ok.chain.at.1.size
  obtain ⟨least, small, aligned⟩ := alignUp_bounds bound
  rw [Libc.realloc, if_neg (by omega), if_neg real, ok.minus_pointer]
  generalize alignUp n = a at least small aligned ⊢
  dsimp only
  rw [size]
  by_cases large : a ≤ r.size
  · rw [if_pos large]
    refine ⟨_, h, lo, before ++ ⟨r.size, some n⟩ :: after, rfl, .inr ⟨_, r.size, rfl, ⟨?_, fun _ => rfl, ?_, fun _ merged => ?_⟩, fun _ _ => rfl⟩⟩
    · refine ok.edit (ok.chain.reuse isUsed (Nat.le_trans least large)) (by simp) ?_
      exact sizes_exchange [r] [⟨r.size, some n⟩] ok.sizes (by simpa using ok.size_mod)
    · exact .of_edit [r] [⟨r.size, some n⟩] (by simp [len]) (inUse_cons (by rw [isUsed]; rfl) _ _) (inUse_cons rfl _ _) fun _ _ => rfl
    · exact merged.exchange [r] [_] (.singleton _) (fun _ _ y isHead => .inr (by cases isHead; rfl)) fun y isLast _ _ =>
        .inl (by cases isLast; rfl)
  rw [if_neg large]
  split
  · next room =>
    obtain ⟨notNull, isFree, _, fits⟩ := room
    obtain ⟨x, rest, rfl, isFree, fits⟩ := ok.next_free rfl notNull isFree fits
    exact ⟨_, _, lo, _, rfl, ok.grow isUsed isFree (by omega) fits small aligned least⟩
  · exact ok.move isUsed (by omega) small least granted

/-! ### Requests that are too large -/

/-- No block is as large as the memory obtained so far. -/
theorem Ok.size_lt (ok : Ok first lo h (before ++ r :: after)) : r.size + 16 + span header.len after ≤ h.brk - first := by
  have ends := ok.chain.end_eq
  have base := ok.base
  simp only [span_append, span_cons, len_eq] at ends
  omega

theorem alignUp_large (large : 2147483616 < size) (bound : size ≤ 4294967272) :
    2147483616 < alignUp size ∧ alignUp size ≤ 4294967272 := by
  rw [alignUp]
  omega

theorem Ok.malloc_refused (ok : Ok first lo h rs) (large : 2147483616 < size) (bound : size ≤ 4294967272)
    (obtained : h.brk ≤ first + 2147483616) : Libc.malloc h size false = some (0, h) := by
  obtain ⟨large', _⟩ := alignUp_large large bound
  rw [Libc.malloc, if_neg (by omega)]
  have searched := ok.chain.search (a := alignUp size) ok.low ok.short
  rw [← ok.head, ← findFreeBlock_eq] at searched
  dsimp only
  rcases searched with ⟨absent, _⟩ | ⟨before, r, after, rfl, _, fits, _⟩
  · simp [absent, requestMemory, sbrk]
  · have := ok.size_lt
    omega

theorem Ok.realloc_refused (ok : Ok first lo h (before ++ r :: after)) (large : 2147483616 < size) (bound : size ≤ 4294967272)
    (obtained : h.brk ≤ first + 2147483616) : Libc.realloc h (lo + span header.len before + 16) size false = some (0, h) := by
  have isSize : sizeOf h.mem (lo + span header.len before) = r.size := ok.chain.at.1.size
  obtain ⟨large', bound'⟩ := alignUp_large large bound
  have small := ok.size_lt
  rw [Libc.realloc, if_neg (by omega), if_neg (by omega), ok.minus_pointer]
  dsimp only
  rw [isSize, if_neg (by omega), if_neg, reallocMove, ok.malloc_refused large' bound' obtained]
  · rfl
  · rintro ⟨notNull, isFree, _, fits⟩
    obtain ⟨x, rest, rfl, _, fits⟩ := ok.next_free rfl notNull isFree fits
    rw [span_cons, len_eq] at small
    omega

theorem Ok.calloc_refused (ok : Ok first lo h rs) {nmemb : Nat} (large : 2147483616 < nmemb * size)
    (bound : nmemb * size ≤ 4294967272) (obtained : h.brk ≤ first + 2147483616) :
    Libc.calloc h nmemb size false = some (0, h) := by
  have exact_ : ¬ (nmemb ≠ 0 ∧ nmemb * size / nmemb ≠ size) := fun ⟨real, other⟩ =>
    other (Nat.mul_div_cancel_left size (Nat.pos_of_ne_zero real))
  rw [Libc.calloc, Nat.mod_eq_of_lt (by omega), if_neg exact_, ok.malloc_refused large bound obtained]
  rfl

end Calls
/-! ## Runs -/

/-- The calls; `granted` says whether `sbrk` succeeds if it is called. -/
inductive Call where
  | malloc (size : UInt32) (granted : Bool)
  | calloc (nmemb size : UInt32) (granted : Bool)
  | realloc (ptr : Nat) (size : UInt32) (granted : Bool)
  | free (ptr : Nat)
  | store (address : Nat) (value : UInt8)

/-- The allocator and the blocks its client holds, each with the bytes asked for. -/
structure Client where
  heap : Heap
  live : List (Nat × Nat)

namespace Client

/-- The blocks held once `ptr` has been handed out. -/
def hold (live : List (Nat × Nat)) (ptr size : Nat) : List (Nat × Nat) := if ptr = 0 then live else (ptr, size) :: live

def drop (live : List (Nat × Nat)) (ptr : Nat) : List (Nat × Nat) := live.filter fun held => held.1 ≠ ptr

/-- One call and what it returns; `none` is a call that does not return. -/
def step : Option Client → Call → Option Nat × Option Client
  | none, _ => (none, none)
  | some s, .malloc size granted =>
    match Libc.malloc s.heap size.toNat granted with
    | none => (none, none)
    | some (ptr, h) => (some ptr, some ⟨h, hold s.live ptr size.toNat⟩)
  | some s, .calloc nmemb size granted =>
    match Libc.calloc s.heap nmemb.toNat size.toNat granted with
    | none => (none, none)
    | some (ptr, h) => (some ptr, some ⟨h, hold s.live ptr (nmemb.toNat * size.toNat)⟩)
  | some s, .realloc ptr size granted =>
    match Libc.realloc s.heap ptr size.toNat granted with
    | none => (none, none)
    | some (ptr', h) =>
      let live :=
        if ptr = 0 then hold s.live ptr' size.toNat
        else if size = 0 then drop s.live ptr
        else if ptr' = 0 then s.live else (ptr', size.toNat) :: drop s.live ptr
      (some ptr', some ⟨h, live⟩)
  | some s, .free ptr => (some 0, some ⟨Libc.free s.heap ptr, drop s.live ptr⟩)
  | some s, .store address value => (some 0, some { s with heap := { s.heap with mem := put8 s.heap.mem address value } })

def Holds (s : Client) (ptr : Nat) : Prop := ptr = 0 ∨ ∃ held ∈ s.live, held.1 = ptr
  deriving Decidable

/-- Requests are not too large, pointers are live, and stores stay inside the blocks. -/
def Legal : Option Client → Call → Prop
  | some _, .malloc size _ => size.toNat ≤ 0x7FFFFFE0
  | some _, .calloc nmemb size _ => nmemb.toNat * size.toNat ≤ 0x7FFFFFE0 ∨ 4294967296 ≤ nmemb.toNat * size.toNat
  | some s, .realloc ptr size _ => s.Holds ptr ∧ size.toNat ≤ 0x7FFFFFE0
  | some s, .free ptr => s.Holds ptr
  | some s, .store address _ => ∃ held ∈ s.live, held.1 ≤ address ∧ address < held.1 + held.2
  | none, _ => True

instance Legal.decide (s : Option Client) (call : Call) : Decidable (Legal s call) := by
  cases s <;> cases call <;> dsimp only [Legal] <;> infer_instance

def blockSize (s : Client) (ptr : Nat) : Nat := sizeOf s.heap.mem (ptr - headerSize)

def headers (s : Client) : List Nat := header.walk walkLimit s.heap.mem s.heap.freeList

/-- The blocks held are aligned, have the bytes asked for, lie in memory from `sbrk`, and overlap neither one another
nor a header. -/
structure Valid (first : Nat) (s : Client) : Prop where
  aligned : ∀ held ∈ s.live, held.1 % 8 = 0
  room : ∀ held ∈ s.live, held.2 ≤ s.blockSize held.1
  inside : ∀ held ∈ s.live, first + headerSize ≤ held.1 ∧ held.1 + s.blockSize held.1 ≤ s.heap.brk
  apart : s.live.Pairwise fun x y => x.1 + s.blockSize x.1 ≤ y.1 ∨ y.1 + s.blockSize y.1 ≤ x.1
  listed : ∀ held ∈ s.live, held.1 - headerSize ∈ s.headers
  headers : ∀ block ∈ s.headers, ∀ held ∈ s.live, block + headerSize ≤ held.1 ∨ held.1 + s.blockSize held.1 ≤ block

/-- `realloc` preserves the bytes that the old block and the new one both have. -/
def Preserves (s s' : Client) (ptr size ptr' : Nat) : Prop :=
  ptr' ≠ 0 → ∀ held ∈ s.live, held.1 = ptr → ∀ k, k < min held.2 size → s'.heap.mem (ptr' + k) = s.heap.mem (ptr + k)

/-- No free block lies in front of the block at `ptr`. -/
def Behind (s : Client) (ptr : Nat) : Prop :=
  ∀ block ∈ s.headers, nextOf s.heap.mem block = ptr - headerSize → isFree s.heap.mem block = false
  deriving Decidable

/-- Blocks are given back only behind blocks in use. -/
def Ordered : Option Client → Call → Prop
  | some s, .realloc ptr _ _ => ptr ≠ 0 → s.Behind ptr
  | some s, .free ptr => ptr ≠ 0 → s.Behind ptr
  | _, _ => True

instance Ordered.decide (s : Option Client) (call : Call) : Decidable (Ordered s call) := by
  cases s <;> cases call <;> dsimp only [Ordered] <;> infer_instance

/-- A request for more bytes than can be had. -/
def Huge : Option Client → Call → Prop
  | some _, .malloc size _ => 0x7FFFFFE0 < size.toNat
  | some _, .calloc nmemb size _ => 0x7FFFFFE0 < nmemb.toNat * size.toNat ∧ nmemb.toNat * size.toNat < 4294967296
  | some s, .realloc ptr size _ => s.Holds ptr ∧ 0x7FFFFFE0 < size.toNat
  | _, _ => False

instance Huge.decide (s : Option Client) (call : Call) : Decidable (Huge s call) := by
  cases s <;> cases call <;> dsimp only [Huge] <;> infer_instance

/-- The bytes a call asks for, and whether `sbrk` gives more memory. -/
def asks : Call → Nat × Bool
  | .malloc size granted => (size.toNat, granted)
  | .calloc nmemb size granted => (nmemb.toNat * size.toNat, granted)
  | .realloc _ size granted => (size.toNat, granted)
  | _ => (0, false)

/-- The request can be rounded up and given a header without wrapping, `sbrk` refuses it, and the memory obtained so far is
not that large. -/
def Refusable (first : Nat) (s : Option Client) (call : Call) : Prop :=
  (asks call).1 ≤ 0xFFFFFFE8 ∧ (asks call).2 = false ∧ ∀ use ∈ s, use.heap.brk ≤ first + 0x7FFFFFE0
  deriving Decidable

variable {first lo n p : Nat} {s s' : Option Client} {use : Client} {rs rs' before after : List Block} {r : Block}

/-- What the client knows about a block in use. -/
def held (at_ : Nat × Block) : Nat × Nat := (at_.1 + 16, at_.2.use.getD 0)

/-- The client holds the blocks that are in use. -/
structure Knows (first lo : Nat) (rs : List Block) (use : Client) : Prop where
  ok : Ok first lo use.heap rs
  live : use.live.Perm ((header.inUse lo rs).map held)

/-! ### What the list says about the blocks held -/

theorem Knows.block (knows : Knows first lo rs use) {x : Nat × Nat} (known : x ∈ use.live) :
    ∃ before r after, rs = before ++ r :: after ∧ r.use = some x.2 ∧ x.1 = lo + span header.len before + 16 := by
  obtain ⟨⟨off, r⟩, inside, rfl⟩ := mem_map.mp (knows.live.mem_iff.mp known)
  obtain ⟨inside, isUsed⟩ := mem_inUse.mp inside
  obtain ⟨before, after, isList, position⟩ := mem_placed.mp inside
  obtain ⟨m, isUsed⟩ := Option.isSome_iff_exists.mp isUsed
  refine ⟨before, r, after, isList, ?_, congrArg (· + 16) position⟩
  simp only [held]
  rw [isUsed]
  rfl

theorem Knows.placed (knows : Knows first lo rs use) {x : Nat × Nat} (known : x ∈ use.live) :
    ∃ off r, (off, r) ∈ header.placed lo rs ∧ x.1 = off + 16 ∧ x.2 ≤ r.size ∧ use.blockSize x.1 = r.size := by
  obtain ⟨before, r, after, rfl, isUsed, pointer⟩ := knows.block known
  obtain ⟨stored, _⟩ := knows.ok.chain.at
  refine ⟨lo + span header.len before, r, mem_placed.mpr ⟨before, after, rfl, rfl⟩, pointer, stored.room x.2 isUsed, ?_⟩
  rw [blockSize, pointer]
  exact stored.size

theorem Knows.headers_eq (knows : Knows first lo rs use) : use.headers = (header.placed lo rs).map Prod.fst := by
  rw [headers, knows.ok.head]
  exact knows.ok.chain.walk knows.ok.low knows.ok.short

theorem Knows.valid (knows : Knows first lo rs use) : use.Valid first := by
  have ends := knows.ok.chain.end_eq
  have apart {x y : Nat × Block} (inX : x ∈ header.placed lo rs) (inY : y ∈ header.placed lo rs) (different : x.1 ≠ y.1) :
      x.1 + 16 + x.2.size ≤ y.1 ∨ y.1 + 16 + y.2.size ≤ x.1 := by
    rcases placed_disjoint inX inY with rfl | early | late
    · exact absurd rfl different
    · rw [len_eq] at early
      omega
    · rw [len_eq] at late
      omega
  refine ⟨fun x known => ?_, fun x known => ?_, fun x known => ?_, ?_, fun x known => ?_, fun block isBlock x known => ?_⟩
  · obtain ⟨before, r, after, rfl, _, pointer⟩ := knows.block known
    have aligned := knows.ok.aligned
    have whole := span_mod knows.ok.sizes
    have early : span header.len before % 8 = 0 :=
      span_mod fun y inside => knows.ok.sizes y (mem_append_left _ inside)
    omega
  · obtain ⟨_, r, _, _, room, size⟩ := knows.placed known
    rwa [size]
  · obtain ⟨off, r, here, pointer, _, size⟩ := knows.placed known
    have bounds := placed_bounds here
    have base := knows.ok.base
    simp only [len_eq] at bounds
    simp only [headerSize]
    omega
  · have distinct : use.live.Pairwise fun x y => x.1 ≠ y.1 := by
      refine (Perm.pairwise_iff (fun {x y} (apart : x.1 ≠ y.1) => apart.symm) knows.live).mpr ?_
      exact pairwise_map.mpr ((inUse_distinct lo rs).imp fun different same => different (Nat.add_right_cancel same))
    refine Pairwise.imp_of_mem (fun {x y} knownX knownY different => ?_) distinct
    obtain ⟨off, r, here, pointer, _, size⟩ := knows.placed knownX
    obtain ⟨off', r', here', pointer', _, size'⟩ := knows.placed knownY
    have := apart here here' (by simp only; omega)
    simp only at this
    omega
  · obtain ⟨off, r, here, pointer, _, _⟩ := knows.placed known
    rw [knows.headers_eq, pointer]
    exact mem_map.mpr ⟨_, here, rfl⟩
  · rw [knows.headers_eq] at isBlock
    obtain ⟨⟨off', r'⟩, here', rfl⟩ := mem_map.mp isBlock
    obtain ⟨off, r, here, pointer, _, size⟩ := knows.placed known
    simp only [headerSize]
    by_cases same : off' = off
    · omega
    · have := apart here' here same
      simp only at this
      omega

theorem Behind.backed (knows : Knows first lo (before ++ r :: after) use) (behind : use.Behind (lo + span header.len before + 16)) :
    Backed lo (before ++ r :: after) (lo + span header.len before) := by
  rcases eq_nil_or_concat before with rfl | ⟨early, y, rfl⟩
  · exact .inl rfl
  rw [concat_eq_append, append_assoc, singleton_append] at *
  obtain ⟨stored, _⟩ := knows.ok.chain.at
  have ends := knows.ok.chain.end_eq
  have isHeader : lo + span header.len early ∈ use.headers := by
    rw [knows.headers_eq]
    exact mem_map.mpr ⟨(_, y), mem_placed.mpr ⟨early, r :: after, rfl, rfl⟩, rfl⟩
  simp only [span_append, span_cons, span_nil, Nat.add_zero, len_eq r] at ends behind ⊢
  have next : nextOf use.heap.mem (lo + span header.len early) = lo + (span header.len early + header.len y) := by
    refine stored.next.trans ?_
    rw [link_of_ne (by omega), Nat.add_assoc]
  have flag := behind _ isHeader next
  have flag' : isFree use.heap.mem (lo + span header.len early) = y.use.isNone := stored.free
  refine .inr ⟨_, inUse_at (r := y) ?_, Nat.add_assoc ..⟩
  simpa [flag'] using flag

/-! ### Steps -/

/-- What a call does: the client knows the blocks again, and free blocks stay apart if they were. -/
structure Follows (first lo : Nat) (rs : List Block) (apart : Prop) (s' : Option Client) (use' : Client) (lo' : Nat)
    (rs' : List Block) : Prop where
  isState : s' = some use'
  knows : Knows first lo' rs' use'
  start : 0 < first → lo' = lo
  merged : apart → Merged rs → Merged rs'

theorem hold_perm {lo' : Nat} {h : Heap} {fresh : List (Nat × Block)} {mem : Buf} (same : live.Perm ((header.inUse lo rs).map held))
    (change : header.Change lo rs mem lo' rs' h.mem [] fresh) (hands : header.Hands p size n fresh) :
    (hold live p n).Perm ((header.inUse lo' rs').map held) := by
  obtain ⟨rest, was, is, _⟩ := change
  have live : live.Perm (rest.map held) := same.trans (was.map held)
  rcases hands with ⟨rfl, rfl⟩ | ⟨off, room, rfl, _, rfl⟩
  · exact live.trans (is.map held).symm
  · rw [hold, if_neg (by rw [width_eq]; omega)]
    exact (live.cons _).trans (is.map held).symm

theorem drop_perm {y : Nat × Block} {rest : List (Nat × Block)} (same : live.Perm ((header.inUse lo rs).map held))
    (was : (header.inUse lo rs).Perm (y :: rest)) : (drop live (y.1 + 16)).Perm (rest.map held) := by
  refine ((same.trans (was.map held)).filter _).trans ?_
  rw [map_cons, filter_cons_of_neg (by simp [held]), filter_eq_self.mpr]
  intro x known
  obtain ⟨at_, other, rfl⟩ := mem_map.mp known
  simpa [held] using (ne_of_perm was at_ other).symm

/-- Null is never held. -/
theorem drop_null (same : live.Perm ((header.inUse lo rs).map held)) : drop live 0 = live := by
  rw [drop, filter_eq_self]
  intro x known
  obtain ⟨_, _, rfl⟩ := mem_map.mp (same.mem_iff.mp known)
  simp [held]

theorem Knows.split (knows : Knows first lo rs use) (holds : use.Holds p) (real : p ≠ 0) :
    ∃ before r after m, rs = before ++ r :: after ∧ r.use = some m ∧ p = lo + span header.len before + 16 := by
  obtain ⟨⟨ptr, m⟩, known, rfl⟩ := holds.resolve_left real
  obtain ⟨before, r, after, isList, isUsed, pointer⟩ := knows.block known
  exact ⟨before, r, after, m, isList, isUsed, pointer⟩

theorem Knows.hold {lo' : Nat} {h : Heap} {apart : Prop} (knows : Knows first lo rs use)
    (given : Granted first lo use.heap rs size n p h lo' rs') :
    Follows first lo rs apart (some ⟨h, Client.hold use.live p n⟩) ⟨h, Client.hold use.live p n⟩ lo' rs' := by
  obtain ⟨fresh, result, hands⟩ := given
  exact ⟨rfl, ⟨result.ok, hold_perm knows.live result.change hands⟩, result.start, fun _ => result.merged trivial⟩

theorem Knows.free (knows : Knows first lo rs use) (holds : use.Holds p) :
    ∃ rs', Follows first lo rs (p ≠ 0 → use.Behind p) (some ⟨Libc.free use.heap p, drop use.live p⟩)
      ⟨Libc.free use.heap p, drop use.live p⟩ lo rs' := by
  by_cases null : p = 0
  · subst null
    rw [drop_null knows.live]
    exact ⟨rs, rfl, knows, fun _ => rfl, fun _ => id⟩
  · obtain ⟨before, r, after, m, rfl, isUsed, rfl⟩ := knows.split holds null
    obtain ⟨rs', freed⟩ := knows.ok.free (by rw [isUsed]; rfl)
    obtain ⟨rest, was, is, _⟩ := freed.change
    exact ⟨rs', rfl, ⟨freed.ok, (drop_perm knows.live was).trans (is.map held).symm⟩, freed.start,
      fun behind => freed.merged ((behind null).backed knows).last⟩

theorem Knows.step {ans : Option Nat} (knows : Knows first lo rs use) (legal : Legal (some use) call)
    (stepped : step (some use) call = (ans, s')) :
    ans.isSome ∧ ∃ use' lo' rs', Follows first lo rs (0 < first ∧ Ordered (some use) call) s' use' lo' rs' := by
  cases call with
  | malloc size granted =>
    obtain ⟨p, h, lo', rs', result, given⟩ := knows.ok.malloc legal (Nat.le_refl _) granted
    simp only [Client.step, result, Prod.mk.injEq] at stepped
    exact ⟨stepped.1 ▸ rfl, _, lo', rs', stepped.2 ▸ knows.hold given⟩
  | calloc nmemb size granted =>
    obtain ⟨p, h, lo', rs', result, given⟩ := knows.ok.calloc legal granted
    simp only [Client.step, result, Prod.mk.injEq] at stepped
    exact ⟨stepped.1 ▸ rfl, _, lo', rs', stepped.2 ▸ knows.hold given⟩
  | free ptr =>
    cases stepped
    obtain ⟨rs', follows⟩ := knows.free legal
    exact ⟨rfl, _, lo, rs', { follows with merged := fun ordered => follows.merged ordered.2 }⟩
  | store address value =>
    cases stepped
    obtain ⟨x, known, lower, upper⟩ := legal
    obtain ⟨before, r, after, rfl, isUsed, pointer⟩ := knows.block known
    have room := knows.ok.chain.at.1.room x.2 isUsed
    obtain ⟨ok', _⟩ := knows.ok.store (put8 use.heap.mem address value) (inUse_at (r := r) (by rw [isUsed]; rfl))
      fun k outside => put8_other (by simp only [len_eq] at outside; omega)
    exact ⟨rfl, _, lo, _, rfl, ⟨ok', knows.live⟩, fun _ => rfl, fun _ => id⟩
  | realloc ptr size granted =>
    obtain ⟨holds, bound⟩ := legal
    by_cases null : ptr = 0
    · obtain ⟨p, h, lo', rs', result, given⟩ := knows.ok.malloc bound (Nat.le_refl _) granted
      simp only [Client.step, Libc.realloc, null, if_true, result, Prod.mk.injEq] at stepped
      exact ⟨stepped.1 ▸ rfl, _, lo', rs', stepped.2 ▸ knows.hold given⟩
    by_cases empty : size = 0
    · subst empty
      simp only [Client.step, Libc.realloc, null, if_false, UInt32.toNat_zero, if_true, Prod.mk.injEq] at stepped
      obtain ⟨rs', follows⟩ := knows.free holds
      rw [← stepped.2]
      exact ⟨stepped.1 ▸ rfl, _, lo, rs', { follows with merged := fun ordered => follows.merged ordered.2 }⟩
    · have real : size.toNat ≠ 0 := fun zero => empty (UInt32.toNat_inj.mp zero)
      obtain ⟨before, r, after, m, rfl, isUsed, rfl⟩ := knows.split holds null
      obtain ⟨q, h, lo', rs', answer, moved⟩ := knows.ok.realloc isUsed real bound granted
      simp only [Client.step, answer, null, empty, if_false, Prod.mk.injEq] at stepped
      rcases moved with ⟨rfl, result⟩ | ⟨off, room, rfl, result, _⟩
      · obtain ⟨rest, was, is, _⟩ := result.change
        refine ⟨stepped.1 ▸ rfl, _, lo', rs', stepped.2.symm, ⟨result.ok, ?_⟩, result.start, fun _ => result.merged trivial⟩
        rw [if_pos rfl]
        exact knows.live.trans ((was.trans is.symm).map held)
      · obtain ⟨rest, was, is, _⟩ := result.change
        refine ⟨stepped.1 ▸ rfl, _, lo', rs', stepped.2.symm, ⟨result.ok, ?_⟩, result.start, fun behind merged => ?_⟩
        · rw [if_neg (by omega)]
          exact ((drop_perm knows.live was).cons _).trans (is.map held).symm
        · exact result.merged ⟨behind.1, (behind.2 null).backed knows⟩ merged

theorem Knows.initial {mem : Buf} (low : first < 4294967296) (aligned : first % 8 = 0) :
    Knows first first [] ⟨⟨mem, first, 0⟩, []⟩ :=
  ⟨⟨Nat.le_refl _, low, aligned, .inl rfl, (link_self _).symm, rfl, nofun⟩, .nil⟩

/-- A request that can be refused is refused, and nothing changes. -/
theorem Knows.refused (knows : Knows first lo rs use) (huge : Huge (some use) call) (refusable : Refusable first (some use) call) :
    Client.step (some use) call = (some 0, some use) := by
  obtain ⟨bound, refuses, obtained⟩ := refusable
  have obtained := obtained use rfl
  cases call with
  | malloc size granted =>
    subst refuses
    rw [Client.step, knows.ok.malloc_refused huge bound obtained]
    rfl
  | calloc nmemb size granted =>
    subst refuses
    rw [Client.step, knows.ok.calloc_refused huge.1 bound obtained]
    rfl
  | realloc ptr size granted =>
    subst refuses
    obtain ⟨holds, large⟩ := huge
    have real : size ≠ 0 := by
      rintro rfl
      cases large
    by_cases null : ptr = 0
    · simp only [Client.step, Libc.realloc, null, if_true, knows.ok.malloc_refused large bound obtained]
      rfl
    · obtain ⟨before, r, after, m, rfl, _, rfl⟩ := knows.split holds null
      simp only [Client.step, knows.ok.realloc_refused large bound obtained, null, real, if_false, if_true]
  | free ptr => cases huge
  | store address value => cases huge

theorem Knows.preserves {ptr ptr' : Nat} {size : UInt32} {granted : Bool} {use' : Client} (knows : Knows first lo rs use)
    (legal : Legal (some use) (.realloc ptr size granted))
    (stepped : Client.step (some use) (.realloc ptr size granted) = (some ptr', some use')) :
    use.Preserves use' ptr size.toNat ptr' := by
  intro notNull x known isPtr k inside
  obtain ⟨before, r, after, rfl, isUsed, pointer⟩ := knows.block known
  have position : ptr = lo + span header.len before + 16 := isPtr.symm.trans pointer
  subst position
  have nonzero : size.toNat ≠ 0 := by omega
  obtain ⟨q, h, lo', rs', result, moved⟩ := knows.ok.realloc isUsed nonzero legal.2 granted
  simp only [Client.step, result, Prod.mk.injEq, Option.some.injEq] at stepped
  obtain ⟨rfl, rfl⟩ := stepped
  obtain ⟨_, _, _, _, same⟩ := moved.resolve_left fun failed => notNull failed.1
  exact same k inside

/-- The state between calls. -/
def Good (first : Nat) (s : Option Client) : Prop := ∃ use lo rs, s = some use ∧ Knows first lo rs use

theorem Good.step {ans : Option Nat} (good : Good first s) (legal : Legal s call) (stepped : step s call = (ans, s')) :
    Good first s' := by
  obtain ⟨use, lo, rs, rfl, knows⟩ := good
  obtain ⟨_, use', lo', rs', follows⟩ := knows.step legal stepped
  exact ⟨use', lo', rs', follows.isState, follows.knows⟩

theorem Good.initial {mem : Buf} (low : first < 4294967296) (aligned : first % 8 = 0) : Good first (some ⟨⟨mem, first, 0⟩, []⟩) :=
  ⟨_, first, [], rfl, .initial low aligned⟩

end Client

/-- Every run of the allocator keeps the blocks it has handed out valid; no call fails to return; and `realloc` preserves
the bytes of its block. -/
theorem allocator_is_sound {first : Nat} {mem : Buf} {trace : List (Call × Option Nat)} {s : Option Client}
    (low : first < 4294967296) (aligned : first % 8 = 0)
    (run : Run Client.step Client.Legal (some ⟨⟨mem, first, 0⟩, []⟩) trace s) :
    ∃ use, s = some use ∧ use.Valid first ∧
      ∀ ptr size granted, ptr ≠ 0 → Client.Legal s (.realloc ptr size granted) →
        ∃ ptr' use', Client.step s (.realloc ptr size granted) = (some ptr', some use') ∧
          use.Preserves use' ptr size.toNat ptr' := by
  have good := run.invariant (I := Client.Good first) (fun good legal stepped => good.step legal stepped) (.initial low aligned)
  obtain ⟨use, lo, rs, rfl, knows⟩ := good
  refine ⟨use, rfl, knows.valid, fun ptr size granted real legal => ?_⟩
  obtain ⟨returns, use', _, _, follows⟩ := knows.step legal rfl
  obtain ⟨ptr', isAns⟩ := Option.isSome_iff_exists.mp returns
  have stepped : Client.step (some use) (.realloc ptr size granted) = (some ptr', some use') := Prod.ext isAns follows.isState
  exact ⟨ptr', use', stepped, knows.preserves legal stepped⟩

/-- Calls that split a block, move one, merge two, absorb one and fail for want of memory. -/
def sampleCalls : List Call :=
  [.malloc 100 true, .calloc 3 5 true, .store 8208 7, .realloc 8208 200 true, .free 8328, .free 0, .realloc 8360 300 true,
    .malloc 0x7FFFFFE0 false]

def sampleClient : Option Client := some ⟨⟨fun _ => 0, 8192, 0⟩, []⟩

theorem allocator_is_sound_sample : ∃ use, (execute Client.step sampleClient sampleCalls).2 = some use ∧ use.Valid 8192 := by
  have legal : AllAllowed Client.step Client.Legal sampleClient sampleCalls := by decide +kernel
  obtain ⟨use, isUse, valid, _⟩ :=
    allocator_is_sound (by decide) (by decide) (Run.of_execute sampleCalls legal)
  exact ⟨use, isUse, valid⟩

/-- Along every run, a request for more than `0x7FFFFFE0` bytes fails and changes nothing, if it does not wrap and `sbrk` refuses it;
and every walk over the list ends. -/
theorem huge_requests_fail {first : Nat} {mem : Buf} {trace : List (Call × Option Nat)} {s : Option Client}
    (low : first < 4294967296) (aligned : first % 8 = 0)
    (run : Run Client.step (fun s call => Client.Legal s call ∨ Client.Huge s call ∧ Client.Refusable first s call)
      (some ⟨⟨mem, first, 0⟩, []⟩) trace s) :
    ∃ use, s = some use ∧
      (∀ size, ∃ found, findFreeBlock walkLimit use.heap.mem use.heap.freeList size = some found) ∧
      (use.heap.freeList ≠ 0 → ∃ last, lastBlock walkLimit use.heap.mem use.heap.freeList = some last) ∧
      ∀ call, Client.Huge s call → Client.Refusable first s call → Client.step s call = (some 0, s) := by
  have good := run.invariant (I := Client.Good first) ?_ (.initial low aligned)
  · obtain ⟨use, lo, rs, rfl, knows⟩ := good
    refine ⟨use, rfl, fun size => ?_, fun nonempty => ?_, fun call huge refusable => knows.refused huge refusable⟩
    · rw [knows.ok.head, findFreeBlock_eq]
      rcases knows.ok.chain.search (a := size) knows.ok.low knows.ok.short with ⟨absent, _⟩ | ⟨_, _, _, _, _, _, found⟩
      · exact ⟨_, absent⟩
      · exact ⟨_, found⟩
    · have short := knows.ok.short
      rw [knows.ok.head] at nonempty ⊢
      rcases eq_nil_or_concat rs with rfl | ⟨before, r, rfl⟩
      · exact absurd (by rw [show lo = use.heap.brk from knows.ok.chain, link_self]) nonempty
      · rw [concat_eq_append] at *
        have inner : lo ≠ use.heap.brk := fun same => nonempty (by rw [same, link_self])
        rw [lastBlock_eq, link_of_ne inner]
        exact ⟨_, knows.ok.chain.last (by rw [length_append] at short; omega)⟩
  · rintro s s' call ans good (legal | ⟨huge, refusable⟩) stepped
    · exact good.step legal stepped
    · obtain ⟨use, lo, rs, rfl, knows⟩ := good
      rw [knows.refused huge refusable] at stepped
      cases stepped
      exact ⟨use, lo, rs, rfl, knows⟩

theorem huge_requests_fail_sample :
    Client.step (execute Client.step sampleClient sampleCalls).2 (.malloc 0xFFFFFFE8 false) =
      (some 0, (execute Client.step sampleClient sampleCalls).2) := by
  have legal : AllAllowed Client.step (fun s call => Client.Legal s call ∨ Client.Huge s call ∧ Client.Refusable 8192 s call)
      sampleClient sampleCalls := by decide +kernel
  obtain ⟨_, _, _, _, refused⟩ := huge_requests_fail (by decide) (by decide) (Run.of_execute sampleCalls legal)
  exact refused _ (by decide +kernel) (by decide +kernel)

/-- The sum of header and size wraps: the request is granted, and the split writes a header over the block itself, which then is its
own successor. -/
theorem huge_request_granted : Client.Huge sampleClient (.malloc 0xFFFFFFF0 true) ∧
    (Client.step sampleClient (.malloc 0xFFFFFFF0 true)).1 = some 8208 ∧
    ∀ use ∈ (Client.step sampleClient (.malloc 0xFFFFFFF0 true)).2,
      sizeOf use.heap.mem 8192 = 0xFFFFFFF0 ∧ nextOf use.heap.mem 8192 = 8192 := by
  decide +kernel

/-! ## Coalescing -/

/-- If blocks are given back only behind blocks in use, then memory that is all free is one block. -/
theorem freed_memory_coalesces {first : Nat} {mem : Buf} {trace : List (Call × Option Nat)} {s : Option Client}
    (low : first < 4294967296) (aligned : first % 8 = 0) (real : 0 < first)
    (run : Run Client.step (fun s call => Client.Legal s call ∧ Client.Ordered s call) (some ⟨⟨mem, first, 0⟩, []⟩) trace s) :
    ∃ use, s = some use ∧ (use.live = [] →
      (use.headers = [] ∧ use.heap.brk = first) ∨
        (use.headers = [first] ∧ isFree use.heap.mem first ∧ first + headerSize + sizeOf use.heap.mem first = use.heap.brk)) := by
  have good := run.invariant (I := fun s => ∃ use rs, s = some use ∧ Client.Knows first first rs use ∧ Merged rs) ?_
    ⟨_, [], rfl, .initial low aligned, .nil⟩
  · obtain ⟨use, rs, rfl, knows, merged⟩ := good
    refine ⟨use, rfl, fun nothing => ?_⟩
    have unused : header.inUse first rs = [] := by
      have live := knows.live
      rw [nothing] at live
      exact map_eq_nil_iff.mp live.nil_eq.symm
    have headers := knows.headers_eq
    have chain := knows.ok.chain
    rcases merged.single unused with rfl | ⟨r, rfl, isFree⟩
    · exact .inl ⟨headers, (show first = use.heap.brk from chain).symm⟩
    · obtain ⟨stored, ends⟩ := chain
      have ends : first + header.len r = use.heap.brk := ends
      have size : sizeOf use.heap.mem first = r.size := stored.size
      refine .inr ⟨headers, stored.free.trans (by rw [isFree]; rfl), ?_⟩
      rw [size, ← ends, Nat.add_assoc]
      rfl
  · rintro s s' call ans ⟨use, rs, rfl, knows, merged⟩ ⟨legal, ordered⟩ stepped
    obtain ⟨_, use', lo', rs', follows⟩ := knows.step legal stepped
    obtain rfl := follows.start real
    exact ⟨use', rs', follows.isState, follows.knows, follows.merged ⟨real, ordered⟩ merged⟩

/-- Two blocks, given back from the second on. -/
def orderedCalls : List Call := [.malloc 100 true, .malloc 100 true, .free 8328, .free 8208]

theorem freed_memory_coalesces_sample : ∃ use, (execute Client.step sampleClient orderedCalls).2 = some use ∧ use.headers = [8192] := by
  have legal : AllAllowed Client.step (fun s call => Client.Legal s call ∧ Client.Ordered s call) sampleClient orderedCalls := by
    decide +kernel
  obtain ⟨use, isUse, one⟩ := freed_memory_coalesces (by decide) (by decide) (by decide) (Run.of_execute orderedCalls legal)
  have live : ∀ x ∈ (execute Client.step sampleClient orderedCalls).2, x.live = [] ∧ x.heap.brk ≠ 8192 := by decide +kernel
  obtain ⟨nothing, more⟩ := live use isUse
  rcases one nothing with ⟨_, none⟩ | ⟨headers, _⟩
  · exact absurd none more
  · exact ⟨use, isUse, headers⟩

/-- Given back from the first on, the two blocks stay two: `free` looks at the next block only. -/
theorem freed_memory_stays_split :
    AllAllowed Client.step Client.Legal sampleClient [.malloc 100 true, .malloc 100 true, .free 8208, .free 8328] ∧
      ∀ use ∈ (execute Client.step sampleClient [.malloc 100 true, .malloc 100 true, .free 8208, .free 8328]).2,
        use.live = [] ∧ use.headers = [8192, 8312] ∧ ∀ block ∈ use.headers, isFree use.heap.mem block := by
  decide +kernel

end GinnOS.Libc
