import GinnOS.Lib.Blocks
import GinnOS.Lib.Run
import GinnOS.Memory.Heap

/-! # The block list tiles the heap

The headers of the block list, read in list order, are the records of a tiling of
`[start, stop)`: each one points to the position where it ends, the last one nowhere.
Every heap function edits the tiling inside the span of a few blocks (or behind the last), and
the lemmas below say what list of blocks it leaves.
-/

namespace GinnOS.Memory

open Lib Lib.Buf Lib.Header List

/-- What a header says about its block. -/
structure Block where
  size : Nat
  free : Bool
  deriving DecidableEq

def Block.len (r : Block) : Nat := headerSize + r.size

/-- The link to a position of the region: the end of the region is not linked to. -/
def linkTo (stop off : Nat) : Nat := if off = stop then 0 else off

/-- The header of `r` is stored at `off`. -/
structure BlockAt (mem : Buf) (stop off : Nat) (r : Block) : Prop where
  size : blockSize mem off = r.size
  free : blockFree mem off = r.free
  next : blockNext mem off = linkTo stop (off + r.len)

abbrev Chain (mem : Buf) (stop lo hi : Nat) (rs : List Block) : Prop :=
  Tiles Block.len (BlockAt mem stop) lo hi rs

def usedAt : Nat → List Block → List Nat
  | _, [] => []
  | off, r :: rs =>
    if r.free then usedAt (off + r.len) rs else (off + headerSize) :: usedAt (off + r.len) rs

/-! ## Headers -/

theorem blockSize_congr {m m' : Buf} {off : Nat} (agree : AgreeOn off (off + headerSize) m m') : blockSize m off = blockSize m' off :=
  word_congr (agree.mono (Nat.le_refl _) (by simp only [headerSize]; omega))

theorem blockFree_congr {m m' : Buf} {off : Nat} (agree : AgreeOn off (off + headerSize) m m') : blockFree m off = blockFree m' off := by
  rw [blockFree, blockFree, agree _ (by omega) (by simp only [headerSize]; omega)]

theorem blockNext_congr {m m' : Buf} {off : Nat} (agree : AgreeOn off (off + headerSize) m m') : blockNext m off = blockNext m' off :=
  word_congr (agree.mono (by omega) (by simp only [headerSize]; omega))

/-- The header of `heap_block_t`. -/
def blockHeader : Header where
  width := headerSize
  size := blockSize
  free := blockFree
  next := blockNext
  positive := by decide
  size_congr := blockSize_congr
  free_congr := blockFree_congr
  next_congr := blockNext_congr

abbrev blockFields : Fields where
  toHeader := blockHeader
  setSize := setSize
  setFree := setFree
  setNext := setNext
  setSize_within := Header.within_splice 0 4 headerSize (by decide)
  setFree_within {mem b _} := show Header.Within b _ mem (put8 mem (b + 4) _) from Header.within_splice 4 1 headerSize (by decide)
  setNext_within := Header.within_splice 8 4 headerSize (by decide)
  size_setSize bound := word_setWord _ _ bound
  size_setFree := word_congr fun _ _ h => put8_other (Nat.ne_of_lt h)
  size_setNext := word_setWord_apart _ _ (.inl (Nat.le_add_right _ 4))
  free_setSize {_ _ n} := congrArg (· != 0) (put32_outside (.inr (Nat.le_refl _)))
  free_setFree {_ _ f} := by cases f <;> simp [blockHeader, blockFree, setFree]
  free_setNext {_ _ n} := congrArg (· != 0) (put32_outside (.inl (Nat.le_add_right _ 3)))
  next_setSize := word_setWord_apart _ _ (.inr (Nat.le_add_right _ 4))
  next_setFree := word_congr fun _ h _ => put8_other (Nat.ne_of_gt (Nat.le_trans (Nat.le_add_right _ 3) h))
  next_setNext bound := word_setWord _ _ bound

section Chains

variable {mem : Buf} {stop lo hi off a n fuel : Nat} {r : Lib.Block} {rs before after : List Lib.Block}

theorem len_eq (r : Lib.Block) : blockHeader.len r = 12 + r.size := rfl

theorem width_eq : blockHeader.width = 12 := rfl

/-- A block without what it is used for. -/
def seen (r : Lib.Block) : Block := ⟨r.size, r.use.isNone⟩

theorem chain_seen (chain : blockHeader.Chain mem stop lo hi rs) : Chain mem stop lo hi (rs.map seen) := by
  induction rs generalizing lo with
  | nil => exact chain
  | cons r rs ih => exact ⟨⟨chain.1.size, chain.1.free, chain.1.next⟩, ih chain.2⟩

/-- The pointers that clients have to the blocks in use. -/
def pointers (lo : Nat) (rs : List Lib.Block) : List Nat := (blockHeader.inUse lo rs).map fun at_ => at_.1 + headerSize

theorem usedAt_seen (lo : Nat) (rs : List Lib.Block) : usedAt lo (rs.map seen) = pointers lo rs := by
  induction rs generalizing lo with
  | nil => rfl
  | cons r rs ih =>
    have rest : usedAt (lo + (seen r).len) (rs.map seen) = pointers (lo + blockHeader.len r) rs := ih _
    rw [map_cons, usedAt, rest]
    cases isUsed : r.use with
    | none => rw [if_pos (by simp [seen, isUsed]), pointers, pointers, inUse_free isUsed]
    | some m => rw [if_neg (by simp [seen, isUsed]), pointers, pointers, inUse_cons (by rw [isUsed]; rfl), map_cons]

theorem newBlock_within : Within off (off + 12) mem (newBlock mem off n) := fun k outside =>
  (blockFields.setNext_within k outside).trans
    ((blockFields.setFree_within k outside).trans (blockFields.setSize_within k outside))

theorem newBlock_at (bound : n < 4294967296) (ends : off + (12 + n) = stop) :
    blockHeader.At (newBlock mem off n) stop off ⟨n, none⟩ := by
  refine ⟨?_, ?_, ?_, nofun⟩
  · exact blockFields.size_setNext.trans (blockFields.size_setFree.trans (blockFields.size_setSize bound))
  · exact blockFields.free_setNext.trans blockFields.free_setFree
  · refine (blockFields.next_setNext (by omega)).trans ?_
    rw [len_eq, ends, link_self]

/-! ## Edits of the tiling -/

/-- `heap_split` inside a list, in arithmetic that does not wrap. -/
theorem heapSplit_chain (chain : blockHeader.Chain mem stop lo stop (before ++ r :: after)) (top : stop ≤ 4294963200)
    (fits : a ≤ r.size) (room : ∀ m ∈ r.use, m ≤ a) (isOff : lo + span blockHeader.len before = off) :
    blockHeader.Chain (heapSplit mem off a) stop lo stop (before ++ (blockHeader.cut 16 r a r.use ++ after)) ∧
      ∀ k, k < off ∨ off + 12 ≤ k ∧ k < off + 12 + a ∨ off + blockHeader.len r ≤ k → heapSplit mem off a k = mem k := by
  obtain ⟨stored, inside⟩ := chain.at
  rw [isOff] at stored inside
  have size : blockSize mem off = r.size := stored.size
  have linked : blockNext mem off = link stop (off + (12 + r.size)) := stored.next
  have bound := link_le stop (off + (12 + r.size))
  rw [len_eq] at inside
  have least : (a + headerSize + 16) % 4294967296 = a + 12 + 16 := by
    simp only [headerSize]
    omega
  refine blockFields.split_chain 16 (setNext (setFree (setSize mem (off + 12 + a) (r.size - a - 12)) (off + 12 + a) true)
    (off + 12 + a) (blockNext mem off)) chain (by omega) fits room isOff rfl (fun big => ⟨?_, ?_, ?_, ?_, nofun⟩) ?_
  · exact fun k outside => (blockFields.setNext_within k outside).trans
      ((blockFields.setFree_within k outside).trans (blockFields.setSize_within k outside))
  · exact blockFields.size_setNext.trans (blockFields.size_setFree.trans (blockFields.size_setSize (by omega)))
  · exact blockFields.free_setNext.trans blockFields.free_setFree
  · refine (blockFields.next_setNext (by omega)).trans ?_
    rw [linked, len_eq]
    simp only [width_eq] at big ⊢
    congr 1
    omega
  · rw [heapSplit, size, least]
    by_cases big : a + 12 + 16 ≤ r.size
    · have position : (off + headerSize + a) % 4294967296 = off + 12 + a := by
        simp only [headerSize]
        omega
      have rest : sub32 (sub32 r.size a) headerSize = r.size - a - 12 := by
        simp only [sub32, headerSize]
        omega
      have oldNext : blockNext (setFree (setSize mem (off + 12 + a) (r.size - a - 12)) (off + 12 + a) true) off = blockNext mem off :=
        blockFields.next_congr fun k _ upper => (blockFields.setFree_within k (.inl (by simp only [width_eq] at upper; omega))).trans
          (blockFields.setSize_within k (.inl (by simp only [width_eq] at upper; omega)))
      refine Eq.trans ?_ (if_pos big).symm
      rw [if_pos big, position, rest]
      simp only [oldNext]
      rfl
    · exact (if_neg big).trans (if_neg big).symm

/-- The loop takes in all free blocks that follow. -/
theorem heapCoalesce_chain (chain : blockHeader.Chain mem stop lo stop (before ++ r :: after)) (top : stop ≤ 4294963200)
    (enough : after.length < fuel) (isOff : lo + span blockHeader.len before = off) :
    ∃ mem' size gone rest, heapCoalesce fuel mem off = some mem' ∧ after = gone ++ rest ∧ (∀ x ∈ gone, x.use = none) ∧
      (∀ y ∈ rest.head?, y.use.isSome) ∧ 12 + size = span blockHeader.len (r :: gone) ∧
      blockHeader.Chain mem' stop lo stop (before ++ ⟨size, r.use⟩ :: rest) ∧ Within off (off + 12) mem mem' := by
  -- each round takes the first block of `after` into `r`
  induction after generalizing mem r fuel with
  | nil =>
    obtain _ | fuel := fuel
    · cases enough
    obtain ⟨_, stored, ends⟩ := tiles_append.mp chain
    rw [isOff] at stored ends
    have noNext : blockNext mem off = 0 := by
      refine stored.next.trans ?_
      rw [tiles_nil.mp ends, link_self]
    exact ⟨mem, r.size, [], [], by simp [heapCoalesce, noNext], rfl, nofun, nofun, by simp [len_eq], chain, fun _ _ => rfl⟩
  | cons x after ih =>
    obtain _ | fuel := fuel
    · cases enough
    obtain ⟨next, storedNext⟩ := blockFields.next_at chain
    obtain ⟨stored, _⟩ := chain.at
    have ends := chain.end_eq
    have absorbed := blockFields.absorb_chain chain (by omega)
    rw [isOff] at next storedNext stored absorbed
    simp only [span_append, span_cons, len_eq] at ends
    have next : blockNext mem off = off + blockHeader.len r := next
    have flag : blockFree mem (off + blockHeader.len r) = x.use.isNone := storedNext.free
    cases isFree : x.use with
    | some m =>
      refine ⟨mem, r.size, [], x :: after, ?_, rfl, nofun, fun y isNext => ?_, by simp [len_eq], chain, fun _ _ => rfl⟩
      · simp [heapCoalesce, next, flag, isFree]
      · cases isNext
        rw [isFree]
        rfl
    | none =>
      obtain ⟨mem', size, gone, rest, coalesced, rfl, free, late, spans, chain', within⟩ := ih absorbed (Nat.lt_of_succ_lt_succ enough)
      have sizes : blockSize mem off = r.size ∧ blockSize mem (off + blockHeader.len r) = x.size := ⟨stored.size, storedNext.size⟩
      have sum : (r.size + headerSize + x.size) % 4294967296 = r.size + blockHeader.width + x.size :=
        Nat.mod_eq_of_lt (by simp only [headerSize]; omega)
      have nextNext : blockNext (setSize mem off (r.size + blockHeader.width + x.size)) (off + blockHeader.len r) =
          link stop (off + blockHeader.len r + blockHeader.len x) :=
        (word_setWord_apart _ _ (by rw [len_eq]; omega)).trans storedNext.next
      refine ⟨mem', size, x :: gone, rest, ?_, rfl, forall_mem_cons.mpr ⟨isFree, free⟩, late, ?_, chain', fun k outside => ?_⟩
      · rw [heapCoalesce, next, flag, isFree, if_pos ⟨by rw [len_eq]; omega, rfl⟩, sizes.1, sizes.2, sum]
        dsimp only
        rw [nextNext]
        exact coalesced
      · rw [spans]
        simp only [span_cons, len_eq, width_eq]
        omega
      · exact (within k outside).trans ((blockFields.setNext_within k outside).trans (blockFields.setSize_within k outside))

/-! ## Walks -/

theorem firstFit_eq (fuel : Nat) (mem : Buf) (current size : Nat) :
    firstFit fuel mem current size = blockHeader.search fuel mem current size := by
  induction fuel generalizing current with
  | zero => rfl
  | succ fuel ih =>
    rw [firstFit, ih]
    rfl

theorem lastBlock_eq (fuel : Nat) (mem : Buf) (current : Nat) : lastBlock fuel mem current = blockHeader.last fuel mem current := by
  induction fuel generalizing current with
  | zero => rfl
  | succ fuel ih =>
    rw [lastBlock, ih]
    rfl

/-- The walk stops at the block that ends at `off`, or past the last one. -/
theorem prevBlock_eq (chain : blockHeader.Chain mem stop lo stop rs) (low : 0 < lo) (inside : off < stop) (real : 0 < off)
    (enough : rs.length < fuel) : prevBlock fuel mem (link stop lo) off =
      some (((blockHeader.placed lo rs).find? fun at_ => at_.1 + blockHeader.len at_.2 = off).elim 0 Prod.fst) := by
  induction rs generalizing lo fuel with
  | nil =>
    obtain _ | fuel := fuel
    · cases enough
    rw [tiles_nil.mp chain, link_self]
    rfl
  | cons r rs ih =>
    obtain _ | fuel := fuel
    · cases enough
    rw [link_of_ne chain.inner]
    obtain ⟨stored, rest⟩ := chain
    have next : blockNext mem lo = link stop (lo + blockHeader.len r) := stored.next
    rw [prevBlock, next, placed, find?_cons]
    by_cases here : lo + blockHeader.len r = off
    · rw [if_neg (by rw [here, link_of_ne (by omega)]; simp), decide_eq_true here]
      rfl
    · have elsewhere : link stop (lo + blockHeader.len r) ≠ off := by
        unfold link
        split
        · omega
        · exact here
      rw [if_pos ⟨by omega, elsewhere⟩, decide_eq_false here]
      exact ih rest (by omega) (Nat.lt_of_succ_lt_succ enough)

/-- The block before `r` is the last of `before`. -/
theorem prevBlock_chain (chain : blockHeader.Chain mem stop lo stop (before ++ r :: after)) (low : 0 < lo)
    (enough : (before ++ r :: after).length < fuel) :
    (before = [] ∧ prevBlock fuel mem lo (lo + span blockHeader.len before) = some 0) ∨
      ∃ init p, before = init ++ [p] ∧
        prevBlock fuel mem lo (lo + span blockHeader.len before) = some (lo + span blockHeader.len init) := by
  have inside := chain.at.2
  have inner : lo ≠ stop := by
    rw [len_eq] at inside
    omega
  have below : lo + span blockHeader.len before < stop := by
    rw [len_eq] at inside
    omega
  have walked := prevBlock_eq chain low below (by omega) enough
  rw [link_of_ne inner] at walked
  rw [walked]
  rcases eq_nil_or_concat before with rfl | ⟨init, p, rfl⟩
  · refine .inl ⟨rfl, ?_⟩
    rw [find?_eq_none.mpr]
    · rfl
    · intro at_ known same
      have bounds := (placed_bounds known).1
      have ends := of_decide_eq_true same
      rw [span_nil, len_eq] at ends
      omega
  · rw [concat_eq_append]
    refine .inr ⟨init, p, rfl, ?_⟩
    rw [append_assoc, placed_append, find?_append, find?_eq_none.mpr]
    · rw [singleton_append, placed, find?_cons_of_pos (by simp [Nat.add_assoc])]
      rfl
    · intro at_ known same
      have bounds := (placed_bounds known).2
      have ends := of_decide_eq_true same
      simp only [span_append, span_cons, span_nil, len_eq p] at ends
      omega

end Chains

end GinnOS.Memory
