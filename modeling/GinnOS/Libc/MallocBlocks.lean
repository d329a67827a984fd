import GinnOS.Lib.Blocks
import GinnOS.Libc.Malloc

/-! # The block list of the user allocator

The list is in the order of addresses and has no gaps: it starts at the first break and ends at
the present one.  Each call edits it inside the span of a few blocks, or appends to it.
-/

namespace GinnOS.Libc

open Lib Lib.Buf Lib.Header

/-- The header of `block_header_t`. -/
def header : Header where
  width := headerSize
  size := sizeOf
  free := isFree
  next := nextOf
  positive := by decide
  size_congr agree := word_congr (agree.mono (Nat.le_refl _) (by simp only [headerSize]; omega))
  free_congr agree := by
    rw [isFree, isFree, word_congr (agree.mono (by omega) (by simp only [headerSize]; omega))]
  next_congr agree := word_congr (agree.mono (by omega) (by simp only [headerSize]; omega))

abbrev fields : Fields where
  toHeader := header
  setSize := setSize
  setFree := setFree
  setNext := setNext
  setSize_within := within_splice 0 4 headerSize (by decide)
  setFree_within := within_splice 8 4 headerSize (by decide)
  setNext_within := within_splice 4 4 headerSize (by decide)
  size_setSize bound := word_setWord _ _ bound
  size_setFree := word_setWord_apart _ _ (by omega)
  size_setNext := word_setWord_apart _ _ (by omega)
  free_setSize {_ _ n} := congrArg (· != 0) (word_setWord_apart _ n (by omega))
  free_setFree {_ _ f} := by
    cases f <;> simp only [header, isFree, setFree] <;> rw [word_setWord _ _ (by decide)] <;> rfl
  free_setNext {_ _ n} := congrArg (· != 0) (word_setWord_apart _ n (by omega))
  next_setSize := word_setWord_apart _ _ (by omega)
  next_setFree := word_setWord_apart _ _ (by omega)
  next_setNext bound := word_setWord _ _ bound

/-! ## Walks -/

theorem findFreeBlock_eq (fuel : Nat) (mem : Buf) (current size : Nat) :
    findFreeBlock fuel mem current size = header.search fuel mem current size := by
  induction fuel generalizing current with
  | zero => rfl
  | succ fuel ih =>
    rw [findFreeBlock, ih]
    rfl

theorem lastBlock_eq (fuel : Nat) (mem : Buf) (current : Nat) : lastBlock fuel mem current = header.last fuel mem current := by
  induction fuel generalizing current with
  | zero => rfl
  | succ fuel ih =>
    rw [lastBlock, ih]
    rfl

/-! ## Edits of the list -/

section Edits

variable {mem mem' : Buf} {stop lo off a n : Nat} {r x : Block} {before after : List Block}

theorem len_eq (r : Block) : header.len r = 16 + r.size := rfl

theorem width_eq : header.width = 16 := rfl

/-- `split_block` inside a list, in arithmetic that does not wrap. -/
theorem splitBlock_chain (chain : header.Chain mem stop lo stop (before ++ r :: after)) (top : stop < 4294967296)
    (fits : a ≤ r.size) (small : a ≤ 2147483616) (room : ∀ m ∈ r.use, m ≤ a) (isOff : lo + span header.len before = off) :
    header.Chain (splitBlock mem off a) stop lo stop (before ++ (header.cut 8 r a r.use ++ after)) ∧
      ∀ k, k < off ∨ off + 16 ≤ k ∧ k < off + 16 + a ∨ off + header.len r ≤ k → splitBlock mem off a k = mem k := by
  obtain ⟨stored, inside⟩ := chain.at
  rw [isOff] at stored inside
  have size : sizeOf mem off = r.size := stored.size
  have linked : nextOf mem off = link stop (off + (16 + r.size)) := stored.next
  have bound := link_le stop (off + (16 + r.size))
  rw [len_eq] at inside
  have least : (a + headerSize + 8) % 4294967296 = a + 16 + 8 := by
    simp only [headerSize]
    omega
  refine fields.split_chain 8 (setFree (setNext (setSize mem (off + 16 + a) (r.size - a - 16)) (off + 16 + a) (nextOf mem off))
    (off + 16 + a) true) chain top fits room isOff rfl (fun big => ⟨?_, ?_, fields.free_setFree, ?_, nofun⟩) ?_
  · exact fun k outside => (fields.setFree_within k outside).trans
      ((fields.setNext_within k outside).trans (fields.setSize_within k outside))
  · exact fields.size_setFree.trans (fields.size_setNext.trans (fields.size_setSize (by omega)))
  · refine fields.next_setFree.trans ((fields.next_setNext (by omega)).trans ?_)
    rw [linked, len_eq]
    simp only [width_eq] at big ⊢
    congr 1
    omega
  · rw [splitBlock, size, least]
    by_cases big : a + 16 + 8 ≤ r.size
    · have position : (off + headerSize + a) % 4294967296 = off + 16 + a := by
        simp only [headerSize]
        omega
      have rest : minus (minus r.size a) headerSize = r.size - a - 16 := by
        simp only [minus, headerSize]
        omega
      have oldNext : nextOf (setSize mem (off + 16 + a) (r.size - a - 16)) off = nextOf mem off :=
        word_setWord_apart _ _ (by omega)
      refine Eq.trans ?_ (if_pos big).symm
      rw [if_neg (Nat.not_lt.mpr big), position, rest]
      simp only [oldNext]
      rfl
    · exact (if_pos (Nat.lt_of_not_le big)).trans (if_neg big).symm

theorem absorbNext_chain (chain : header.Chain mem stop lo stop (before ++ r :: x :: after)) (top : stop < 4294967296)
    (isOff : lo + span header.len before = off) :
    header.Chain (absorbNext mem off) stop lo stop (before ++ ⟨r.size + 16 + x.size, r.use⟩ :: after) ∧
      Within off (off + 16) mem (absorbNext mem off) := by
  obtain ⟨next, storedNext⟩ := fields.next_at chain
  obtain ⟨stored, _⟩ := chain.at
  have ends := chain.end_eq
  have absorbed := fields.absorb_chain chain top
  rw [isOff] at next storedNext stored absorbed
  simp only [span_append, span_cons] at ends
  have sizes : sizeOf mem off = r.size ∧ sizeOf mem (off + header.len r) = x.size := ⟨stored.size, storedNext.size⟩
  have wide : header.len r = 16 + r.size ∧ header.len x = 16 + x.size := ⟨rfl, rfl⟩
  have sum : (r.size + headerSize + x.size) % 4294967296 = r.size + 16 + x.size := by
    simp only [headerSize]
    omega
  have nextNext : nextOf (setSize mem off (r.size + 16 + x.size)) (off + header.len r) =
      link stop (off + header.len r + header.len x) :=
    (word_setWord_apart _ _ (by omega)).trans storedNext.next
  have result : absorbNext mem off =
      setNext (setSize mem off (r.size + 16 + x.size)) off (link stop (off + header.len r + header.len x)) := by
    rw [absorbNext, show nextOf mem off = _ from next, sizes.1, sizes.2, sum, nextNext]
  rw [result]
  exact ⟨absorbed, fun k outside => (fields.setNext_within k outside).trans (fields.setSize_within k outside)⟩

end Edits

end GinnOS.Libc
