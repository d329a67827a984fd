import GinnOS.Lib.Buffer
import GinnOS.Lib.Tiling
import Mathlib.Data.List.Chain
import Mathlib.Data.List.Perm.Basic

/-! # Block lists with headers in memory

A region of memory is cut into blocks, each behind a header that holds its size, whether it is
free and the address of the next header.  `Header` says how the fields are read and `Fields` how they are
written; a read depends on the bytes of its header only.  The blocks of a list tile the region (`Chain`), so a
change inside the span of some blocks leaves the others (`Chain.exchange`), and walks along the links visit the
blocks in the order of their addresses.  What happens to the blocks in use is a `Change`: some are gone, some are fresh, and the
others keep their data.

A block in use also has the number of bytes that were asked for.  It is not stored: it says what the
block is for.
-/

namespace Lib

open Buf List

/-- How the header of a block is read. -/
structure Header where
  width : Nat
  size : Buf → Nat → Nat
  free : Buf → Nat → Bool
  next : Buf → Nat → Nat
  positive : 0 < width
  size_congr : ∀ {mem mem' b}, AgreeOn b (b + width) mem' mem → size mem' b = size mem b
  free_congr : ∀ {mem mem' b}, AgreeOn b (b + width) mem' mem → free mem' b = free mem b
  next_congr : ∀ {mem mem' b}, AgreeOn b (b + width) mem' mem → next mem' b = next mem b

structure Block where
  size : Nat
  /-- the bytes asked for, if the block is in use -/
  use : Option Nat

namespace Header

/-- The link to a position of the region: its end is not linked to. -/
def link (stop off : Nat) : Nat := if off = stop then 0 else off

@[simp] theorem link_self (stop : Nat) : link stop stop = 0 := if_pos rfl

theorem link_of_ne {stop off : Nat} (inner : off ≠ stop) : link stop off = off := if_neg inner

theorem link_le (stop off : Nat) : link stop off ≤ off := by
  unfold link
  split
  · exact Nat.zero_le off
  · exact Nat.le_refl off

variable (H : Header)

def len (r : Block) : Nat := H.width + r.size

/-- The header of `r` is stored at `off`. -/
structure At (mem : Buf) (stop off : Nat) (r : Block) : Prop where
  size : H.size mem off = r.size
  free : H.free mem off = r.use.isNone
  next : H.next mem off = link stop (off + H.len r)
  room : ∀ n ∈ r.use, n ≤ r.size

abbrev Chain (mem : Buf) (stop lo hi : Nat) (rs : List Block) : Prop := Tiles H.len (H.At mem stop) lo hi rs

def placed : Nat → List Block → List (Nat × Block)
  | _, [] => []
  | off, r :: rs => (off, r) :: placed (off + H.len r) rs

/-- The blocks in use, with their positions. -/
def inUse (lo : Nat) (rs : List Block) : List (Nat × Block) := (H.placed lo rs).filter fun at_ => at_.2.use.isSome

/-- From one list to another: the blocks `gone` were in use, the blocks `fresh` are, and the others stay where they are and keep
their data. -/
def Change (lo : Nat) (rs : List Block) (mem : Buf) (lo' : Nat) (rs' : List Block) (mem' : Buf) (gone fresh : List (Nat × Block)) : Prop :=
  ∃ rest, (H.inUse lo rs).Perm (gone ++ rest) ∧ (H.inUse lo' rs').Perm (fresh ++ rest) ∧
    ∀ at_ ∈ rest, AgreeOn (at_.1 + H.width) (at_.1 + H.len at_.2) mem' mem

/-- What a request for `size` bytes is answered with: null, or the data of a fresh block with the room. -/
def Hands (p size n : Nat) (fresh : List (Nat × Block)) : Prop :=
  (p = 0 ∧ fresh = []) ∨ ∃ off room, p = off + H.width ∧ size ≤ room ∧ fresh = [(off, ⟨room, some n⟩)]

/-- The blocks that a cut of `r` after `a` bytes leaves, if the second is not to be smaller than `least`. -/
def cut (least : Nat) (r : Block) (a : Nat) (use : Option Nat) : List Block :=
  if a + H.width + least ≤ r.size then [⟨a, use⟩, ⟨r.size - a - H.width, none⟩] else [⟨r.size, use⟩]

/-- The first free block with room from `current` on, or `some none` at the end of the list. -/
def search : (fuel : Nat) → (mem : Buf) → (current size : Nat) → Option (Option Nat)
  | 0, _, _, _ => none
  | fuel + 1, mem, current, size =>
    if current = 0 then some none
    else if H.free mem current ∧ size ≤ H.size mem current then some (some current)
    else search fuel mem (H.next mem current) size

def last : (fuel : Nat) → (mem : Buf) → (current : Nat) → Option Nat
  | 0, _, _ => none
  | fuel + 1, mem, current =>
    if H.next mem current ≠ 0 then last fuel mem (H.next mem current) else some current

def walk : (fuel : Nat) → (mem : Buf) → (current : Nat) → List Nat
  | 0, _, _ => []
  | fuel + 1, mem, current => if current = 0 then [] else current :: walk fuel mem (H.next mem current)

variable {H} {mem mem' mem'' : Buf} {stop stop' lo lo' lo'' hi off a n p size : Nat} {r x : Block}
  {rs rs' rs'' before after : List Block} {gone fresh middle : List (Nat × Block)} {y z : Nat × Block}

theorem At.congr (stored : H.At mem stop off r) (agree : AgreeOn off (off + H.width) mem' mem) : H.At mem' stop off r :=
  ⟨(H.size_congr agree).trans stored.size, (H.free_congr agree).trans stored.free,
    (H.next_congr agree).trans stored.next, stored.room⟩

/-! ## Positions -/

theorem width_le (r : Block) : H.width ≤ H.len r := Nat.le_add_right ..

theorem placed_append (lo : Nat) (rs ts : List Block) :
    H.placed lo (rs ++ ts) = H.placed lo rs ++ H.placed (lo + span H.len rs) ts := by
  induction rs generalizing lo with
  | nil => simp [placed]
  | cons r rs ih => simp [placed, ih, Nat.add_assoc]

theorem placed_bounds {at_ : Nat × Block} (inside : at_ ∈ H.placed lo rs) :
    lo ≤ at_.1 ∧ at_.1 + H.len at_.2 ≤ lo + span H.len rs := by
  induction rs generalizing lo with
  | nil => cases inside
  | cons r rs ih =>
    rw [span_cons]
    rcases mem_cons.mp inside with rfl | later
    · exact ⟨Nat.le_refl lo, by simp only; omega⟩
    · obtain ⟨lower, upper⟩ := ih later
      exact ⟨by omega, by omega⟩

theorem mem_placed {at_ : Nat × Block} : at_ ∈ H.placed lo rs ↔
    ∃ before after, rs = before ++ at_.2 :: after ∧ at_.1 = lo + span H.len before := by
  constructor
  · intro inside
    induction rs generalizing lo with
    | nil => cases inside
    | cons r rs ih =>
      rcases mem_cons.mp inside with rfl | later
      · exact ⟨[], rs, rfl, rfl⟩
      · obtain ⟨before, after, rfl, position⟩ := ih later
        exact ⟨r :: before, after, rfl, by rw [position, span_cons, Nat.add_assoc]⟩
  · rintro ⟨before, after, rfl, position⟩
    rw [placed_append, ← position]
    exact mem_append_right _ mem_cons_self

theorem placed_disjoint {x y : Nat × Block} (first : x ∈ H.placed lo rs) (second : y ∈ H.placed lo rs) :
    x = y ∨ x.1 + H.len x.2 ≤ y.1 ∨ y.1 + H.len y.2 ≤ x.1 := by
  induction rs generalizing lo with
  | nil => cases first
  | cons r rs ih =>
    rcases mem_cons.mp first with rfl | later
    · rcases mem_cons.mp second with rfl | behind
      · exact .inl rfl
      · exact .inr (.inl (placed_bounds behind).1)
    · rcases mem_cons.mp second with rfl | behind
      · exact .inr (.inr (placed_bounds later).1)
      · exact ih later behind

theorem mem_inUse {at_ : Nat × Block} : at_ ∈ H.inUse lo rs ↔ at_ ∈ H.placed lo rs ∧ at_.2.use.isSome := mem_filter

theorem inUse_append (lo : Nat) (rs ts : List Block) :
    H.inUse lo (rs ++ ts) = H.inUse lo rs ++ H.inUse (lo + span H.len rs) ts := by
  simp only [inUse, placed_append, filter_append]

@[simp] theorem inUse_nil (lo : Nat) : H.inUse lo [] = [] := rfl

theorem inUse_free (isFree : r.use = none) (lo : Nat) (rs : List Block) :
    H.inUse lo (r :: rs) = H.inUse (lo + H.len r) rs := by
  simp [inUse, placed, isFree]

theorem inUse_cons (isUsed : r.use.isSome) (lo : Nat) (rs : List Block) :
    H.inUse lo (r :: rs) = (lo, r) :: H.inUse (lo + H.len r) rs := by
  simp [inUse, placed, isUsed]

theorem inUse_all_free (free : ∀ r ∈ rs, r.use = none) (lo : Nat) : H.inUse lo rs = [] := by
  refine filter_eq_nil_iff.mpr fun at_ inside => ?_
  obtain ⟨_, _, rfl, _⟩ := mem_placed.mp inside
  simp [free at_.2 (mem_append_right _ mem_cons_self)]

theorem inUse_at (isUsed : r.use.isSome) : (lo + span H.len before, r) ∈ H.inUse lo (before ++ r :: after) :=
  mem_inUse.mpr ⟨mem_placed.mpr ⟨before, after, rfl, rfl⟩, isUsed⟩

theorem inUse_distinct (lo : Nat) (rs : List Block) : (H.inUse lo rs).Pairwise fun x y => x.1 ≠ y.1 := by
  refine Pairwise.filter _ ?_
  induction rs generalizing lo with
  | nil => exact .nil
  | cons r rs ih =>
    refine pairwise_cons.mpr ⟨fun y later same => ?_, ih _⟩
    have bounds := placed_bounds later
    have positive := H.positive
    have wide := H.width_le r
    simp only at same
    omega

/-- Two blocks in use do not overlap. -/
theorem inUse_apart (one : y ∈ H.inUse lo rs) (other : z ∈ H.inUse lo rs) (different : y.1 ≠ z.1) :
    y.1 + H.len y.2 ≤ z.1 ∨ z.1 + H.len z.2 ≤ y.1 :=
  (placed_disjoint (mem_inUse.mp one).1 (mem_inUse.mp other).1).resolve_left fun same => different (congrArg Prod.fst same)

theorem ne_of_perm {rest : List (Nat × Block)} (perm : (H.inUse lo rs).Perm (y :: rest)) : ∀ z ∈ rest, y.1 ≠ z.1 := by
  have distinct := (Perm.pairwise_iff (fun {x y} (apart : x.1 ≠ y.1) => apart.symm) perm).mp (inUse_distinct lo rs)
  exact (pairwise_cons.mp distinct).1

/-! ## Cuts -/

variable {least : Nat}

theorem span_cut (least : Nat) (r : Block) (a : Nat) (use : Option Nat) : span H.len (H.cut least r a use) = H.len r := by
  rw [cut]
  split
  · simp only [span_cons, span_nil, len]
    omega
  · simp [len]

/-- The first block of a cut has the room asked for; if there is another, it is free. -/
theorem cut_cases (H : Header) (least : Nat) (use : Option Nat) (fits : a ≤ r.size) : ∃ size rest, H.cut least r a use = ⟨size, use⟩ :: rest ∧
    a ≤ size ∧ size ≤ r.size ∧ (rest = [] ∧ size = r.size ∨ ∃ x, rest = [x] ∧ x.use = none ∧ least ≤ x.size ∧ a + H.width + least ≤ r.size) := by
  rw [cut]
  split
  · next room => exact ⟨a, _, rfl, Nat.le_refl a, fits, .inr ⟨_, rfl, rfl, by simp only; omega, room⟩⟩
  · exact ⟨r.size, [], rfl, fits, Nat.le_refl _, .inl ⟨rfl, rfl⟩⟩

theorem inUse_cut (H : Header) (least n : Nat) (fits : a ≤ r.size) : ∃ size rest, H.cut least r a (some n) = ⟨size, some n⟩ :: rest ∧
    a ≤ size ∧ size ≤ r.size ∧ ∀ off, H.inUse off (H.cut least r a (some n)) = [(off, ⟨size, some n⟩)] := by
  obtain ⟨size, rest, isCut, room, small, isFree⟩ := H.cut_cases least (some n) fits
  refine ⟨size, rest, isCut, room, small, fun off => ?_⟩
  rw [isCut, inUse_cons rfl, inUse_all_free]
  rcases isFree with ⟨rfl, _⟩ | ⟨x, rfl, isFree, _⟩
  · nofun
  · simpa using isFree

/-! ## Neighbours -/

/-- No two neighbours are both free. -/
def Merged (rs : List Block) : Prop := rs.IsChain fun x y => x.use.isSome ∨ y.use.isSome

theorem Merged.exchange (old ms : List Block) (merged : Merged (before ++ (old ++ after))) (inner : Merged ms)
    (front : ∀ x ∈ before.getLast?, ∀ y ∈ (ms ++ after).head?, x.use.isSome ∨ y.use.isSome)
    (back : ∀ x ∈ ms.getLast?, ∀ y ∈ after.head?, x.use.isSome ∨ y.use.isSome) : Merged (before ++ (ms ++ after)) := by
  obtain ⟨early, rest, _⟩ := isChain_append.mp merged
  exact isChain_append.mpr ⟨early, isChain_append.mpr ⟨inner, (isChain_append.mp rest).2.1, back⟩, front⟩

/-- Behind a free block is one in use. -/
theorem Merged.next (merged : Merged (before ++ r :: after)) (isFree : r.use = none) : ∀ y ∈ after.head?, y.use.isSome := by
  obtain ⟨_, rest, _⟩ := isChain_append.mp merged
  intro y isNext
  cases after with
  | nil => cases isNext
  | cons z after =>
    cases isNext
    exact (isChain_cons_cons.mp rest).1.resolve_left (by simp [isFree])

theorem Merged.next_next (merged : Merged (before ++ r :: x :: after)) (isFree : x.use = none) : ∀ y ∈ after.head?, y.use.isSome := by
  rw [append_cons] at merged
  exact merged.next isFree

/-- Before a free block is one in use. -/
theorem Merged.prev (merged : Merged (before ++ r :: after)) (isFree : r.use = none) : ∀ y ∈ before.getLast?, y.use.isSome := by
  intro y isLast
  exact ((isChain_append.mp merged).2.2 y isLast r rfl).resolve_right (by simp [isFree])

/-- The first part of a cut is in use, so only what lies behind the second matters. -/
theorem Merged.cut (old : List Block) (merged : Merged (before ++ (old ++ after))) (fits : a ≤ r.size)
    (late : a + H.width + least ≤ r.size → ∀ y ∈ after.head?, y.use.isSome) :
    Merged (before ++ (H.cut least r a (some n) ++ after)) := by
  obtain ⟨size, rest, isCut, _, _, isFree⟩ := H.cut_cases least (some n) fits
  rw [isCut]
  rcases isFree with ⟨rfl, _⟩ | ⟨x, rfl, _, _, room⟩
  · exact merged.exchange old [_] (.singleton _) (fun _ _ y isHead => .inr (by cases isHead; rfl)) fun y isLast _ _ =>
      .inl (by cases isLast; rfl)
  · exact merged.exchange old [_, x] (isChain_pair.mpr (.inl rfl)) (fun _ _ y isHead => .inr (by cases isHead; rfl))
      fun _ _ y isNext => .inr (late room y isNext)

/-- With nothing in use there is one block, at most. -/
theorem Merged.single (merged : Merged rs) (nothing : H.inUse lo rs = []) : rs = [] ∨ ∃ r, rs = [r] ∧ r.use = none := by
  have free : ∀ r ∈ rs, r.use = none := by
    intro r inside
    obtain ⟨before, after, rfl⟩ := append_of_mem inside
    refine Option.not_isSome_iff_eq_none.mp fun isUsed => ?_
    have known : (lo + span H.len before, r) ∈ H.inUse lo (before ++ r :: after) := inUse_at isUsed
    rw [nothing] at known
    cases known
  match rs with
  | [] => exact .inl rfl
  | [r] => exact .inr ⟨r, rfl, free r mem_cons_self⟩
  | x :: y :: rs =>
    have either := (isChain_cons_cons.mp merged).1
    rw [free x (by simp), free y (by simp)] at either
    exact absurd either (by simp)

/-! ## Edits -/

/-- Memory changes between `lo` and `hi` only. -/
def Within (lo hi : Nat) (mem mem' : Buf) : Prop := ∀ k, k < lo ∨ hi ≤ k → mem' k = mem k

theorem Within.agree (within : Within lo hi mem mem') {x y : Nat} (apart : y ≤ lo ∨ hi ≤ x) : AgreeOn x y mem' mem :=
  fun k _ _ => within k (by omega)

theorem within_splice {src : Buf} {b : Nat} (o len width : Nat) (fits : o + len ≤ width) :
    Within b (b + width) mem (splice mem (b + o) len src) := fun k outside => splice_outside (by omega)

theorem Chain.exchange (old ms : List Block) (chain : H.Chain mem stop lo hi (before ++ (old ++ after)))
    (within : Within (lo + span H.len before) (lo + span H.len before + span H.len old) mem mem')
    (filled : H.Chain mem' stop (lo + span H.len before) (lo + span H.len before + span H.len old) ms) :
    H.Chain mem' stop lo hi (before ++ (ms ++ after)) := by
  refine Tiles.exchange chain (fun at_ x apart stored => stored.congr (within.agree ?_)) filled
  have := H.width_le x
  omega

theorem Chain.store (chain : H.Chain mem stop lo hi (before ++ r :: after))
    (within : Within (lo + span H.len before + H.width) (lo + span H.len before + H.len r) mem mem') :
    H.Chain mem' stop lo hi (before ++ r :: after) := by
  obtain ⟨stored, _⟩ := chain.at
  have whole : Within (lo + span H.len before) (lo + span H.len before + span H.len [r]) mem mem' :=
    fun k outside => within k (by simp only [span_cons, span_nil] at outside; omega)
  have filled : H.Chain mem' stop (lo + span H.len before) (lo + span H.len before + span H.len [r]) [r] :=
    ⟨stored.congr (within.agree (.inl (Nat.le_refl _))), by simp⟩
  exact Chain.exchange [r] [r] chain whole filled

theorem Chain.reuse (chain : H.Chain mem stop lo hi (before ++ r :: after)) {m : Nat} (inUse : r.use = some m) (room : n ≤ r.size) :
    H.Chain mem stop lo hi (before ++ ⟨r.size, some n⟩ :: after) := by
  obtain ⟨stored, _⟩ := chain.at
  have filled : H.At mem stop (lo + span H.len before) ⟨r.size, some n⟩ := by
    refine ⟨stored.size, stored.free.trans (by rw [inUse]; rfl), stored.next, fun k asked => ?_⟩
    cases asked
    exact room
  exact Chain.exchange [r] [⟨r.size, some n⟩] chain (fun _ _ => rfl) ⟨filled, by simp [len]⟩

/-- Before the last block, links do not change when the region gets a new end. -/
theorem Chain.before_last (chain : H.Chain mem stop lo stop (before ++ [r])) (further : stop ≤ stop')
    (same : ∀ k, k < lo + span H.len before → mem' k = mem k) : H.Chain mem' stop' lo (lo + span H.len before) before := by
  obtain ⟨early, _, ends⟩ := tiles_append.mp chain
  have last : lo + span H.len before + H.len r = stop := ends
  have positive := H.positive
  have wide := H.width_le r
  refine early.imp fun at_ y lower upper stored => ?_
  have yWide := H.width_le y
  obtain ⟨size, free, next, room⟩ := stored.congr fun k _ _ => same k (by omega)
  rw [link_of_ne (by omega)] at next
  exact ⟨size, free, by rw [next, link_of_ne (by omega)], room⟩

/-! ## Changes -/

theorem Change.refl (lo : Nat) (rs : List Block) (mem : Buf) : H.Change lo rs mem lo rs mem [] [] :=
  ⟨H.inUse lo rs, .refl _, .refl _, fun _ _ _ _ _ => rfl⟩

theorem Change.trans (first : H.Change lo rs mem lo' rs' mem' gone middle) (second : H.Change lo' rs' mem' lo'' rs'' mem'' middle fresh) :
    H.Change lo rs mem lo'' rs'' mem'' gone fresh := by
  obtain ⟨rest, was, is, same⟩ := first
  obtain ⟨rest', was', is', same'⟩ := second
  have equal : rest.Perm rest' := (perm_append_left_iff middle).mp (is.symm.trans was')
  exact ⟨rest, was, is'.trans (equal.symm.append_left fresh), fun at_ inside =>
    (same' at_ (equal.mem_iff.mp inside)).trans (same at_ inside)⟩

/-- Some blocks in a row are replaced by others. -/
theorem Change.of_edit (old ms : List Block) (spans : span H.len ms = span H.len old) (was : H.inUse (lo + span H.len before) old = gone)
    (is : H.inUse (lo + span H.len before) ms = fresh)
    (within : Within (lo + span H.len before) (lo + span H.len before + span H.len old) mem mem') :
    H.Change lo (before ++ (old ++ after)) mem lo (before ++ (ms ++ after)) mem' gone fresh := by
  subst was is
  refine ⟨H.inUse lo before ++ H.inUse (lo + span H.len before + span H.len old) after, ?_, ?_, fun at_ inside => ?_⟩
  · rw [inUse_append, inUse_append]
    exact perm_append_comm_assoc ..
  · rw [inUse_append, inUse_append, spans]
    exact perm_append_comm_assoc ..
  · rcases mem_append.mp inside with early | late
    · exact within.agree (.inl (placed_bounds (mem_inUse.mp early).1).2)
    · have bounds := (placed_bounds (mem_inUse.mp late).1).1
      exact within.agree (.inr (by omega))

/-- New blocks are put behind the last one. -/
theorem Change.of_append (ms : List Block) (same : ∀ at_ ∈ H.inUse lo rs, AgreeOn (at_.1 + H.width) (at_.1 + H.len at_.2) mem' mem) :
    H.Change lo rs mem lo (rs ++ ms) mem' [] (H.inUse (lo + span H.len rs) ms) := by
  refine ⟨H.inUse lo rs, .refl _, ?_, same⟩
  rw [inUse_append]
  exact perm_append_comm

/-- A header is rewritten, and says the same as before or the list is another. -/
theorem Change.of_header (known : (off, r) ∈ H.placed lo rs) (within : Within off (off + H.width) mem mem') :
    H.Change lo rs mem lo rs mem' [] [] := by
  refine ⟨H.inUse lo rs, .refl _, .refl _, fun at_ inside => within.agree ?_⟩
  have wide := H.width_le r
  rcases placed_disjoint known (mem_inUse.mp inside).1 with rfl | early | late
  · exact .inr (Nat.le_refl _)
  · simp only at early
    omega
  · exact .inl late

/-- Something is stored into a block in use. -/
theorem Change.of_store (inside : y ∈ H.inUse lo rs) (within : Within (y.1 + H.width) (y.1 + H.len y.2) mem mem') :
    H.Change lo rs mem lo rs mem' [y] [y] := by
  obtain ⟨early, late, isList⟩ := append_of_mem inside
  have perm : (H.inUse lo rs).Perm (y :: (early ++ late)) := isList ▸ perm_middle
  refine ⟨early ++ late, perm, perm, fun z other => within.agree ?_⟩
  have apart := inUse_apart inside (perm.mem_iff.mpr (mem_cons_of_mem _ other)) (ne_of_perm perm z other)
  have wide := H.width_le z.2
  omega

theorem Change.kept (change : H.Change lo rs mem lo' rs' mem' gone fresh) (inside : y ∈ H.inUse lo rs) (stays : y ∉ gone) :
    y ∈ H.inUse lo' rs' ∧ AgreeOn (y.1 + H.width) (y.1 + H.len y.2) mem' mem := by
  obtain ⟨rest, was, is, same⟩ := change
  have known := (mem_append.mp (was.mem_iff.mp inside)).resolve_left stays
  exact ⟨is.mem_iff.mpr (mem_append_right _ known), same y known⟩

theorem Change.fresh_inside (change : H.Change lo rs mem lo' rs' mem' gone fresh) (isFresh : y ∈ fresh) : y ∈ H.inUse lo' rs' := by
  obtain ⟨rest, _, is, _⟩ := change
  exact is.mem_iff.mpr (mem_append_left _ isFresh)

theorem Change.fresh_ne (change : H.Change lo rs mem lo' rs' mem' [] [y]) (old : z ∈ H.inUse lo rs) : y.1 ≠ z.1 := by
  obtain ⟨rest, was, is, _⟩ := change
  exact ne_of_perm is z (was.mem_iff.mp old)

/-- A block moves: a new one is taken, and then the old one is given back. -/
theorem Change.move (given : H.Change lo rs mem lo' rs' mem' [] [z]) (freed : H.Change lo' rs' mem' lo'' rs'' mem'' [y] [])
    (old : y ∈ H.inUse lo rs) : H.Change lo rs mem lo'' rs'' mem'' [y] [z] := by
  obtain ⟨rest, was, is, same⟩ := given
  obtain ⟨rest', was', is', same'⟩ := freed
  obtain ⟨early, late, rfl⟩ : ∃ early late, rest = early ++ y :: late := append_of_mem (was.mem_iff.mp old)
  have perm : (early ++ y :: late).Perm (y :: (early ++ late)) := perm_middle
  have equal : rest'.Perm (z :: (early ++ late)) :=
    ((was'.symm.trans is).trans ((perm.cons z).trans (Perm.swap ..))).cons_inv
  refine ⟨early ++ late, was.trans perm, is'.trans equal, fun at_ inside => ?_⟩
  have known := perm.mem_iff.mpr (mem_cons_of_mem y inside)
  exact (same' at_ (equal.mem_iff.mpr (mem_cons_of_mem z inside))).trans (same at_ known)

/-! ## Walks -/

theorem Chain.length_le (chain : H.Chain mem stop lo hi rs) : lo + rs.length ≤ hi := by
  rw [chain.end_eq]
  clear chain
  induction rs with
  | nil => simp
  | cons r rs ih =>
    have positive := H.positive
    have wide := H.width_le r
    rw [length_cons, span_cons]
    omega

theorem Chain.inner (chain : H.Chain mem stop lo stop (r :: rs)) : lo ≠ stop := by
  have ends := chain.2.end_eq
  have positive := H.positive
  have wide := H.width_le r
  omega

/-- The search finds the first free block of the list that fits. -/
theorem Chain.search_eq {fuel : Nat} (chain : H.Chain mem stop lo stop rs) (low : rs = [] ∨ 0 < lo) (enough : rs.length < fuel) :
    H.search fuel mem (link stop lo) a =
      some (((H.placed lo rs).find? fun at_ => at_.2.use.isNone ∧ a ≤ at_.2.size).map Prod.fst) := by
  induction rs generalizing lo fuel with
  | nil =>
    obtain _ | fuel := fuel
    · cases enough
    rw [tiles_nil.mp chain, link_self]
    rfl
  | cons r rs ih =>
    obtain _ | fuel := fuel
    · cases enough
    rw [link_of_ne chain.inner]
    obtain ⟨stored, rest⟩ := chain
    have start : 0 < lo := low.resolve_left nofun
    rw [Header.search, if_neg (by omega), stored.free, stored.size, stored.next,
      ih rest (.inr (by omega)) (Nat.lt_of_succ_lt_succ enough), placed, find?_cons]
    split
    · next fits =>
      rw [decide_eq_true fits]
      rfl
    · next small => rw [decide_eq_false small]

theorem Chain.search {fuel : Nat} (chain : H.Chain mem stop lo stop rs) (low : rs = [] ∨ 0 < lo) (enough : rs.length < fuel) :
    (H.search fuel mem (link stop lo) a = some none ∧ ∀ r ∈ rs, r.use = none → r.size < a) ∨
      ∃ before r after, rs = before ++ r :: after ∧ r.use = none ∧ a ≤ r.size ∧
        H.search fuel mem (link stop lo) a = some (some (lo + span H.len before)) := by
  rw [chain.search_eq low enough]
  cases found : (H.placed lo rs).find? fun at_ => at_.2.use.isNone ∧ a ≤ at_.2.size with
  | none =>
    refine .inl ⟨rfl, fun r inside isFree => ?_⟩
    obtain ⟨before, after, rfl⟩ := append_of_mem inside
    have known := find?_eq_none.mp found (_, r) (mem_placed.mpr ⟨before, after, rfl, rfl⟩)
    simpa [isFree] using known
  | some at_ =>
    obtain ⟨before, after, isList, position⟩ := mem_placed.mp (mem_of_find?_eq_some found)
    have known := find?_some found
    simp only [decide_eq_true_eq] at known
    exact .inr ⟨before, at_.2, after, isList, Option.isNone_iff_eq_none.mp known.1, known.2, by rw [← position]; rfl⟩

theorem Chain.last {fuel : Nat} (chain : H.Chain mem stop lo stop (before ++ [r])) (enough : before.length < fuel) :
    H.last fuel mem lo = some (lo + span H.len before) := by
  induction before generalizing lo fuel with
  | nil =>
    obtain _ | fuel := fuel
    · cases enough
    obtain ⟨stored, ends⟩ := chain
    rw [Header.last, stored.next, tiles_nil.mp ends, link_self, if_neg (by simp)]
    rfl
  | cons x before ih =>
    obtain _ | fuel := fuel
    · cases enough
    have shorter : before.length < fuel := Nat.lt_of_succ_lt_succ enough
    obtain ⟨stored, rest⟩ := chain
    have ends : stop = lo + H.len x + span H.len (before ++ [r]) := rest.end_eq
    have positive := H.positive
    have wide := H.width_le r
    have wide' := H.width_le x
    simp only [span_append, span_cons, span_nil] at ends
    have next : H.next mem lo = lo + H.len x := by
      rw [stored.next, link_of_ne (by omega)]
    rw [Header.last, next, if_pos (by omega), ih rest shorter, span_cons, Nat.add_assoc]

theorem Chain.walk {fuel : Nat} (chain : H.Chain mem stop lo stop rs) (low : rs = [] ∨ 0 < lo) (enough : rs.length < fuel) :
    H.walk fuel mem (link stop lo) = (H.placed lo rs).map Prod.fst := by
  induction rs generalizing lo fuel with
  | nil =>
    obtain _ | fuel := fuel
    · cases enough
    rw [tiles_nil.mp chain, link_self]
    rfl
  | cons r rs ih =>
    obtain _ | fuel := fuel
    · cases enough
    rw [link_of_ne chain.inner]
    obtain ⟨stored, rest⟩ := chain
    have start : 0 < lo := low.resolve_left nofun
    rw [Header.walk, if_neg (by omega), stored.next, ih rest (.inr (by omega)) (Nat.lt_of_succ_lt_succ enough)]
    rfl

end Header

/-! ## Writing headers -/

/-- How the fields of a header are written: each store stays inside the header and leaves the other fields. -/
structure Fields extends Header where
  setSize : Buf → Nat → Nat → Buf
  setFree : Buf → Nat → Bool → Buf
  setNext : Buf → Nat → Nat → Buf
  setSize_within : ∀ {mem b n}, Header.Within b (b + width) mem (setSize mem b n)
  setFree_within : ∀ {mem b f}, Header.Within b (b + width) mem (setFree mem b f)
  setNext_within : ∀ {mem b n}, Header.Within b (b + width) mem (setNext mem b n)
  size_setSize : ∀ {mem b n}, n < 4294967296 → size (setSize mem b n) b = n
  size_setFree : ∀ {mem b f}, size (setFree mem b f) b = size mem b
  size_setNext : ∀ {mem b n}, size (setNext mem b n) b = size mem b
  free_setSize : ∀ {mem b n}, free (setSize mem b n) b = free mem b
  free_setFree : ∀ {mem b f}, free (setFree mem b f) b = f
  free_setNext : ∀ {mem b n}, free (setNext mem b n) b = free mem b
  next_setSize : ∀ {mem b n}, next (setSize mem b n) b = next mem b
  next_setFree : ∀ {mem b f}, next (setFree mem b f) b = next mem b
  next_setNext : ∀ {mem b n}, n < 4294967296 → next (setNext mem b n) b = n

namespace Fields

open Header

variable {F : Fields} {mem mem' : Buf} {stop lo hi off a n least : Nat} {r x : Block} {before after : List Block} {f : Bool}

theorem setFree_chain (chain : F.Chain mem stop lo hi (before ++ r :: after)) (use : Option Nat) (flag : use.isNone = f)
    (room : ∀ m ∈ use, m ≤ r.size) :
    F.Chain (F.setFree mem (lo + span F.len before) f) stop lo hi (before ++ ⟨r.size, use⟩ :: after) := by
  obtain ⟨stored, _⟩ := chain.at
  have filled : F.At (F.setFree mem (lo + span F.len before) f) stop (lo + span F.len before) ⟨r.size, use⟩ := by
    refine ⟨?_, ?_, ?_, room⟩
    · exact F.size_setFree.trans stored.size
    · exact F.free_setFree.trans flag.symm
    · exact F.next_setFree.trans stored.next
  refine Chain.exchange [r] [⟨r.size, use⟩] chain (fun k outside => F.setFree_within k ?_) ⟨filled, by simp [len]⟩
  have wide := F.width_le r
  rw [span_cons, span_nil] at outside
  omega

/-- A block is cut: its second part gets a header, and then the first header is rewritten.  The first `a` bytes of the data
stay. -/
theorem split_chain (least : Nat) (mem' : Buf) (chain : F.Chain mem stop lo stop (before ++ r :: after)) (top : stop < 4294967296) (fits : a ≤ r.size)
    (room : ∀ m ∈ r.use, m ≤ a) {off second : Nat} (isOff : lo + span F.len before = off) (isSecond : off + F.width + a = second)
    (written : a + F.width + least ≤ r.size → Within second (second + F.width) mem mem' ∧
      F.At mem' stop second ⟨r.size - a - F.width, none⟩) {split : Buf}
    (isSplit : split = if a + F.width + least ≤ r.size then F.setNext (F.setSize mem' off a) off second else mem) :
    F.Chain split stop lo stop (before ++ (F.cut least r a r.use ++ after)) ∧
      ∀ k, k < off ∨ off + F.width ≤ k ∧ k < off + F.width + a ∨ off + F.len r ≤ k → split k = mem k := by
  obtain ⟨stored, inside⟩ := chain.at
  rw [isOff] at stored inside
  have wide : F.len r = F.width + r.size := rfl
  rw [cut]
  by_cases big : a + F.width + least ≤ r.size
  swap
  · rw [if_neg big] at isSplit ⊢
    rw [isSplit]
    exact ⟨chain, fun _ _ => rfl⟩
  obtain ⟨written, stored'⟩ := written big
  have positive := F.positive
  rw [if_pos big] at isSplit ⊢
  have frame (k : Nat) (outside : k < off ∨ off + F.width ≤ k ∧ k < off + F.width + a ∨ off + F.len r ≤ k) : split k = mem k := by
    rw [isSplit, F.setNext_within k (by omega), F.setSize_within k (by omega), written k (by omega)]
  have isStart : off + F.len ⟨a, r.use⟩ = second := by
    simp only [len]
    omega
  refine ⟨?_, frame⟩
  refine Chain.exchange [r] _ chain ?_ ?_ <;> rw [isOff, span_cons, span_nil, Nat.add_zero]
  · exact fun k outside => frame k (by omega)
  subst isSplit
  refine ⟨⟨?_, ?_, ?_, room⟩, ?_, ?_⟩
  · exact F.size_setNext.trans (F.size_setSize (by omega))
  · refine F.free_setNext.trans (F.free_setSize.trans ((F.free_congr (written.agree ?_)).trans stored.free))
    omega
  · refine (F.next_setNext (by omega)).trans ?_
    rw [isStart, link_of_ne (by omega)]
  · rw [isStart]
    refine stored'.congr fun k lower upper => ?_
    rw [F.setNext_within k (by omega), F.setSize_within k (by omega)]
  · rw [isStart, tiles_nil]
    simp only [len]
    omega

theorem take_chain {use : Option Nat} (chain : F.Chain mem stop lo stop (before ++ (F.cut least r a use ++ after)))
    (fits : a ≤ r.size) (asked : n ≤ a) :
    F.Chain (F.setFree mem (lo + span F.len before) false) stop lo stop (before ++ (F.cut least r a (some n) ++ after)) := by
  rw [cut] at chain ⊢
  split at chain
  · next big =>
    rw [if_pos big]
    exact setFree_chain chain (some n) rfl (by simpa using asked)
  · next small =>
    rw [if_neg small]
    exact setFree_chain chain (some n) rfl (by simpa using asked.trans fits)

/-- What a block list says about the block behind a given one. -/
theorem next_at (chain : F.Chain mem stop lo stop (before ++ r :: x :: after)) :
    F.next mem (lo + span F.len before) = lo + span F.len before + F.len r ∧
      F.At mem stop (lo + span F.len before + F.len r) x := by
  obtain ⟨_, stored, storedNext, rest⟩ := tiles_append.mp chain
  have last := rest.end_eq
  have positive := F.positive
  have wide := F.width_le x
  exact ⟨stored.next.trans (link_of_ne (by omega)), storedNext⟩

theorem absorb_chain (chain : F.Chain mem stop lo stop (before ++ r :: x :: after)) (top : stop < 4294967296) :
    F.Chain (F.setNext (F.setSize mem (lo + span F.len before) (r.size + F.width + x.size)) (lo + span F.len before)
      (link stop (lo + span F.len before + F.len r + F.len x))) stop lo stop
      (before ++ ⟨r.size + F.width + x.size, r.use⟩ :: after) := by
  obtain ⟨_, stored, _, rest⟩ := tiles_append.mp chain
  have last := rest.end_eq
  have wide : F.len r = F.width + r.size := rfl
  have wide' : F.len x = F.width + x.size := rfl
  generalize isOff : lo + span F.len before = off at *
  have bound := link_le stop (off + F.len r + F.len x)
  have both : F.len ⟨r.size + F.width + x.size, r.use⟩ = F.len r + F.len x := by
    simp only [len]
    omega
  have span : span F.len [r, x] = F.len r + F.len x := by simp
  refine Chain.exchange [r, x] [⟨r.size + F.width + x.size, r.use⟩] chain ?_ ?_ <;> rw [isOff, span]
  · exact fun k outside => by rw [F.setNext_within k (by omega), F.setSize_within k (by omega)]
  refine ⟨⟨?_, ?_, ?_, ?_⟩, ?_⟩
  · exact F.size_setNext.trans (F.size_setSize (by omega))
  · exact F.free_setNext.trans (F.free_setSize.trans stored.free)
  · refine (F.next_setNext (by omega)).trans ?_
    rw [both, Nat.add_assoc]
  · exact fun m isUsed => (stored.room m isUsed).trans (by simp only; omega)
  · rw [both, tiles_nil]

theorem append_chain (chain : F.Chain mem stop lo stop (before ++ [r])) (top : stop < 4294967296) {stop' : Nat}
    (grown : stop' = stop + F.len x) (stored : F.At mem stop' stop x) :
    F.Chain (F.setNext mem (lo + span F.len before) stop) stop' lo stop' (before ++ [r, x]) := by
  obtain ⟨last, _⟩ := chain.at
  obtain ⟨_, _, ends⟩ := tiles_append.mp chain
  have ends : lo + span F.len before + F.len r = stop := ends
  have positive := F.positive
  have wide := F.width_le r
  have wide' := F.width_le x
  refine tiles_append.mpr ⟨chain.before_last (by omega) fun k below => F.setNext_within k (.inl below),
    ⟨?_, ?_, ?_, last.room⟩, ?_, ?_⟩
  · exact F.size_setNext.trans last.size
  · exact F.free_setNext.trans last.free
  · rw [F.next_setNext top, ends, link_of_ne (by omega)]
  · rw [ends]
    exact stored.congr (F.setNext_within.agree (.inr (by omega)))
  · rw [ends, tiles_nil, grown]

/-- The last block gets the memory behind it. -/
theorem widen_chain (chain : F.Chain mem stop lo stop (before ++ [r])) (bound : r.size + n < 4294967296) :
    F.Chain (F.setSize mem (lo + span F.len before) (r.size + n)) (stop + n) lo (stop + n) (before ++ [⟨r.size + n, r.use⟩]) := by
  obtain ⟨last, _⟩ := chain.at
  obtain ⟨_, _, ends⟩ := tiles_append.mp chain
  have ends : lo + span F.len before + F.len r = stop := ends
  have wide : lo + span F.len before + F.len ⟨r.size + n, r.use⟩ = stop + n := by
    simp only [len] at ends ⊢
    omega
  refine tiles_append.mpr ⟨chain.before_last (by omega) fun k below => F.setSize_within k (.inl below), ⟨?_, ?_, ?_, ?_⟩, wide⟩
  · exact F.size_setSize bound
  · exact F.free_setSize.trans last.free
  · exact F.next_setSize.trans (last.next.trans (by rw [ends, wide, link_self, link_self]))
  · exact fun m isUsed => (last.room m isUsed).trans (by simp only; omega)

end Fields

end Lib
