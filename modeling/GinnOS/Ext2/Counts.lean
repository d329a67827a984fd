import Mathlib.Algebra.Order.BigOperators.Group.Finset
import GinnOS.Lib.Pool
import GinnOS.Ext2.Image

/-! # Free counts and the allocator as a pool

Each group descriptor counts the clear bits of its two bitmaps, and the
superblock holds the totals.  `Layout.Counted` says that all of them are right.
Flipping one bit and adjusting the counts keeps it (`flipBlock`, `flipInode`), so
no update is ever refused on such a volume, and a run of allocations and releases
is a run of the pool of clear bits (`allocator_refines_pool`).
-/

namespace GinnOS.Ext2

open Lib Lib.Buf Image

variable {g n i g' b : Nat} {value : Bool} {count : UInt16} {delta db di du : Int} {v v' : Volume}
  {x y : Kind × Nat} {op : PoolOp Kind}

/-! ## Counts -/

/-- The change of a free count when a bit takes this value. -/
def countDelta (value : Bool) : Int := if value then -1 else 1

theorem clearCount_flip {f g : Nat → Bool} (bound : i < n)
    (old : f i = !value) (new : g i = value) (others : ∀ j, j < n → j ≠ i → g j = f j) :
    (clearCount g n : Int) = clearCount f n + countDelta value := by
  cases value with
  | true =>
    have := clearCount_set bound old new others
    simp only [countDelta, if_true]
    omega
  | false =>
    have := clearCount_set bound new old fun j below other => (others j below other).symm
    simp only [countDelta, Bool.false_eq_true, if_false]
    omega

theorem sum_range_flip {f g : Nat → Nat} {k : Nat} {d : Int} (bound : k < n)
    (changed : (g k : Int) = f k + d) (others : ∀ j, j < n → j ≠ k → g j = f j) :
    ((∑ j ∈ Finset.range n, g j : Nat) : Int) = (∑ j ∈ Finset.range n, f j : Nat) + d := by
  have member := Finset.mem_range.mpr bound
  have rest : ∑ j ∈ (Finset.range n).erase k, g j = ∑ j ∈ (Finset.range n).erase k, f j :=
    Finset.sum_congr rfl fun j inside =>
      others j (Finset.mem_range.mp (Finset.mem_of_mem_erase inside)) (Finset.ne_of_mem_erase inside)
  have left := Finset.add_sum_erase (Finset.range n) g member
  have right := Finset.add_sum_erase (Finset.range n) f member
  omega

namespace Layout

variable (L : Layout)

def clearBlocks (v : Volume) (g : Nat) : Nat :=
  clearCount (bit (L.bytes v (.blockBitmap g))) (L.groupBlocks g)

def clearInodes (v : Volume) (g : Nat) : Nat :=
  clearCount (bit (L.bytes v (.inodeBitmap g))) L.inodesPerGroup

/-- Every free count on the volume is right, and the reserved inodes are marked used. -/
structure CountsAgree (v : Volume) : Prop where
  blocks : ∀ g, g < L.groups → (L.desc v g).bgFreeBlocksCount.toNat = L.clearBlocks v g
  inodes : ∀ g, g < L.groups → (L.desc v g).bgFreeInodesCount.toNat = L.clearInodes v g
  totalBlocks : v.superblock.sFreeBlocksCount.toNat = ∑ g ∈ Finset.range L.groups, L.clearBlocks v g
  totalInodes : v.superblock.sFreeInodesCount.toNat = ∑ g ∈ Finset.range L.groups, L.clearInodes v g
  reserved : ∀ i, L.IsInode i → i < L.firstInode → L.inodeBit v i = true

/-- A volume with right counts, whose cached superblock is the stored one. -/
structure Counted (v : Volume) : Prop extends L.CountsAgree v where
  has : v.HasLayout L
  cached : v.superblock = Superblock.decode (L.bytes v .super)

/-- The totals fit the signed arithmetic of the update. -/
structure SmallCounts : Prop where
  blocks : L.blockCount < 2147483648
  inodes : L.inodeCount < 2147483648

def clearOf (kind : Kind) (v : Volume) (g : Nat) : Nat :=
  clearCount (bit (L.bytes v (bitmapOf kind g))) (L.bitsOf kind g)

/-- How many elements of a kind there are at most. -/
def countOf : Kind → Nat
  | .block => L.blockCount
  | .inode => L.inodeCount

theorem sum_clearOf_le (kind : Kind) (v : Volume) :
    ∑ g ∈ Finset.range L.groups, L.clearOf kind v g ≤ L.countOf kind := by
  have bits : ∑ g ∈ Finset.range L.groups, L.bitsOf kind g ≤ L.countOf kind := by
    cases kind with
    | inode => simp [bitsOf, countOf, Geometry.inodeCount]
    | block =>
      -- The groups are consecutive ranges of blocks, the last one cut off at the end of the volume.
      have firstGroups : ∀ n, ∑ g ∈ Finset.range n, L.groupBlocks g ≤ L.blockCount - L.firstDataBlock ∧
          ∑ g ∈ Finset.range n, L.groupBlocks g ≤ n * L.blocksPerGroup := by
        intro n
        induction n with
        | zero => simp
        | succ n ih =>
          rw [Finset.sum_range_succ, Geometry.groupBlocks, Nat.add_mul, Nat.one_mul]
          omega
      exact (firstGroups L.groups).1.trans (Nat.sub_le _ _)
  exact (Finset.sum_le_sum fun g _ => clearCount_le _ _).trans bits

theorem i32_of_lt (bound : n < 2147483648) : i32 n = n := if_pos bound

theorem underflows_eq_false (low : -1 ≤ delta)
    (positive : 0 ≤ count.toNat + delta) : underflows count delta = false := by
  simp only [underflows, Bool.and_eq_false_imp, decide_eq_true_eq, decide_eq_false_iff_not]
  omega

theorem toNat_ofNat16 (value : (n : Int) = count.toNat + delta)
    (bound : n < 65536) : (UInt16.ofNat (count.toNat + delta).toNat).toNat = n := by
  rw [← value, Int.toNat_natCast, UInt16.toNat_ofNat', Nat.mod_eq_of_lt bound]

theorem toNat_ofNat32 {total : Nat} (value : (n : Int) = total + delta)
    (small : total < 2147483648) (bound : n < 4294967296) :
    (UInt32.ofNat (i32 total + delta).toNat).toNat = n := by
  rw [i32_of_lt small, ← value, Int.toNat_natCast, UInt32.toNat_ofNat', Nat.mod_eq_of_lt bound]

theorem clearOf_lt (kind : Kind) (g : Nat) : L.clearOf kind v g < 65536 := by
  have counted : L.clearOf kind v g ≤ L.bitsOf kind g := clearCount_le _ _
  have bits := L.bitsOf_le kind g
  have sizes := L.blockSize_cases
  omega

theorem bytes_recount_bitmap (kind : Kind) (inside : g < L.groups) (inside' : g' < L.groups) :
    L.bytes (L.recount v g db di du) (bitmapOf kind g') = L.bytes v (bitmapOf kind g') :=
  L.bytes_recount inside (L.valid_bitmapOf inside') (by cases kind <;> simp [bitmapOf])
    (by cases kind <;> simp [bitmapOf])

def freeOf : Kind → GroupDesc → UInt16
  | .block, d => d.bgFreeBlocksCount
  | .inode, d => d.bgFreeInodesCount

def totalOf : Kind → Superblock → UInt32
  | .block, sb => sb.sFreeBlocksCount
  | .inode, sb => sb.sFreeInodesCount

/-- The volume `marked` differs from a counted one in the clear bits of group `g`, by `delta kind`
elements of each kind. -/
structure Shifted (v marked : Volume) (g : Nat) (delta : Kind → Int) : Prop where
  has : marked.HasLayout L
  descs : ∀ g', g' < L.groups → L.desc marked g' = L.desc v g'
  superblock : marked.superblock = v.superblock
  here : ∀ kind, (L.clearOf kind marked g : Int) = L.clearOf kind v g + delta kind
  others : ∀ kind g', g' < L.groups → g' ≠ g → L.clearOf kind marked g' = L.clearOf kind v g'
  reserved : ∀ i, L.IsInode i → i < L.firstInode → L.inodeBit marked i = true

variable {L} {v marked : Volume} {g : Nat} {delta : Kind → Int}

theorem CountsAgree.group (agree : L.CountsAgree v) (kind : Kind) (inside : g < L.groups) :
    (freeOf kind (L.desc v g)).toNat = L.clearOf kind v g := by
  cases kind with
  | block => exact agree.blocks g inside
  | inode => exact agree.inodes g inside

theorem CountsAgree.total (agree : L.CountsAgree v) (kind : Kind) :
    (totalOf kind v.superblock).toNat = ∑ g ∈ Finset.range L.groups, L.clearOf kind v g := by
  cases kind with
  | block => exact agree.totalBlocks
  | inode => exact agree.totalInodes

theorem CountsAgree.total_lt (agree : L.CountsAgree v) (small : L.SmallCounts) (kind : Kind) :
    (totalOf kind v.superblock).toNat < 2147483648 := by
  rw [agree.total]
  refine (L.sum_clearOf_le kind v).trans_lt ?_
  cases kind with
  | block => exact small.blocks
  | inode => exact small.inodes

section

variable (shifted : L.Shifted v marked g delta) (counted : L.Counted v)

include shifted counted

theorem Shifted.sum (inside : g < L.groups) (kind : Kind) :
    ((∑ g ∈ Finset.range L.groups, L.clearOf kind marked g : Nat) : Int) =
      (totalOf kind v.superblock).toNat + delta kind := by
  rw [counted.total]
  exact sum_range_flip inside (shifted.here kind) (shifted.others kind)

theorem Shifted.not_refused (small : L.SmallCounts) (inside : g < L.groups) (low : ∀ kind, -1 ≤ delta kind) :
    ¬ Refused (L.desc marked g) marked.superblock (delta .block) (delta .inode) 0 := by
  rw [shifted.descs g inside, shifted.superblock]
  have positive (kind : Kind) : 0 ≤ (freeOf kind (L.desc v g)).toNat + delta kind := by
    have := shifted.here kind
    rw [counted.group kind inside]
    omega
  have total (kind : Kind) : ¬ i32 (totalOf kind v.superblock).toNat + delta kind < 0 := by
    have := shifted.sum counted inside kind
    rw [i32_of_lt (counted.total_lt small kind)]
    omega
  have blocks := positive .block
  have inodes := positive .inode
  have totalBlocks := total .block
  have totalInodes := total .inode
  simp only [freeOf, totalOf] at blocks inodes totalBlocks totalInodes
  unfold Refused
  rw [underflows_eq_false (low .block) blocks, underflows_eq_false (low .inode) inodes,
    underflows_eq_false (by omega) (by omega)]
  simp only [Bool.false_eq_true, false_or]
  omega

theorem Shifted.counted_recount (small : L.SmallCounts) (inside : g < L.groups) :
    L.Counted (L.recount marked g (delta .block) (delta .inode) 0) := by
  obtain ⟨after, isAfter⟩ : ∃ after, L.recount marked g (delta .block) (delta .inode) 0 = after := ⟨_, rfl⟩
  have clear (kind : Kind) (g' : Nat) (inside' : g' < L.groups) : L.clearOf kind after g' = L.clearOf kind marked g' := by
    rw [← isAfter, clearOf, L.bytes_recount_bitmap kind inside inside']
    rfl
  have group (kind : Kind) (g' : Nat) (inside' : g' < L.groups) :
      (freeOf kind (L.desc after g')).toNat = L.clearOf kind after g' := by
    rw [clear kind g' inside', ← isAfter, L.desc_recount inside inside']
    by_cases same : g' = g
    · subst same
      rw [if_pos rfl, shifted.descs g' inside]
      have value : (L.clearOf kind marked g' : Int) = (freeOf kind (L.desc v g')).toNat + delta kind := by
        rw [counted.group kind inside, shifted.here]
      cases kind <;> exact toNat_ofNat16 value (L.clearOf_lt _ g')
    · rw [if_neg same, shifted.descs g' inside', counted.group kind inside', shifted.others kind g' inside' same]
  have superblock : after.superblock = v.superblock.adjust (delta .block) (delta .inode) := by
    rw [← shifted.superblock, ← isAfter]
    rfl
  have total (kind : Kind) :
      (totalOf kind after.superblock).toNat = ∑ g' ∈ Finset.range L.groups, L.clearOf kind after g' := by
    have sums : ∑ g' ∈ Finset.range L.groups, L.clearOf kind after g' = ∑ g' ∈ Finset.range L.groups, L.clearOf kind marked g' :=
      Finset.sum_congr rfl fun g' member => clear kind g' (Finset.mem_range.mp member)
    have bound := L.sum_clearOf_le kind marked
    have limit : L.countOf kind < 2147483648 := by
      cases kind with
      | block => exact small.blocks
      | inode => exact small.inodes
    have value := shifted.sum counted inside kind
    have before := counted.total_lt small kind
    rw [superblock, sums]
    cases kind <;> exact toNat_ofNat32 value before (by omega)
  rw [isAfter]
  exact
    { has := isAfter ▸ shifted.has.recount inside _ _ 0
      blocks := group .block
      inodes := group .inode
      totalBlocks := total .block
      totalInodes := total .inode
      cached := by
        rw [← isAfter, Layout.recount, L.bytes_store_self]
        exact ((Superblock.decode_congr (agreeOn_clip _ _)).trans (Superblock.decode_encode _)).symm
      reserved := fun i valid below => by
        rw [← isAfter, Layout.inodeBit, ← bitmapOf, L.bytes_recount_bitmap .inode inside (L.inodeGroup_lt valid)]
        exact shifted.reserved i valid below }

end

/-- An inode that is marked is not a reserved one. -/
def Unreserved (L : Layout) : Kind × Nat → Prop
  | (.block, _) => True
  | (.inode, i) => L.firstInode ≤ i

theorem Counted.mark (counted : L.Counted v) (valid : L.IsElement x) (old : L.elementBit v x = !value)
    (free : L.Unreserved x) :
    L.Shifted v (L.markElement v x value) (L.groupOf x)
      fun kind => if kind = x.1 then countDelta value else 0 := by
  have group := L.groupOf_lt valid
  have bitmap : L.Valid (bitmapOf x.1 (L.groupOf x)) := L.valid_bitmapOf group
  have noDesc (g : Nat) : bitmapOf x.1 (L.groupOf x) ≠ .desc g := by
    rcases x with ⟨_ | _, n⟩ <;> exact nofun
  have bits {kind : Kind} {g k : Nat} (inside : g < L.groups) (bound : k < L.bitsOf kind g) :=
    L.bit_markElement v value valid inside bound
  refine
    { has := counted.has.mark bitmap noDesc _ _
      descs := fun g' inside' => L.desc_store_other bitmap inside' (noDesc g')
      superblock := rfl
      here := fun kind => ?_
      others := fun kind g' inside' other => clearCount_congr fun k bound => ?_
      reserved := fun i inside below => ?_ }
  · split
    · next same =>
      subst same
      refine clearCount_flip (L.indexOf_lt valid) (by rw [← elementBit_eq, old]) ?_ fun k bound other => ?_
      · rw [bits group (L.indexOf_lt valid)]
        simp
      · rw [bits group bound]
        simp [other]
    · next other =>
      rw [Int.add_zero]
      refine congrArg Nat.cast (clearCount_congr fun k bound => ?_)
      rw [bits group bound, if_neg fun same => other same.1]
  · rw [bits inside' bound, if_neg fun same => other same.2.1]
  · refine (L.elementBit_mark valid (y := (.inode, i)) inside).trans ?_
    rw [if_neg]
    · exact counted.reserved i inside below
    · rintro rfl
      exact absurd free (Nat.not_le.mpr below)

end Layout

/-! ## The allocator as a pool -/

/-- One call of `alloc_block`, `alloc_inode`, `free_block` or `free_inode`. -/
def allocStep (v : Volume) : PoolOp Kind → PoolAns × Volume
  | .take .block =>
    match allocBlock v with
    | (some b, v') => (.taken b, v')
    | (none, v') => (.empty, v')
  | .take .inode =>
    match allocInode v with
    | (some i, v') => (.taken i, v')
    | (none, v') => (.empty, v')
  | .give .block b =>
    match freeBlock v b with
    | (true, v') => (.given, v')
    | (false, v') => (.refused, v')
  | .give .inode i =>
    match freeInode v i with
    | (true, v') => (.given, v')
    | (false, v') => (.refused, v')

namespace Layout

variable (L : Layout)

def freeElements (v : Volume) : Set (Kind × Nat) := {x | L.IsElement x ∧ L.elementBit v x = false}

/-- Only allocated elements are released, and no reserved inode is. -/
def MayRelease (v : Volume) : PoolOp Kind → Prop
  | .take _ => True
  | .give .block b => L.InVolume b ∧ L.blockBit v b = true
  | .give .inode i => L.IsInode i ∧ L.inodeBit v i = true ∧ L.firstInode ≤ i

variable {L} {v : Volume}

/-- The element of an operation takes this value; the other elements keep theirs. -/
theorem freeElements_eq (valid : L.IsElement x)
    (bits : ∀ y, L.IsElement y → L.elementBit v' y = if y = x then value else L.elementBit v y) :
    L.freeElements v' = if value then L.freeElements v \ {x} else insert x (L.freeElements v) := by
  ext y
  by_cases same : y = x
  · subst same
    cases value <;> simp [freeElements, valid, bits y valid]
  · cases value <;>
      simp +contextual [freeElements, same, and_congr_right_iff, bits y]

theorem elementBit_recount (inside : g < L.groups)
    (valid : L.IsElement y) : L.elementBit (L.recount v g db di du) y = L.elementBit v y := by
  rw [elementBit_eq, L.bytes_recount_bitmap y.1 inside (L.groupOf_lt valid), elementBit_eq]

/-- One bit is flipped and counted. -/
theorem Counted.flip (counted : L.Counted v) (small : L.SmallCounts) (value : Bool)
    (valid : L.IsElement x) (old : L.elementBit v x = !value) (free : L.Unreserved x) :
    ∃ v', updateGroupAndSuperCounts (L.markElement v x value) (L.groupOf x)
        (if .block = x.1 then countDelta value else 0) (if .inode = x.1 then countDelta value else 0) 0 =
        (true, v') ∧ L.Counted v' ∧
      L.freeElements v' = if value then L.freeElements v \ {x} else insert x (L.freeElements v) := by
  have group := L.groupOf_lt valid
  have shifted := counted.mark valid old free
  have low (kind : Kind) : -1 ≤ if kind = x.1 then countDelta value else 0 := by
    split <;> cases value <;> decide
  rcases shifted.has.updateGroupAndSuperCounts_eq group (if .block = x.1 then countDelta value else 0)
    (if .inode = x.1 then countDelta value else 0) 0 with ⟨refused, _⟩ | ⟨_, updated⟩
  · exact absurd refused (shifted.not_refused counted small group low)
  · refine ⟨_, updated, shifted.counted_recount counted small group, ?_⟩
    refine freeElements_eq valid fun y valid' => ?_
    rw [elementBit_recount group valid', L.elementBit_mark valid valid']

/-- With right counts, a search that finds nothing means that no block is free. -/
theorem Counted.no_free_block (counted : L.Counted v) (exhausted : L.BlocksExhausted v 0) (b : Nat) :
    (.block, b) ∉ L.freeElements v := by
  rintro ⟨inside, clear⟩
  have bound := (L.blockNumber_group inside).2
  rcases exhausted (L.blockGroup b) (Nat.zero_le _) (L.blockGroup_lt inside) with zero | full
  · have count := counted.blocks _ (L.blockGroup_lt inside)
    rw [zero] at count
    exact Nat.ne_of_gt ((clearCount_pos_iff _ _).mpr ⟨_, bound, clear⟩) count.symm
  · exact Bool.false_ne_true (clear.symm.trans (full _ bound))

/-- With right counts and the reserved inodes in use, a search that finds nothing means that no
inode is free. -/
theorem Counted.no_free_inode (counted : L.Counted v) (exhausted : L.InodesExhausted v 0) (i : Nat) :
    (.inode, i) ∉ L.freeElements v := by
  rintro ⟨inside, clear⟩
  have bound := L.inodeIndex_lt i
  rcases exhausted (L.inodeGroup i) (Nat.zero_le _) (L.inodeGroup_lt inside) with zero | full
  · have count := counted.inodes _ (L.inodeGroup_lt inside)
    rw [zero] at count
    exact Nat.ne_of_gt ((clearCount_pos_iff _ _).mpr ⟨_, bound, clear⟩) count.symm
  · -- The bits before the start of the search belong to reserved inodes.
    have searched : inodeStartBit v (L.inodeGroup i) ≤ L.inodeIndex i := by
      by_contra skipped
      have first : i < L.firstInode := by
        have number := L.inodeNumber_group inside
        have := counted.has.firstNonReservedInode
        unfold inodeStartBit at skipped
        split at skipped
        · next start =>
          rw [Geometry.inodeNumber, start.1] at number
          omega
        · omega
      exact Bool.false_ne_true (clear.symm.trans (counted.reserved i inside first))
    exact Bool.false_ne_true (clear.symm.trans (full _ searched bound))

def MayReturn (L : Layout) : Kind × Nat → Prop
  | (.block, b) => L.InVolume b
  | (.inode, i) => L.IsInode i ∧ L.firstInode ≤ i

theorem Counted.mayReturn (counted : L.Counted v) (member : x ∈ L.freeElements v) :
    L.MayReturn x := by
  obtain ⟨valid, clear⟩ := member
  rcases x with ⟨kind, n⟩
  cases kind with
  | block => exact valid
  | inode =>
    refine ⟨valid, ?_⟩
    by_contra below
    exact Bool.false_ne_true (clear.symm.trans (counted.reserved n valid (by omega)))

/-- A release of something that an allocation may return. -/
def ReleasesProper (L : Layout) : PoolOp Kind → Prop
  | .take _ => True
  | .give kind n => L.MayReturn (kind, n)

theorem releasesProper (allowed : L.MayRelease v op) : L.ReleasesProper op := by
  cases op with
  | take kind => trivial
  | give kind n =>
    cases kind with
    | block => exact allowed.1
    | inode => exact ⟨allowed.1, allowed.2.2⟩

theorem Counted.unreserved (counted : L.Counted v) (member : x ∈ L.freeElements v) : L.Unreserved x := by
  have proper := counted.mayReturn member
  rcases x with ⟨_ | _, n⟩
  · trivial
  · exact proper.2

/-- One call keeps the counts right and does what the pool of clear bits does. -/
theorem Counted.step (small : L.SmallCounts) {ans : PoolAns}
    (counted : L.Counted v) (allowed : L.MayRelease v op) (stepped : allocStep v op = (ans, v')) :
    L.Counted v' ∧ PoolStep (L.freeElements v) op ans (L.freeElements v') := by
  cases op with
  | take kind =>
    have takes {n : Nat} (free : (kind, n) ∈ L.freeElements v) :=
      counted.flip small true free.1 free.2 (counted.unreserved free)
    cases kind with
    | block =>
      simp only [allocStep] at stepped
      rcases counted.has.allocBlock_cases with ⟨failed, exhausted⟩ | ⟨b, ok, v1, inside, clear, -, updated, result⟩
      · rw [failed] at stepped
        obtain ⟨rfl, rfl⟩ := Prod.mk.inj stepped
        exact ⟨counted, .empty (counted.no_free_block exhausted)⟩
      · obtain ⟨v2, flipped, counted', free⟩ := takes ⟨inside, clear⟩
        obtain ⟨rfl, rfl⟩ := Prod.mk.inj (updated.symm.trans flipped)
        rw [result] at stepped
        obtain ⟨rfl, rfl⟩ := Prod.mk.inj stepped
        rw [free]
        exact ⟨counted', .taken ⟨inside, clear⟩⟩
    | inode =>
      simp only [allocStep] at stepped
      rcases counted.has.allocInode_cases with ⟨failed, exhausted⟩ | ⟨i, ok, v1, inside, clear, -, updated, result⟩
      · rw [failed] at stepped
        obtain ⟨rfl, rfl⟩ := Prod.mk.inj stepped
        exact ⟨counted, .empty (counted.no_free_inode exhausted)⟩
      · obtain ⟨v2, flipped, counted', free⟩ := takes ⟨inside, clear⟩
        obtain ⟨rfl, rfl⟩ := Prod.mk.inj (updated.symm.trans flipped)
        rw [result] at stepped
        obtain ⟨rfl, rfl⟩ := Prod.mk.inj stepped
        rw [free]
        exact ⟨counted', .taken ⟨inside, clear⟩⟩
  | give kind n =>
    have known : L.IsElement (kind, n) ∧ L.elementBit v (kind, n) = true ∧ L.Unreserved (kind, n) := by
      cases kind with
      | block => exact ⟨allowed.1, allowed.2, trivial⟩
      | inode => exact allowed
    obtain ⟨inside, used, unreserved⟩ := known
    obtain ⟨v2, flipped, counted', free⟩ := counted.flip small false inside used unreserved
    have given : allocStep v (.give kind n) = (.given, v2) := by
      cases kind with
      | block =>
        have freed := (counted.has.freeBlock_eq inside).trans flipped
        simp only [allocStep, freed]
      | inode =>
        have freed := (counted.has.freeInode_eq inside).trans flipped
        simp only [allocStep, freed]
    obtain ⟨rfl, rfl⟩ := Prod.mk.inj (given.symm.trans stepped)
    rw [free]
    exact ⟨counted', .given fun member => by have clear := member.2; rw [used] at clear; cases clear⟩

end Layout

/-! ## Runs of the allocator -/

theorem Image.smallCounts : layout.SmallCounts := ⟨by decide, by decide⟩

/-- The counts of an image with one group agree when they do so in that group. -/
theorem Image.countsAgree (im : Image)
    (blocks : im.groupDesc.bgFreeBlocksCount.toNat = layout.clearBlocks im.volume 0)
    (inodes : im.groupDesc.bgFreeInodesCount.toNat = layout.clearInodes im.volume 0)
    (reserved : ∀ i, i < 11 → 1 ≤ i → layout.inodeBit im.volume i = true) :
    layout.CountsAgree im.volume := by
  have desc : layout.desc im.volume 0 = im.groupDesc :=
    (GroupDesc.decode_congr (agreeOn_clip _ _)).trans im.volume_groupDesc
  have only {g : Nat} (inside : g < layout.groups) : g = 0 := Nat.lt_one_iff.mp inside
  refine
    { blocks := fun g inside => by rw [only inside, desc, blocks]
      inodes := fun g inside => by rw [only inside, desc, inodes]
      totalBlocks := ?_
      totalInodes := ?_
      reserved := fun i inside below => reserved i below inside.1 }
  · rw [show layout.groups = 1 from rfl, Finset.sum_range_one, ← blocks]
    exact UInt16.toNat_toUInt32 _
  · rw [show layout.groups = 1 from rfl, Finset.sum_range_one, ← inodes]
    exact UInt16.toNat_toUInt32 _

theorem Image.fresh_countsAgree : layout.CountsAgree fresh.volume :=
  fresh.countsAgree (by decide +kernel) (by decide +kernel) (by decide +kernel)

/-- Refinement of the allocator.  On an accepted volume with a usable geometry and right counts,
any sequence of allocations and of releases of allocated, unreserved elements keeps the counts
right and answers as the pool of clear bits does.  What is returned lies in the volume, no
reserved inode is ever returned, and nothing is returned twice without a release in between. -/
theorem allocator_refines_pool {disk : BlockDevice} {v v' : Volume} {L : Layout}
    {trace : List (PoolOp Kind × PoolAns)} (healthy : disk.Healthy)
    (mounted : ext2Initialize disk = .ok v) (geometry : L.toGeometry = v.geometry)
    (inodes : v.inodeCount = L.inodeCount) (small : L.SmallCounts) (counts : L.CountsAgree v)
    (run : Run allocStep L.MayRelease v trace v') :
    L.CountsAgree v' ∧ SpecRun PoolStep (L.freeElements v) trace (L.freeElements v') ∧
      (∀ b, (.take .block, .taken b) ∈ trace → L.InVolume b) ∧
      (∀ i, (.take .inode, .taken i) ∈ trace → L.IsInode i ∧ L.firstInode ≤ i) ∧
      ∀ kind n before between after,
        trace = before ++ (.take kind, .taken n) :: (between ++ (.take kind, .taken n) :: after) →
        ∃ ans, (.give kind n, ans) ∈ between := by
  have has := mounted_hasLayout healthy mounted geometry inodes
  have counted : L.Counted v :=
    { counts with
      has := has
      cached := by rw [ext2Initialize_eq healthy mounted]; rfl }
  obtain ⟨final, spec⟩ := run.simulates L.freeElements (I := L.Counted) (R := PoolStep)
    (fun known allowed stepped => known.step small allowed stepped) counted
  -- Free elements are never reserved: not at the start, and no reserved one is released.
  have proper := spec.of_taken (P := L.MayReturn)
    (fun x member => counted.mayReturn member)
    (fun kind n ans member => run.all_ops (P := L.ReleasesProper)
      Layout.releasesProper _ ans member)
  refine ⟨final.toCountsAgree, spec, fun b member => proper .block b member,
    fun i member => proper .inode i member, ?_⟩
  rintro kind n before between after rfl
  exact spec.given_between

/-- A fresh volume hands out block 8, takes it back, and has right counts afterwards. -/
theorem allocator_refines_pool_fresh :
    let ended := execute allocStep Image.fresh.volume [.take .block, .give .block 8]
    ended.1 = [(.take .block, .taken 8), (.give .block 8, .given)] ∧
      Image.layout.CountsAgree ended.2 := by
  have allowed : AllAllowed allocStep layout.MayRelease fresh.volume
      [.take .block, .give .block 8] :=
    ⟨trivial, ⟨⟨by decide, by decide⟩, by decide +kernel⟩, trivial⟩
  exact ⟨by decide +kernel,
    (allocator_refines_pool fresh.disk_healthy fresh.mounted fresh.geometry_eq rfl
      smallCounts fresh_countsAgree (.of_execute _ allowed)).1⟩

/-- A volume on which every inode is in use. -/
def Image.full : Image := { Image.fresh with inodeBits := [0xff, 0xff], freeInodes := 0 }

/-- The search for a free inode starts after the reserved ones.  So a reserved inode that was
released stays free: the next allocation fails although its bit is clear. -/
theorem released_reserved_inode_not_found :
    Image.layout.toGeometry = Image.full.volume.geometry ∧ Image.layout.SmallCounts ∧
      Image.layout.CountsAgree Image.full.volume ∧
      Image.layout.inodeBit Image.full.volume 5 = true ∧
      let released := freeInode Image.full.volume 5
      released.1 = true ∧ Image.layout.inodeBit released.2 5 = false ∧
        (allocInode released.2).1 = none :=
  ⟨full.geometry_eq, smallCounts,
    full.countsAgree (by decide +kernel) (by decide +kernel) (by decide +kernel),
    by decide +kernel, by decide +kernel, by decide +kernel, by decide +kernel⟩

end GinnOS.Ext2
