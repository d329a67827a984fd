import Mathlib.Data.List.Basic
import Mathlib.Data.Nat.Bitwise
import GinnOS.Lib.Buffer

/-! # Bitmaps in byte buffers

Bit `i` of a bitmap is bit `i % 8` of byte `i / 8`.  `bit_orMask` and
`bit_andMask` say what the two read-modify-write idioms do to every bit, and the
second half counts the clear bits of a prefix, so that an allocator's free count
can be compared with its bitmap.
-/

namespace Lib

namespace Buf

/-- Bit `i` of the bitmap stored in `b`. -/
def bit (b : Buf) (i : Nat) : Bool := (b (i / 8)).toNat.testBit (i % 8)

/-- The one-bit mask of index `i` inside its byte. -/
def mask (i : Nat) : UInt8 := UInt8.ofNat (1 <<< (i % 8))

theorem mask_toNat (i : Nat) : (mask i).toNat = 2 ^ (i % 8) := by
  have bound : 2 ^ (i % 8) < 2 ^ 8 := Nat.pow_lt_pow_right (by omega) (Nat.mod_lt i (by omega))
  simp only [mask, UInt8.toNat_ofNat', Nat.one_shiftLeft]
  exact Nat.mod_eq_of_lt bound

theorem and_mask_ne_zero (b : Buf) (i : Nat) : (b (i / 8) &&& mask i != 0) = bit b i := by
  have value : (b (i / 8) &&& mask i).toNat = (bit b i).toNat * 2 ^ (i % 8) := by
    rw [UInt8.toNat_and, mask_toNat, Nat.and_two_pow]
    rfl
  rw [Bool.eq_iff_iff, bne_iff_ne, Ne, ← UInt8.toNat_inj, value]
  cases bit b i <;> simp

theorem toNat_testBit_not (x : UInt8) {j : Nat} (bound : j < 8) :
    (~~~x).toNat.testBit j = !x.toNat.testBit j := by
  rw [← UInt8.toNat_toBitVec, ← UInt8.toNat_toBitVec x, BitVec.testBit_toNat, BitVec.testBit_toNat,
    UInt8.toBitVec_not, BitVec.getLsbD_not]
  simp [bound]

theorem testBit_mask (i j : Nat) : (mask i).toNat.testBit (j % 8) = decide (i % 8 = j % 8) := by
  rw [mask_toNat, Nat.testBit_two_pow]

/-- A store that changes one bit of its byte changes one bit. -/
theorem bit_put8 {x : UInt8} {value : Bool} {i : Nat} (b : Buf) (j : Nat)
    (here : x.toNat.testBit (j % 8) = if i % 8 = j % 8 then value else (b (i / 8)).toNat.testBit (j % 8)) :
    bit (put8 b (i / 8) x) j = if j = i then value else bit b j := by
  unfold bit
  by_cases byte : j / 8 = i / 8
  · have same : i % 8 = j % 8 ↔ j = i := by omega
    rw [byte, put8_self, here]
    simp only [same]
  · have other : j ≠ i := fun same => byte (by rw [same])
    rw [put8_other byte, if_neg other]

/-- `b[i / 8] |= mask` sets bit `i` and leaves every other bit. -/
theorem bit_orMask (b : Buf) (i j : Nat) :
    bit (put8 b (i / 8) (b (i / 8) ||| mask i)) j = if j = i then true else bit b j := by
  refine bit_put8 b j ?_
  rw [UInt8.toNat_or, Nat.testBit_or, testBit_mask]
  by_cases same : i % 8 = j % 8 <;> simp [same]

/-- `b[i / 8] &= ~mask` clears bit `i` and leaves every other bit. -/
theorem bit_andMask (b : Buf) (i j : Nat) :
    bit (put8 b (i / 8) (b (i / 8) &&& ~~~mask i)) j = if j = i then false else bit b j := by
  refine bit_put8 b j ?_
  rw [UInt8.toNat_and, Nat.testBit_and, toNat_testBit_not _ (Nat.mod_lt j (by omega)), testBit_mask]
  by_cases same : i % 8 = j % 8 <;> simp [same]

/-- The first `n` bits depend on the bytes that hold them only. -/
theorem bit_congr {b c : Buf} {n i : Nat} (agree : AgreeOn 0 n b c) (bound : i < 8 * n) :
    bit b i = bit c i := by
  unfold bit
  rw [agree (i / 8) (Nat.zero_le _) (by omega)]

end Buf

/-! ## Counting clear bits -/

/-- The number of clear bits among the first `n`. -/
def clearCount (f : Nat → Bool) (n : Nat) : Nat := (List.range n).countP fun i => !f i

theorem clearCount_succ (f : Nat → Bool) (n : Nat) :
    clearCount f (n + 1) = clearCount f n + if f n then 0 else 1 := by
  unfold clearCount
  rw [List.range_succ, List.countP_append, List.countP_singleton]
  cases f n <;> simp

theorem clearCount_le (f : Nat → Bool) (n : Nat) : clearCount f n ≤ n := by
  simpa [clearCount] using List.countP_le_length (p := fun i => !f i) (l := List.range n)

theorem clearCount_congr {f g : Nat → Bool} {n : Nat} (agree : ∀ i, i < n → f i = g i) :
    clearCount f n = clearCount g n := by
  induction n with
  | zero => rfl
  | succ n ih =>
    rw [clearCount_succ, clearCount_succ, ih (fun i bound => agree i (by omega)),
      agree n (by omega)]

theorem clearCount_pos_iff (f : Nat → Bool) (n : Nat) :
    0 < clearCount f n ↔ ∃ i, i < n ∧ f i = false := by
  simp [clearCount, List.countP_pos_iff]

theorem clearCount_set {f g : Nat → Bool} {n i : Nat} (bound : i < n) (clear : f i = false)
    (set : g i = true) (others : ∀ j, j < n → j ≠ i → g j = f j) :
    clearCount g n + 1 = clearCount f n := by
  induction n with
  | zero => omega
  | succ n ih =>
    rw [clearCount_succ, clearCount_succ]
    by_cases last : i = n
    · subst last
      have same : clearCount g i = clearCount f i :=
        clearCount_congr fun j below => others j (by omega) (by omega)
      simp [clear, set, same]
    · have rest := ih (by omega) fun j below other => others j (by omega) other
      rw [others n (by omega) (Ne.symm last)]
      omega

end Lib
