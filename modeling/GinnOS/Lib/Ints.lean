import Mathlib.Init

/-! # Machine integers

The 32-bit `int` of C as an integer, its arithmetic taken modulo 2³², and the casts to bytes.
-/

namespace Lib

/-- The `int` with the value `x` modulo 2³². -/
def int32 (x : Int) : Int := (x + 2147483648) % 4294967296 - 2147483648

/-- The cast of an `int` to `uint8_t`. -/
def uint8 (x : Int) : UInt8 := UInt8.ofNat (x % 256).toNat

theorem uint8_lt {x : Int} {n : UInt8} (nonneg : 0 ≤ x) (below : x < n.toNat) : uint8 x < n := by
  rw [UInt8.lt_iff_toNat_lt, uint8, UInt8.toNat_ofNat']
  omega

theorem int32_of_lt {x : Int} (low : -2147483648 ≤ x) (high : x < 2147483648) : int32 x = x := by
  rw [int32]
  omega

theorem uint8_int32_lt {x : Int} {n : UInt8} (nonneg : 0 ≤ x) (below : x < n.toNat) : uint8 (int32 x) < n := by
  have small := n.toNat_lt
  rw [int32_of_lt (by omega) (by omega)]
  exact uint8_lt nonneg below

/-- The division shows that a product wraps. -/
theorem mul_wraps {n size : Nat} (wraps : 4294967296 ≤ n * size) : n ≠ 0 ∧ n * size % 4294967296 / n ≠ size := by
  have real : n ≠ 0 := by
    intro zero
    simp [zero] at wraps
  have wrapped : n * size % 4294967296 < n * size := by omega
  exact ⟨real, Nat.ne_of_lt ((Nat.div_lt_iff_lt_mul (Nat.pos_of_ne_zero real)).mpr (by rwa [Nat.mul_comm size]))⟩

end Lib
