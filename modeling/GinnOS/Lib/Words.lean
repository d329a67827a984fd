import GinnOS.Lib.Buffer

/-! # Memory as words

A buffer read and written in 32-bit little-endian words whose values are numbers.
A store is read back where it was made (`word_setWord`), and a load depends only on
the four bytes of its word (`word_congr`), so that every other store is skipped by
showing that it lies apart.
-/

namespace Lib.Buf

/-- The word at `a`. -/
def word (b : Buf) (a : Nat) : Nat := (le32 b a).toNat

/-- Store the low 32 bits of `n` at `a`. -/
def setWord (b : Buf) (a n : Nat) : Buf := put32 b a (UInt32.ofNat n)

variable {b c : Buf} {a lo hi n : Nat}

theorem word_lt (b : Buf) (a : Nat) : word b a < 4294967296 := UInt32.toNat_lt _

theorem word_congr (agree : AgreeOn a (a + 4) b c) : word b a = word c a :=
  congrArg UInt32.toNat (le32_congr agree)

theorem word_setWord (b : Buf) (a : Nat) (bound : n < 4294967296) : word (setWord b a n) a = n := by
  rw [word, setWord, le32_put32, UInt32.toNat_ofNat']
  exact Nat.mod_eq_of_lt bound

theorem agreeOn_setWord (b : Buf) (n : Nat) (apart : hi ≤ a ∨ a + 4 ≤ lo) :
    AgreeOn lo hi (setWord b a n) b :=
  fun _ _ _ => put32_outside (by omega)

theorem word_setWord_apart (b : Buf) (n : Nat) (apart : lo + 4 ≤ a ∨ a + 4 ≤ lo) :
    word (setWord b a n) lo = word b lo :=
  word_congr (agreeOn_setWord b n apart)

theorem word_splice_inside {src : Buf} {len : Nat} (lower : lo ≤ a) (upper : a + 4 ≤ lo + len) :
    word (splice b lo len src) a = word src (a - lo) := by
  have aligned (k : Nat) (inside : k < 4) : splice b lo len src (a + k) = src (a - lo + k) := by
    rw [splice_inside (by omega) (by omega)]
    congr 1
    omega
  simp only [word, le32]
  rw [aligned 1 (by omega), aligned 2 (by omega), aligned 3 (by omega),
    show splice b lo len src a = src (a - lo) from aligned 0 (by omega)]

theorem word_shift (b : Buf) (off a : Nat) : word (shift b off) a = word b (off + a) := rfl

end Lib.Buf
