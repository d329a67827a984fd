import Mathlib.Tactic.Common
import Mathlib.Algebra.GroupWithZero.Nat

/-! # Byte buffers

A buffer is a total map from offsets to bytes.  The size of the memory behind it
is kept by whoever owns it, so that `memcpy`, `memset` and little-endian field
accesses are plain functions with one law each: what is read inside the range
that was written, and what is read outside it.

* `splice` / `fill` — `memcpy` and `memset` of a range.
* `clip` — a buffer cut to its first `n` bytes.
* `le16`, `le32`, `put16`, `put32` — little-endian loads and stores.
* `AgreeOn` — two buffers with the same bytes in a range; every load is a
  function of the bytes of its range (`le16_congr`, `le32_congr`).
-/

namespace Lib

variable {b src c : Buf} {off len k n lo hi : Nat}

abbrev Buf := Nat → UInt8

namespace Buf

/-- The buffer that holds the bytes of a list, and zero after them. -/
def ofList (bytes : List UInt8) : Buf := fun k => bytes.getD k 0

/-- `memcpy (b + off, src, len)`. -/
def splice (b : Buf) (off len : Nat) (src : Buf) : Buf :=
  fun k => if off ≤ k ∧ k < off + len then src (k - off) else b k

/-- `memset (b + off, value, len)`. -/
def fill (b : Buf) (off len : Nat) (value : UInt8) : Buf :=
  splice b off len (fun _ => value)

/-- The buffer that starts `off` bytes into `b`. -/
def shift (b : Buf) (off : Nat) : Buf := fun k => b (off + k)

/-- The first `n` bytes of a buffer. -/
def clip (n : Nat) (b : Buf) : Buf := fun k => if k < n then b k else 0

/-- The bytes of a buffer from `off`, as a list of length `len`. -/
def toList (b : Buf) (off len : Nat) : List UInt8 :=
  (List.range len).map fun k => b (off + k)

/-- The two buffers hold the same bytes in `[lo, hi)`. -/
def AgreeOn (lo hi : Nat) (b c : Buf) : Prop := ∀ k, lo ≤ k → k < hi → b k = c k

/-! ## Ranges -/

theorem splice_inside (lower : off ≤ k) (upper : k < off + len) :
    splice b off len src k = src (k - off) := if_pos ⟨lower, upper⟩

theorem splice_outside (outside : k < off ∨ off + len ≤ k) :
    splice b off len src k = b k := if_neg (by omega)

@[simp] theorem splice_zero (b src : Buf) (off : Nat) : splice b off 0 src = b :=
  funext fun _ => splice_outside (by omega)

theorem clip_of_lt (b : Buf) (bound : k < n) : clip n b k = b k := if_pos bound

theorem clip_of_le (b : Buf) (bound : n ≤ k) : clip n b k = 0 := if_neg (by omega)

theorem clip_congr (agree : AgreeOn 0 n b c) : clip n b = clip n c := by
  funext k
  by_cases bound : k < n
  · rw [clip_of_lt b bound, clip_of_lt c bound, agree k (Nat.zero_le k) bound]
  · rw [clip_of_le b (by omega), clip_of_le c (by omega)]

theorem AgreeOn.symm (agree : AgreeOn lo hi b c) : AgreeOn lo hi c b :=
  fun k lower upper => (agree k lower upper).symm

theorem AgreeOn.trans {d : Buf} (first : AgreeOn lo hi b c)
    (second : AgreeOn lo hi c d) : AgreeOn lo hi b d :=
  fun k lower upper => (first k lower upper).trans (second k lower upper)

theorem AgreeOn.mono {lo' hi' : Nat} (agree : AgreeOn lo hi b c)
    (lower : lo ≤ lo') (upper : hi' ≤ hi) : AgreeOn lo' hi' b c :=
  fun k hk hk' => agree k (by omega) (by omega)

theorem agreeOn_clip (n : Nat) (b : Buf) : AgreeOn 0 n (clip n b) b :=
  fun _ _ upper => clip_of_lt b upper

theorem agreeOn_splice_outside
    (apart : hi ≤ off ∨ off + len ≤ lo) : AgreeOn lo hi (splice b off len src) b :=
  fun _ _ _ => splice_outside (by omega)

theorem splice_splice_shift (b src : Buf) (off len more : Nat) :
    splice (splice b off len src) (off + len) more (shift src len) =
      splice b off (len + more) src := by
  funext k
  by_cases first : off ≤ k ∧ k < off + len
  · rw [splice_outside (by omega), splice_inside first.1 first.2, splice_inside first.1 (by omega)]
  · by_cases second : off + len ≤ k ∧ k < off + len + more
    · rw [splice_inside second.1 second.2, splice_inside (by omega) (by omega)]
      simp only [shift]
      congr 1
      omega
    · rw [splice_outside (by omega), splice_outside (by omega), splice_outside (by omega)]

theorem toList_length (b : Buf) (off len : Nat) : (toList b off len).length = len := by
  simp [toList]

theorem toList_congr (agree : AgreeOn off (off + len) b c) :
    toList b off len = toList c off len := by
  apply List.map_congr_left
  intro k member
  rw [List.mem_range] at member
  exact agree (off + k) (by omega) (by omega)

theorem toList_splice_ofList (b : Buf) (off : Nat) (bytes : List UInt8) :
    toList (splice b off bytes.length (ofList bytes)) off bytes.length = bytes := by
  apply List.ext_getElem (by simp [toList])
  intro k first second
  simp only [toList, List.getElem_map, List.getElem_range]
  rw [splice_inside (by omega) (by omega), Nat.add_sub_cancel_left]
  simp [ofList, second]

/-! ## Little-endian fields -/

/-- Byte `k` of a number, least significant first. -/
def byteOf (n k : Nat) : UInt8 := UInt8.ofNat (n / 256 ^ k)

/-- The 16-bit field at `off`. -/
def le16 (b : Buf) (off : Nat) : UInt16 :=
  UInt16.ofNat ((b off).toNat + 256 * (b (off + 1)).toNat)

/-- The 32-bit field at `off`. -/
def le32 (b : Buf) (off : Nat) : UInt32 :=
  UInt32.ofNat ((b off).toNat + 256 * (b (off + 1)).toNat + 65536 * (b (off + 2)).toNat +
    16777216 * (b (off + 3)).toNat)

def bytes16 (n : UInt16) : List UInt8 := [byteOf n.toNat 0, byteOf n.toNat 1]

def bytes32 (n : UInt32) : List UInt8 :=
  [byteOf n.toNat 0, byteOf n.toNat 1, byteOf n.toNat 2, byteOf n.toNat 3]

def put8 (b : Buf) (off : Nat) (n : UInt8) : Buf := splice b off 1 (fun _ => n)

def put16 (b : Buf) (off : Nat) (n : UInt16) : Buf := splice b off 2 (ofList (bytes16 n))

def put32 (b : Buf) (off : Nat) (n : UInt32) : Buf := splice b off 4 (ofList (bytes32 n))

theorem assemble16 (n : UInt16) :
    UInt16.ofNat ((byteOf n.toNat 0).toNat + 256 * (byteOf n.toNat 1).toNat) = n := by
  apply UInt16.toNat_inj.mp
  have bound : n.toNat < 65536 := n.toNat_lt
  simp only [byteOf, UInt8.toNat_ofNat', UInt16.toNat_ofNat']
  omega

theorem assemble32 (n : UInt32) :
    UInt32.ofNat ((byteOf n.toNat 0).toNat + 256 * (byteOf n.toNat 1).toNat +
      65536 * (byteOf n.toNat 2).toNat + 16777216 * (byteOf n.toNat 3).toNat) = n := by
  apply UInt32.toNat_inj.mp
  have bound : n.toNat < 4294967296 := n.toNat_lt
  simp only [byteOf, UInt8.toNat_ofNat', UInt32.toNat_ofNat']
  omega

theorem le16_congr (agree : AgreeOn off (off + 2) b c) :
    le16 b off = le16 c off := by
  unfold le16
  rw [agree off (by omega) (by omega), agree (off + 1) (by omega) (by omega)]

theorem le32_congr (agree : AgreeOn off (off + 4) b c) :
    le32 b off = le32 c off := by
  unfold le32
  rw [agree off (by omega) (by omega), agree (off + 1) (by omega) (by omega),
    agree (off + 2) (by omega) (by omega), agree (off + 3) (by omega) (by omega)]

@[simp] theorem put8_self (b : Buf) (off : Nat) (n : UInt8) : put8 b off n off = n :=
  splice_inside (Nat.le_refl off) (by omega)

theorem put8_other {n : UInt8} (other : k ≠ off) :
    put8 b off n k = b k := splice_outside (by omega)

theorem put16_outside {n : UInt16} (outside : k < off ∨ off + 2 ≤ k) :
    put16 b off n k = b k := splice_outside outside

theorem put32_outside {n : UInt32} (outside : k < off ∨ off + 4 ≤ k) :
    put32 b off n k = b k := splice_outside outside

@[simp] theorem le16_put16 (b : Buf) (off : Nat) (n : UInt16) : le16 (put16 b off n) off = n := by
  unfold le16 put16
  rw [splice_inside (by omega) (by omega), splice_inside (by omega) (by omega), Nat.sub_self,
    Nat.add_sub_cancel_left]
  exact assemble16 n

@[simp] theorem le32_put32 (b : Buf) (off : Nat) (n : UInt32) : le32 (put32 b off n) off = n := by
  unfold le32 put32
  rw [splice_inside (by omega) (by omega), splice_inside (by omega) (by omega),
    splice_inside (by omega) (by omega), splice_inside (by omega) (by omega), Nat.sub_self,
    Nat.add_sub_cancel_left, Nat.add_sub_cancel_left, Nat.add_sub_cancel_left]
  exact assemble32 n

/-! ## Fields of a packed structure -/

theorem ofList_append_right {xs ys : List UInt8} (outside : xs.length ≤ k) :
    ofList (xs ++ ys) k = ofList ys (k - xs.length) := by
  simp [ofList, List.getElem?_append_right outside]

theorem ofList_append_add (xs ys : List UInt8) (k : Nat) :
    ofList (xs ++ ys) (xs.length + k) = ofList ys k := by
  rw [ofList_append_right (by omega), Nat.add_sub_cancel_left]

theorem le32_append_add (xs ys : List UInt8) (off : Nat) :
    le32 (ofList (xs ++ ys)) (xs.length + off) = le32 (ofList ys) off := by
  simp only [le32, Nat.add_assoc, ofList_append_add]

theorem le16_append_add (xs ys : List UInt8) (off : Nat) :
    le16 (ofList (xs ++ ys)) (xs.length + off) = le16 (ofList ys) off := by
  simp only [le16, Nat.add_assoc, ofList_append_add]

theorem le32_skip32 (n : UInt32) (rest : List UInt8) (off : Nat) :
    le32 (ofList (bytes32 n ++ rest)) (off + 4) = le32 (ofList rest) off := by
  rw [Nat.add_comm]
  exact le32_append_add (bytes32 n) rest off

theorem le32_skip16 (n : UInt16) (rest : List UInt8) (off : Nat) :
    le32 (ofList (bytes16 n ++ rest)) (off + 2) = le32 (ofList rest) off := by
  rw [Nat.add_comm]
  exact le32_append_add (bytes16 n) rest off

theorem le16_skip32 (n : UInt32) (rest : List UInt8) (off : Nat) :
    le16 (ofList (bytes32 n ++ rest)) (off + 4) = le16 (ofList rest) off := by
  rw [Nat.add_comm]
  exact le16_append_add (bytes32 n) rest off

theorem le16_skip16 (n : UInt16) (rest : List UInt8) (off : Nat) :
    le16 (ofList (bytes16 n ++ rest)) (off + 2) = le16 (ofList rest) off := by
  rw [Nat.add_comm]
  exact le16_append_add (bytes16 n) rest off

theorem le32_head (n : UInt32) (rest : List UInt8) : le32 (ofList (bytes32 n ++ rest)) 0 = n :=
  assemble32 n

theorem le16_head (n : UInt16) (rest : List UInt8) : le16 (ofList (bytes16 n ++ rest)) 0 = n :=
  assemble16 n

end Buf

end Lib
