import Mathlib.Data.Nat.ModEq

/-! # Ring buffers

`ring n data pos len` is what a ring of `n` cells holds: the `len` cells from `pos` on,
counted modulo `n`.  Taking the cell at `pos` removes the head of that list
(`ring_take`), and filling the cell behind the last one appends to it (`ring_put`).
-/

namespace Lib

open List

variable {α : Type}

/-- The `len` cells of a ring of `n` cells that start at `pos`. -/
def ring (n : Nat) (data : Nat → α) (pos len : Nat) : List α :=
  (List.range len).map fun k => data ((pos + k) % n)

@[simp] theorem ring_zero (n : Nat) (data : Nat → α) (pos : Nat) : ring n data pos 0 = [] := rfl

theorem ring_take {n : Nat} (data : Nat → α) {pos : Nat} (inside : pos < n) (len : Nat) :
    ring n data pos (len + 1) = data pos :: ring n data ((pos + 1) % n) len := by
  simp only [ring, range_succ_eq_map, map_cons, map_map, Nat.add_zero,
    Nat.mod_eq_of_lt inside]
  congr 1
  refine map_congr_left fun k _ => ?_
  simp only [Function.comp_apply, Nat.mod_add_mod]
  congr 2
  omega

/-- A cell is put behind the last one; the ring is not full, so it is none of the others. -/
theorem ring_put {n : Nat} (data : Nat → α) {pos len : Nat} (room : len < n) (x : α) :
    ring n (Function.update data ((pos + len) % n) x) pos (len + 1) = ring n data pos len ++ [x] := by
  simp only [ring, range_succ, map_append, map_cons, map_nil,
    Function.update_self]
  congr 1
  refine map_congr_left fun k member => ?_
  rw [Function.update_of_ne]
  have before : k < len := mem_range.mp member
  -- two offsets below `n` that agree modulo `n` are equal
  intro same
  have same : k % n = len % n := Nat.ModEq.add_left_cancel' pos same
  rw [Nat.mod_eq_of_lt (by omega), Nat.mod_eq_of_lt room] at same
  omega

end Lib
