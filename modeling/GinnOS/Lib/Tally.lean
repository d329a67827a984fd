import Mathlib.Algebra.BigOperators.Fin

/-! # Counting the entries of a finite table

`tally t v` is the number of indices at which the table `t` holds `v`.  A reference
count is right when it is the tally of the descriptors that name the object, and
every change of a table is a sequence of updates of one entry (`tally_update`).
-/

namespace Lib

variable {ι β : Type} [Fintype ι] [DecidableEq β]

/-- How many entries of the table are `v`. -/
def tally (t : ι → β) (v : β) : Nat := (Finset.univ.filter fun i => t i = v).card

theorem tally_pos_iff {t : ι → β} {v : β} : 0 < tally t v ↔ ∃ i, t i = v := by
  simp [tally, Finset.card_pos, Finset.Nonempty]

theorem tally_pos {t : ι → β} (i : ι) {v : β} (here : t i = v) : 0 < tally t v :=
  tally_pos_iff.mpr ⟨i, here⟩

/-- A table that differs from `t` only in places where neither of them holds `v` has the same tally. -/
theorem tally_congr {t u : ι → β} {v : β} (same : ∀ i, t i = v ↔ u i = v) : tally t v = tally u v := by
  simp only [tally, same]

variable [DecidableEq ι]

theorem tally_update (t : ι → β) (i : ι) (w v : β) :
    tally (Function.update t i w) v + (if t i = v then 1 else 0) =
      tally t v + (if w = v then 1 else 0) := by
  simp only [tally, Finset.card_filter]
  rw [← Finset.add_sum_erase _ _ (Finset.mem_univ i), ← Finset.add_sum_erase _ _ (Finset.mem_univ i)]
  have rest : ∑ j ∈ Finset.univ.erase i, (if Function.update t i w j = v then 1 else 0) =
      ∑ j ∈ Finset.univ.erase i, (if t j = v then 1 else 0) := by
    refine Finset.sum_congr rfl fun j member => ?_
    rw [Function.update_of_ne (Finset.ne_of_mem_erase member)]
  rw [rest, Function.update_self]
  omega

end Lib
