import Mathlib.Tactic.Common
import Mathlib.Algebra.GroupWithZero.Nat

/-! # Records that tile a range

A range of positions is tiled by a list of records when each record starts where
the one before it ends.  `At off r` says that record `r` is stored at `off`; it is
a parameter, so that two states of the storage can be compared: a change inside
the span of one record leaves the tiling before and after it (`Tiles.replace`).
-/

namespace Lib

variable {R : Type} {len : R → Nat}

/-- The records `rs` fill the range from `lo` to `hi`, in this order. -/
def Tiles (len : R → Nat) (At : Nat → R → Prop) : (lo hi : Nat) → List R → Prop
  | lo, hi, [] => lo = hi
  | lo, hi, r :: rs => At lo r ∧ Tiles len At (lo + len r) hi rs

instance Tiles.decidable {At : Nat → R → Prop} [∀ off r, Decidable (At off r)] :
    ∀ lo hi rs, Decidable (Tiles len At lo hi rs)
  | lo, hi, [] => inferInstanceAs (Decidable (lo = hi))
  | lo, hi, r :: rs =>
    have : Decidable (Tiles len At (lo + len r) hi rs) := Tiles.decidable (lo + len r) hi rs
    inferInstanceAs (Decidable (At lo r ∧ Tiles len At (lo + len r) hi rs))

def span (len : R → Nat) (rs : List R) : Nat := (rs.map len).sum

@[simp] theorem span_nil : span len [] = 0 := rfl

@[simp] theorem span_cons (r : R) (rs : List R) : span len (r :: rs) = len r + span len rs := by
  simp [span]

@[simp] theorem span_append (rs ts : List R) : span len (rs ++ ts) = span len rs + span len ts := by
  simp [span]

variable {At At' : Nat → R → Prop} {lo hi : Nat} {rs ts : List R} {r : R}

@[simp] theorem tiles_nil : Tiles len At lo hi [] ↔ lo = hi := Iff.rfl

@[simp] theorem tiles_cons :
    Tiles len At lo hi (r :: rs) ↔ At lo r ∧ Tiles len At (lo + len r) hi rs := Iff.rfl

theorem Tiles.end_eq (tiles : Tiles len At lo hi rs) : hi = lo + span len rs := by
  induction rs generalizing lo with
  | nil => simpa using tiles.symm
  | cons r rs ih =>
    rw [ih tiles.2, span_cons, Nat.add_assoc]

theorem tiles_append : Tiles len At lo hi (rs ++ ts) ↔
    Tiles len At lo (lo + span len rs) rs ∧ Tiles len At (lo + span len rs) hi ts := by
  induction rs generalizing lo with
  | nil => simp
  | cons r rs ih => simp [ih, and_assoc, Nat.add_assoc]

theorem Tiles.imp (tiles : Tiles len At lo hi rs)
    (same : ∀ off x, lo ≤ off → off + len x ≤ hi → At off x → At' off x) :
    Tiles len At' lo hi rs := by
  induction rs generalizing lo with
  | nil => exact tiles
  | cons r rs ih =>
    obtain ⟨first, rest⟩ := tiles
    have last := rest.end_eq
    refine ⟨same lo r (Nat.le_refl lo) (by omega) first, ih rest fun off x lower => ?_⟩
    exact same off x (by omega)

/-- The span of some records in a row is filled with other records, and nothing else changes. -/
theorem Tiles.exchange {before old after ms : List R} (tiles : Tiles len At lo hi (before ++ (old ++ after)))
    (same : ∀ off x, off + len x ≤ lo + span len before ∨ lo + span len before + span len old ≤ off →
      At off x → At' off x)
    (filled : Tiles len At' (lo + span len before) (lo + span len before + span len old) ms) :
    Tiles len At' lo hi (before ++ (ms ++ after)) := by
  obtain ⟨first, rest⟩ := tiles_append.mp tiles
  obtain ⟨_, rest⟩ := tiles_append.mp rest
  have length := filled.end_eq
  refine tiles_append.mpr ⟨first.imp fun off x _ upper => same off x (.inl upper), ?_⟩
  refine tiles_append.mpr ⟨?_, ?_⟩
  · rw [← length]
    exact filled
  · rw [← length]
    exact rest.imp fun off x lower _ => same off x (.inr lower)

/-- The span of one record is filled with other records, and nothing else changes. -/
theorem Tiles.replace {before after ms : List R} (tiles : Tiles len At lo hi (before ++ r :: after))
    (same : ∀ off x, off + len x ≤ lo + span len before ∨ lo + span len before + len r ≤ off →
      At off x → At' off x)
    (filled : Tiles len At' (lo + span len before) (lo + span len before + len r) ms) :
    Tiles len At' lo hi (before ++ (ms ++ after)) := by
  have one : len r = span len [r] := by simp [span]
  rw [one] at same filled
  exact Tiles.exchange tiles same filled

theorem Tiles.at {before after : List R} (tiles : Tiles len At lo hi (before ++ r :: after)) :
    At (lo + span len before) r ∧ lo + span len before + len r ≤ hi := by
  obtain ⟨_, stored, rest⟩ := tiles_append.mp tiles
  have last := rest.end_eq
  exact ⟨stored, by omega⟩

end Lib
