import Mathlib.Data.List.Perm.Lattice

/-! # Tables

A list of entries is the table of a partial map when no key occurs twice and the
map gives for each key the value of its entry (`Table`).  The order of the entries
does not matter; entering a new key and taking an entry out are updates of the
map.
-/

namespace Lib

open List Function

variable {E K B : Type}

/-- The entries are the table of the map `m`. -/
structure Table (key : E → K) (val : E → B) (entries : List E) (m : K → Option B) : Prop where
  nodup : (entries.map key).Nodup
  some_iff : ∀ k x, m k = some x ↔ ∃ e, e ∈ entries ∧ key e = k ∧ val e = x

namespace Table

variable {key : E → K} {val : E → B} {entries : List E} {m : K → Option B}

theorem nil : Table key val [] fun _ => none where
  nodup := nodup_nil
  some_iff k x := by simp

variable (table : Table key val entries m)

include table

theorem perm {others : List E} (same : others.Perm entries) : Table key val others m where
  nodup := (same.map key).nodup_iff.mpr table.nodup
  some_iff k x := by simp only [table.some_iff, same.mem_iff]

theorem value {e : E} (entry : e ∈ entries) : m (key e) = some (val e) :=
  (table.some_iff _ _).mpr ⟨e, entry, rfl, rfl⟩

theorem none_iff (k : K) : m k = none ↔ ∀ e, e ∈ entries → key e ≠ k := by
  constructor
  · rintro absent e entry rfl
    rw [table.value entry] at absent
    cases absent
  · intro absent
    cases found : m k with
    | none => rfl
    | some x =>
      obtain ⟨e, entry, here, _⟩ := (table.some_iff k x).mp found
      exact absurd here (absent e entry)

variable [DecidableEq K]

theorem enter {e : E} (absent : m (key e) = none) :
    Table key val (e :: entries) (update m (key e) (some (val e))) where
  nodup := by
    rw [map_cons, nodup_cons]
    refine ⟨fun known => ?_, table.nodup⟩
    obtain ⟨e', entry, same⟩ := mem_map.mp known
    exact (table.none_iff _).mp absent e' entry same
  some_iff k x := by
    by_cases here : k = key e
    · subst here
      rw [update_self, Option.some_inj]
      constructor
      · rintro rfl
        exact ⟨e, mem_cons_self, rfl, rfl⟩
      · rintro ⟨e', entry, same, rfl⟩
        rcases mem_cons.mp entry with rfl | old
        · rfl
        · exact absurd same ((table.none_iff _).mp absent e' old)
    · rw [update_of_ne here, table.some_iff]
      constructor
      · rintro ⟨e', entry, found⟩
        exact ⟨e', mem_cons_of_mem e entry, found⟩
      · rintro ⟨e', entry, rfl, found⟩
        rcases mem_cons.mp entry with rfl | old
        · exact absurd rfl here
        · exact ⟨e', old, rfl, found⟩

omit table in
theorem leave {e : E} (table : Table key val (e :: entries) m) :
    Table key val entries (update m (key e) none) where
  nodup := (nodup_cons.mp table.nodup).2
  some_iff k x := by
    have alone := (nodup_cons.mp table.nodup).1
    by_cases here : k = key e
    · subst here
      rw [update_self]
      refine ⟨nofun, ?_⟩
      rintro ⟨e', entry, same, _⟩
      exact absurd (mem_map.mpr ⟨e', entry, same⟩) alone
    · rw [update_of_ne here, table.some_iff]
      constructor
      · rintro ⟨e', entry, rfl, found⟩
        rcases mem_cons.mp entry with rfl | old
        · exact absurd rfl here
        · exact ⟨e', old, rfl, found⟩
      · rintro ⟨e', entry, found⟩
        exact ⟨e', mem_cons_of_mem e entry, found⟩

end Table

end Lib
