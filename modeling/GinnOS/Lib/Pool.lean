import GinnOS.Lib.Run

/-! # Resource pools

The specification of an allocator: a set of free elements, each of some kind.
Taking returns a free element of the kind that was asked for and says `empty`
only when there is none; giving back makes exactly that element free.
-/

namespace Lib

/-- Requests to a pool whose elements are numbered within a kind. -/
inductive PoolOp (Kind : Type) where
  | take (kind : Kind)
  | give (kind : Kind) (n : Nat)
  deriving DecidableEq

inductive PoolAns where
  | taken (n : Nat)
  | empty
  | given
  | refused
  deriving DecidableEq

/-- One request to a pool with the given free elements. -/
inductive PoolStep {Kind : Type} : Set (Kind × Nat) → PoolOp Kind → PoolAns → Set (Kind × Nat) → Prop where
  | taken {free : Set (Kind × Nat)} {kind : Kind} {n : Nat} (was : (kind, n) ∈ free) :
      PoolStep free (.take kind) (.taken n) (free \ {(kind, n)})
  | empty {free : Set (Kind × Nat)} {kind : Kind} (none_left : ∀ n, (kind, n) ∉ free) :
      PoolStep free (.take kind) .empty free
  | given {free : Set (Kind × Nat)} {kind : Kind} {n : Nat} (was : (kind, n) ∉ free) :
      PoolStep free (.give kind n) .given (insert (kind, n) free)

variable {Kind : Type} {free free' : Set (Kind × Nat)}

/-- An element that is not free stays so until it is given back. -/
theorem SpecRun.stays_taken {trace : List (PoolOp Kind × PoolAns)} (kind : Kind) (n : Nat)
    (run : SpecRun PoolStep free trace free') (held : (kind, n) ∉ free)
    (kept : ∀ ans, (PoolOp.give kind n, ans) ∉ trace) : (kind, n) ∉ free' := by
  induction run with
  | nil => exact held
  | cons stepped rest ih =>
    refine ih ?_ fun ans member => kept ans (List.mem_cons_of_mem _ member)
    cases stepped with
    | taken => exact fun member => held member.1
    | empty => exact held
    | given was =>
      rename_i other m
      rintro (same | member)
      · obtain ⟨rfl, rfl⟩ := Prod.mk.inj same
        exact kept _ List.mem_cons_self
      · exact held member

/-- What is true of the free elements and of those given back is true of those returned. -/
theorem SpecRun.of_taken {trace : List (PoolOp Kind × PoolAns)} {P : Kind × Nat → Prop}
    (run : SpecRun PoolStep free trace free') (start : ∀ x, x ∈ free → P x)
    (returned : ∀ kind n ans, (PoolOp.give kind n, ans) ∈ trace → P (kind, n)) :
    ∀ kind n, (PoolOp.take kind, PoolAns.taken n) ∈ trace → P (kind, n) := by
  induction run with
  | nil => simp
  | cons stepped rest ih =>
    have later := ih (by
      cases stepped with
      | taken => exact fun x member => start x member.1
      | empty => exact start
      | given =>
        rintro x (rfl | member)
        · exact returned _ _ _ List.mem_cons_self
        · exact start x member)
      fun kind n ans member => returned kind n ans (List.mem_cons_of_mem _ member)
    rintro kind n (_ | ⟨_, member⟩)
    · cases stepped with
      | taken was => exact start _ was
    · exact later kind n member

/-- An element that was returned is returned again only after it has been given back. -/
theorem SpecRun.given_between {before between after : List (PoolOp Kind × PoolAns)} {kind : Kind}
    {n : Nat}
    (run : SpecRun PoolStep free
      (before ++ (.take kind, .taken n) :: (between ++ (.take kind, .taken n) :: after)) free') :
    ∃ ans, (PoolOp.give kind n, ans) ∈ between := by
  by_contra never
  obtain ⟨_, _, run⟩ := run.split before
  cases run with
  | cons stepped run =>
    obtain ⟨_, middle, run⟩ := run.split between
    have held := middle.stays_taken kind n
      (by cases stepped with | taken => exact fun member => member.2 rfl)
      fun ans member => never ⟨ans, member⟩
    cases run with
    | cons again _ =>
      cases again with
      | taken was => exact held was

end Lib
