import Mathlib.Data.List.Nodup

/-! # Linked lists whose links are in their elements

An element has a link to the element behind it, and in a doubly linked list one to the element
before it.  `after xs x` is what the link of `x` should be when the list is `xs`, so a
doubly linked list holds `xs` when its forward links follow `xs` and its backward links follow
the reverse of `xs` (`Links.Holds`).
-/

namespace Lib

open List Function

variable {α : Type} [DecidableEq α] {xs ys zs : List α} {x y : α}

/-- The element behind `x`. -/
def after : List α → α → Option α
  | [], _ => none
  | a :: xs, x => if x = a then xs.head? else after xs x

theorem after_of_not_mem (absent : x ∉ xs) : after xs x = none := by
  induction xs with
  | nil => rfl
  | cons a xs ih =>
    rw [mem_cons, not_or] at absent
    rw [after, if_neg absent.1, ih absent.2]

theorem after_split (absent : x ∉ ys) : after (ys ++ x :: zs) x = zs.head? := by
  induction ys with
  | nil => exact if_pos rfl
  | cons a ys ih =>
    rw [mem_cons, not_or] at absent
    rw [cons_append, after, if_neg absent.1, ih absent.2]

theorem after_concat (nodup : xs.Nodup) (absent : y ∉ xs) (x : α) :
    after (xs ++ [y]) x = if xs.getLast? = some x then some y else after xs x := by
  induction xs with
  | nil => simp [after]
  | cons a xs ih =>
    rw [mem_cons, not_or] at absent
    obtain ⟨notHead, nodup⟩ := nodup_cons.mp nodup
    cases xs with
    | nil => by_cases same : x = a <;> simp [after, same, eq_comm]
    | cons b xs =>
      rw [cons_append, getLast?_cons_cons]
      by_cases same : x = a
      · have notLast : (b :: xs).getLast? ≠ some x := fun last =>
          notHead (same ▸ mem_of_getLast? last)
        rw [after, if_pos same, if_neg notLast, after, if_pos same]
        rfl
      · rw [after, if_neg same, ih nodup absent.2, after.eq_2 x a, if_neg same]

/-! ## Doubly linked lists -/

/-- The ends of a doubly linked list and the links of all elements. -/
structure Links (α : Type) where
  head : Option α
  tail : Option α
  next : α → Option α
  prev : α → Option α

namespace Links

variable (l : Links α)

def empty : Links α := ⟨none, none, fun _ => none, fun _ => none⟩

/-- Append `x`. -/
def push (x : α) : Links α :=
  let next := update l.next x none
  let prev := update l.prev x l.tail
  match l.tail with
  | some t => ⟨l.head, some x, update next t (some x), prev⟩
  | none => ⟨some x, some x, next, prev⟩

def pop : Option α × Links α :=
  match l.head with
  | none => (none, l)
  | some x =>
    let prev := match l.next x with
      | some y => update l.prev y none
      | none => l.prev
    let tail := if (l.next x).isSome then l.tail else none
    (some x, ⟨l.next x, tail, update l.next x none, update prev x none⟩)

/-- Take `x` off, wherever it is. -/
def remove (x : α) : Links α :=
  let p := l.prev x
  let n := l.next x
  let next := match p with
    | some p => update l.next p n
    | none => l.next
  let prev := match n with
    | some n => update l.prev n p
    | none => l.prev
  ⟨if p.isSome then l.head else n, if n.isSome then l.tail else p, update next x none,
    update prev x none⟩

/-- Is `x` on the list, judging by its links? -/
def contains (x : α) : Bool := l.head = some x || (l.prev x).isSome || (l.next x).isSome

/-- The links are those of the list `xs`. -/
structure Holds (xs : List α) : Prop where
  nodup : xs.Nodup
  head : l.head = xs.head?
  tail : l.tail = xs.getLast?
  next : ∀ x, l.next x = after xs x
  prev : ∀ x, l.prev x = after xs.reverse x

variable {l}

theorem holds_empty : (empty : Links α).Holds [] := ⟨nodup_nil, rfl, rfl, fun _ => rfl, fun _ => rfl⟩

theorem Holds.contains (holds : l.Holds xs) (x : α) : l.contains x = true ↔ x ∈ xs := by
  constructor
  · intro found
    by_contra absent
    have noHead : l.head ≠ some x := by
      rw [holds.head]
      exact fun first => absent (mem_of_head? first)
    rw [Links.contains, holds.prev, holds.next, after_of_not_mem absent,
      after_of_not_mem (fun inside => absent (mem_reverse.mp inside))] at found
    simp [noHead] at found
  · intro member
    obtain ⟨ys, zs, rfl⟩ := append_of_mem member
    have nodup := holds.nodup
    -- the first element is the head, and every other one has a link backwards
    rcases eq_nil_or_concat ys with rfl | ⟨ys, y, rfl⟩
    · simp [Links.contains, holds.head]
    · rw [concat_eq_append] at *
      have notBefore : x ∉ zs.reverse := by
        have apart := (nodup_cons.mp (nodup_append.mp nodup).2.1).1
        rwa [mem_reverse]
      have link : l.prev x = some y := by
        rw [holds.prev]
        have turned : (ys ++ [y] ++ x :: zs).reverse = zs.reverse ++ x :: (y :: ys.reverse) := by simp
        rw [turned, after_split notBefore, head?_cons]
      simp [Links.contains, link]

theorem Holds.push (holds : l.Holds xs) (absent : x ∉ xs) : (l.push x).Holds (xs ++ [x]) := by
  have forward (y : α) : (l.push x).next y = after (xs ++ [x]) y := by
    rw [after_concat holds.nodup absent, Links.push]
    cases isTail : l.tail with
    | none =>
      have noLast : xs.getLast? = none := by rw [← holds.tail, isTail]
      rw [noLast, if_neg nofun]
      by_cases same : y = x
      · rw [same, after_of_not_mem absent]
        exact update_self ..
      · rw [← holds.next]
        exact update_of_ne same ..
    | some t =>
      have last : xs.getLast? = some t := by rw [← holds.tail, isTail]
      simp only [last, Option.some.injEq]
      by_cases here : t = y
      · rw [if_pos here, here, update_self]
      · rw [if_neg here, update_of_ne (Ne.symm here), ← holds.next]
        by_cases same : y = x
        · rw [same, update_self, holds.next, after_of_not_mem absent]
        · rw [update_of_ne same]
  have backward (y : α) : (l.push x).prev y = after (xs ++ [x]).reverse y := by
    have prev : (l.push x).prev = update l.prev x l.tail := by
      rw [Links.push]
      cases l.tail <;> rfl
    rw [prev, reverse_append, reverse_singleton, singleton_append, after]
    by_cases same : y = x
    · rw [if_pos same, same, update_self, holds.tail, head?_reverse]
    · rw [if_neg same, update_of_ne same, holds.prev]
  refine ⟨?_, ?_, ?_, forward, backward⟩
  · rw [nodup_append]
    exact ⟨holds.nodup, nodup_singleton x, fun a inside b single => by
      rw [mem_singleton.mp single]
      exact fun same => absent (same ▸ inside)⟩
  · have head := holds.head
    have tail := holds.tail
    rw [Links.push]
    cases xs with
    | nil =>
      simp only [tail, getLast?_nil]
      rfl
    | cons a xs =>
      rw [getLast?_cons] at tail
      simp only [tail, head, cons_append, head?_cons]
  · rw [Links.push]
    cases l.tail <;> simp

theorem Holds.pop_nil (holds : l.Holds []) : l.pop = (none, l) := by
  rw [Links.pop]
  simp only [holds.head, head?_nil]

theorem Holds.pop_cons (holds : l.Holds (x :: xs)) : ∃ l', l.pop = (some x, l') ∧ l'.Holds xs := by
  obtain ⟨absent, nodup⟩ := nodup_cons.mp holds.nodup
  have next : l.next x = xs.head? := by rw [holds.next, after, if_pos rfl]
  refine ⟨l.pop.2, ?_, ?_⟩
  · simp only [Links.pop, holds.head, head?_cons]
  simp only [Links.pop, holds.head, head?_cons]
  refine ⟨nodup, next, ?_, fun y => ?_, fun y => ?_⟩
  · rw [next, holds.tail]
    cases xs with
    | nil => rfl
    | cons a xs =>
      rw [getLast?_cons_cons]
      rfl
  · show update l.next x none y = after xs y
    by_cases same : y = x
    · rw [same, update_self, after_of_not_mem absent]
    · rw [update_of_ne same, holds.next, after, if_neg same]
  · simp only
    by_cases same : y = x
    · rw [same, update_self, after_of_not_mem (fun inside => absent (mem_reverse.mp inside))]
    · rw [update_of_ne same]
      have whole : l.prev y = after (xs.reverse ++ [x]) y := by rw [holds.prev, reverse_cons]
      rw [after_concat (nodup_reverse.mpr nodup) (fun inside => absent (mem_reverse.mp inside)),
        getLast?_reverse] at whole
      rw [next]
      cases isHead : xs.head? with
      | none =>
        rw [isHead, if_neg nofun] at whole
        exact whole
      | some a =>
        rw [isHead] at whole
        by_cases first : y = a
        · -- the new first element has nothing before it
          obtain ⟨zs, rfl⟩ : ∃ zs, xs = a :: zs := head?_eq_some_iff.mp isHead
          have notBefore : a ∉ zs.reverse := by
            rw [mem_reverse]
            exact (nodup_cons.mp nodup).1
          rw [first, reverse_cons, after_split notBefore, head?_nil]
          exact update_self ..
        · rw [if_neg fun same => first (Option.some.inj same).symm] at whole
          simp only [update_of_ne first, whole]

end Links

/-! ## Singly linked lists -/

/-- The links of the elements of `xs` lead from `head` through `xs`. -/
structure Chain (head : Option α) (next : α → Option α) (xs : List α) : Prop where
  nodup : xs.Nodup
  head : head = xs.head?
  next : ∀ x ∈ xs, next x = after xs x

/-- Follow the links to an element that has none. -/
def lastFrom (next : α → Option α) : (fuel : Nat) → α → Option α
  | 0, _ => none
  | fuel + 1, x =>
    match next x with
    | none => some x
    | some y => lastFrom next fuel y

theorem Chain.nil (next : α → Option α) : Chain none next [] :=
  ⟨nodup_nil, rfl, fun _ inside => absurd inside not_mem_nil⟩

theorem Chain.congr {head : Option α} {next next' : α → Option α} (chain : Chain head next xs)
    (same : ∀ x ∈ xs, next' x = next x) : Chain head next' xs :=
  ⟨chain.nodup, chain.head, fun x inside => (same x inside).trans (chain.next x inside)⟩

theorem Chain.tail {head : Option α} {next : α → Option α} (chain : Chain head next (x :: xs)) :
    Chain (next x) next xs := by
  obtain ⟨absent, nodup⟩ := nodup_cons.mp chain.nodup
  refine ⟨nodup, ?_, fun y inside => ?_⟩
  · rw [chain.next x mem_cons_self, after, if_pos rfl]
  · rw [chain.next y (mem_cons_of_mem _ inside), after, if_neg]
    exact fun same => absent (same ▸ inside)

theorem Chain.lastFrom {next : α → Option α} {fuel : Nat} (chain : Chain (some x) next (x :: xs))
    (enough : xs.length < fuel) : lastFrom next fuel x = (x :: xs).getLast? := by
  induction xs generalizing x fuel with
  | nil =>
    obtain ⟨fuel, rfl⟩ := Nat.exists_eq_succ_of_ne_zero (Nat.ne_of_gt enough)
    have stop : next x = none := chain.tail.head
    rw [Lib.lastFrom, stop]
    rfl
  | cons y xs ih =>
    rw [length_cons] at enough
    obtain ⟨fuel, rfl⟩ := Nat.exists_eq_succ_of_ne_zero (show fuel ≠ 0 by omega)
    have onward : next x = some y := chain.tail.head
    have rest := chain.tail
    rw [onward] at rest
    rw [Lib.lastFrom, onward, getLast?_cons_cons]
    exact ih rest (by omega)

theorem Chain.concat {head : Option α} {next : α → Option α} {last : α} (chain : Chain head next xs)
    (isLast : xs.getLast? = some last) (absent : y ∉ xs) :
    Chain head (update (update next y none) last (some y)) (xs ++ [y]) := by
  refine ⟨?_, ?_, fun x member => ?_⟩
  · rw [nodup_append]
    exact ⟨chain.nodup, nodup_singleton y, fun a member b single => by
      rw [mem_singleton.mp single]
      exact fun same => absent (same ▸ member)⟩
  · rw [chain.head]
    cases xs with
    | nil => cases isLast
    | cons a xs => rfl
  · rw [after_concat chain.nodup absent, isLast]
    by_cases here : x = last
    · rw [here, update_self, if_pos rfl]
    · rw [update_of_ne here, if_neg fun same => here (Option.some.inj same).symm]
      rcases mem_append.mp member with old | new
      · rw [update_of_ne (fun same : x = y => absent (same ▸ old)), chain.next x old]
      · rw [mem_singleton.mp new, update_self, after_of_not_mem absent]

end Lib
