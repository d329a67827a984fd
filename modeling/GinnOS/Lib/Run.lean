import Mathlib.Data.Set.Basic

/-! # Runs of a machine

A machine answers an operation and moves to a next state.  A `Run` is a sequence
of operations each of which was allowed in the state it met, with the answers it
got.  What every allowed step preserves holds along the whole run
(`Run.invariant`), and a relation that every step preserves turns a run of the
machine into a run of its specification (`Run.simulates`).
-/

namespace Lib

variable {State Op Ans : Type}

/-- A run of `step` from the first state to the last, in which each operation is allowed when it
is executed. -/
inductive Run (step : State → Op → Ans × State) (Allowed : State → Op → Prop) :
    State → List (Op × Ans) → State → Prop where
  | nil (s : State) : Run step Allowed s [] s
  | cons {s s' s'' : State} {op : Op} {ans : Ans} {trace : List (Op × Ans)}
      (allowed : Allowed s op) (stepped : step s op = (ans, s'))
      (rest : Run step Allowed s' trace s'') : Run step Allowed s ((op, ans) :: trace) s''

def execute (step : State → Op → Ans × State) : State → List Op → List (Op × Ans) × State
  | s, [] => ([], s)
  | s, op :: ops =>
    let rest := execute step (step s op).2 ops
    ((op, (step s op).1) :: rest.1, rest.2)

/-- Every operation of the list is allowed when its turn comes. -/
def AllAllowed (step : State → Op → Ans × State) (Allowed : State → Op → Prop) :
    State → List Op → Prop
  | _, [] => True
  | s, op :: ops => Allowed s op ∧ AllAllowed step Allowed (step s op).2 ops

theorem AllAllowed.of_forall {step : State → Op → Ans × State} {Allowed : State → Op → Prop} {s : State}
    {ops : List Op} (every : ∀ op, op ∈ ops → ∀ s, Allowed s op) : AllAllowed step Allowed s ops := by
  induction ops generalizing s with
  | nil => trivial
  | cons op ops ih =>
    exact ⟨every op List.mem_cons_self s, ih fun op known => every op (List.mem_cons_of_mem _ known)⟩

instance AllAllowed.decide {step : State → Op → Ans × State} {Allowed : State → Op → Prop}
    [∀ s op, Decidable (Allowed s op)] : ∀ s ops, Decidable (AllAllowed step Allowed s ops)
  | _, [] => .isTrue trivial
  | s, op :: ops =>
    have : Decidable (AllAllowed step Allowed (step s op).2 ops) := AllAllowed.decide _ ops
    inferInstanceAs (Decidable (Allowed s op ∧ AllAllowed step Allowed (step s op).2 ops))

theorem Run.of_execute {step : State → Op → Ans × State} {Allowed : State → Op → Prop} {s : State}
    (ops : List Op) (allowed : AllAllowed step Allowed s ops) :
    Run step Allowed s (execute step s ops).1 (execute step s ops).2 := by
  induction ops generalizing s with
  | nil => exact .nil s
  | cons op ops ih => exact .cons allowed.1 rfl (ih allowed.2)

theorem Run.invariant {step : State → Op → Ans × State} {Allowed : State → Op → Prop}
    {I : State → Prop}
    (preserved : ∀ {s op ans s'}, I s → Allowed s op → step s op = (ans, s') → I s')
    {s s' : State} {trace : List (Op × Ans)} (run : Run step Allowed s trace s') (start : I s) :
    I s' := by
  induction run with
  | nil => exact start
  | cons allowed stepped _ ih => exact ih (preserved start allowed stepped)

/-- What is true of every allowed operation is true of the operations of a run. -/
theorem Run.all_ops {step : State → Op → Ans × State} {Allowed : State → Op → Prop}
    {P : Op → Prop} (known : ∀ {s op}, Allowed s op → P op) {s s' : State}
    {trace : List (Op × Ans)} (run : Run step Allowed s trace s') :
    ∀ op ans, (op, ans) ∈ trace → P op := by
  induction run with
  | nil => simp
  | cons allowed _ _ ih =>
    rintro op ans (_ | ⟨_, member⟩)
    · exact known allowed
    · exact ih op ans member

/-- A run of a specification given by a step relation. -/
inductive SpecRun {Abs : Type} (Step : Abs → Op → Ans → Abs → Prop) :
    Abs → List (Op × Ans) → Abs → Prop where
  | nil (a : Abs) : SpecRun Step a [] a
  | cons {a a' a'' : Abs} {op : Op} {ans : Ans} {trace : List (Op × Ans)}
      (stepped : Step a op ans a') (rest : SpecRun Step a' trace a'') :
      SpecRun Step a ((op, ans) :: trace) a''

/-- If every step of the machine, seen through `abs`, is a step of the specification, then every
run of the machine is a run of the specification with the same answers. -/
theorem Run.simulates {Abs : Type} {step : State → Op → Ans × State} {Allowed : State → Op → Prop}
    {R : Abs → Op → Ans → Abs → Prop} {I : State → Prop} (abs : State → Abs)
    (simulated : ∀ {s op ans s'}, I s → Allowed s op → step s op = (ans, s') →
      I s' ∧ R (abs s) op ans (abs s'))
    {s s' : State} {trace : List (Op × Ans)} (run : Run step Allowed s trace s') (start : I s) :
    I s' ∧ SpecRun R (abs s) trace (abs s') := by
  induction run with
  | nil s => exact ⟨start, .nil (abs s)⟩
  | cons allowed stepped _ ih =>
    obtain ⟨next, spec⟩ := simulated start allowed stepped
    obtain ⟨final, rest⟩ := ih next
    exact ⟨final, .cons spec rest⟩

theorem SpecRun.split {Abs : Type} {Step : Abs → Op → Ans → Abs → Prop} {a a' : Abs}
    (first second : List (Op × Ans)) (run : SpecRun Step a (first ++ second) a') :
    ∃ middle, SpecRun Step a first middle ∧ SpecRun Step middle second a' := by
  induction first generalizing a with
  | nil => exact ⟨a, .nil a, run⟩
  | cons _ first ih =>
    cases run with
    | cons stepped rest =>
      obtain ⟨middle, left, right⟩ := ih rest
      exact ⟨middle, .cons stepped left, right⟩

end Lib
