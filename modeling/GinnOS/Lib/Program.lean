import GinnOS.Lib.Run

/-! # Programs that make calls

A program makes a request and goes on with the answer it gets.  `Ensures` is its weakest
precondition with respect to an effect of the requests on a part of the machine that only the
program's own calls change.  A machine that executes the calls, one step at a time and among other
steps, ends in a state that the program ensures (`Ensures.run`).
-/

namespace Lib

inductive Program (Req Ans α : Type) where
  | done (a : α)
  | call (req : Req) (next : Ans → Program Req Ans α)

namespace Program

variable {Req Ans α β T : Type}

def bind : Program Req Ans α → (α → Program Req Ans β) → Program Req Ans β
  | .done a, f => f a
  | .call req next, f => .call req fun ans => (next ans).bind f

instance monad : Monad (Program Req Ans) where
  pure := .done
  bind := bind

/-- One request, with its answer as the result. -/
def request (req : Req) : Program Req Ans Ans := .call req .done

def isDone : Program Req Ans α → Bool
  | .done _ => true
  | .call _ _ => false

theorem eq_done_of_isDone {prog : Program Req Ans α} (isDone : prog.isDone = true) : ∃ a, prog = .done a := by
  cases prog with
  | done a => exact ⟨a, rfl⟩
  | call req next => cases isDone

/-- The program ends only where the postcondition holds, if every call has the effect. -/
def Ensures (effect : Req → T → Ans → T → Prop) : Program Req Ans α → (α → T → Prop) → T → Prop
  | .done a, Post, t => Post a t
  | .call req next, Post, t => ∀ ans t', effect req t ans t' → (next ans).Ensures effect Post t'

variable {effect : Req → T → Ans → T → Prop} {Post Post' : α → T → Prop} {t : T}

theorem ensures_bind {prog : Program Req Ans α} {f : α → Program Req Ans β} {Mid : α → T → Prop} {Post : β → T → Prop}
    (first : prog.Ensures effect Mid t) (second : ∀ a t, Mid a t → (f a).Ensures effect Post t) :
    (prog >>= f).Ensures effect Post t := by
  induction prog generalizing t with
  | done a => exact second a t first
  | call req next ih => exact fun ans t' happened => ih ans (first ans t' happened)

/-! ## Execution -/

/-- A step of the program's process, with what the rest of the world answers, or one of somebody else. -/
inductive Move (Out Op : Type) where
  | self (out : Out)
  | other (op : Op)

/-- How far a step brings a call: the process cannot move, the call goes on, or it returns. -/
inductive Progress (Ans : Type) where
  | stalled
  | pending
  | answer (ans : Ans)

/-- A program and whether its first call has begun. -/
structure Thread (Req Ans α : Type) where
  prog : Program Req Ans α
  begun : Bool

variable {State Out Op : Type}

def step (perform : State → Req → Bool → Out → Progress Ans × State) (others : State → Op → State) :
    State × Thread Req Ans α → Move Out Op → Unit × (State × Thread Req Ans α)
  | (s, thread), .other op => ((), others s op, thread)
  | (s, ⟨.done a, begun⟩), .self _ => ((), s, ⟨.done a, begun⟩)
  | (s, ⟨.call req next, begun⟩), .self out =>
    match perform s req begun out with
    | (.stalled, s') => ((), s', ⟨.call req next, begun⟩)
    | (.pending, s') => ((), s', ⟨.call req next, true⟩)
    | (.answer ans, s') => ((), s', ⟨next ans, false⟩)

/-- When a step may be taken: `Mine` is asked of the own calls, `Theirs` of the steps of others. -/
def Permitted (Mine : State → Req → Prop) (Theirs : Op → Prop) : State × Thread Req Ans α → Move Out Op → Prop
  | _, .other op => Theirs op
  | (_, ⟨.done _, _⟩), .self _ => True
  | (s, ⟨.call req _, _⟩), .self _ => Mine s req

instance Permitted.decide {Mine : State → Req → Prop} {Theirs : Op → Prop} [∀ s req, Decidable (Mine s req)] [∀ op, Decidable (Theirs op)] :
    ∀ (x : State × Thread Req Ans α) (move : Move Out Op), Decidable (Permitted Mine Theirs x move)
  | _, .other op => inferInstanceAs (Decidable (Theirs op))
  | (_, ⟨.done _, _⟩), .self _ => .isTrue trivial
  | (s, ⟨.call req _, _⟩), .self _ => inferInstanceAs (Decidable (Mine s req))

/-- What the machine has to do with the effect of the calls on the part `view` of its state.  Only a `Slow` call is ever
left pending. -/
structure Refines (perform : State → Req → Bool → Out → Progress Ans × State) (others : State → Op → State)
    (Mine : State → Req → Prop) (Theirs : Op → Prop) (Slow : Req → Prop) (effect : Req → T → Ans → T → Prop) (view : State → T)
    (I : State → Prop) : Prop where
  stalled : ∀ s req begun out s', perform s req begun out = (.stalled, s') → s' = s
  pending : ∀ s req begun out s', I s → (begun = true → Slow req) → Mine s req → perform s req begun out = (.pending, s') →
    I s' ∧ Slow req ∧ view s' = view s
  answered : ∀ s req begun out ans s', I s → (begun = true → Slow req) → Mine s req → perform s req begun out = (.answer ans, s') →
    I s' ∧ effect req (view s) ans (view s')
  others : ∀ s op, I s → Theirs op → I (others s op) ∧ view (others s op) = view s

/-- A call that has begun is a slow one. -/
def Thread.Slow (Slow : Req → Prop) : Thread Req Ans α → Prop
  | ⟨.done _, _⟩ => True
  | ⟨.call req _, begun⟩ => begun = true → Slow req

theorem Thread.slow_start (Slow : Req → Prop) (prog : Program Req Ans α) : Thread.Slow Slow ⟨prog, false⟩ := by
  cases prog with
  | done a => trivial
  | call req next => exact nofun

theorem Ensures.run {perform : State → Req → Bool → Out → Progress Ans × State} {others : State → Op → State}
    {Mine : State → Req → Prop} {Theirs : Op → Prop} {Slow : Req → Prop} {view : State → T} {I : State → Prop}
    (refines : Refines perform others Mine Theirs Slow effect view I) {s s' : State} {prog : Program Req Ans α}
    {thread : Thread Req Ans α} {trace : List (Move Out Op × Unit)} (ensures : prog.Ensures effect Post (view s)) (start : I s)
    (run : Run (step perform others) (Permitted Mine Theirs) (s, ⟨prog, false⟩) trace (s', thread)) :
    I s' ∧ thread.prog.Ensures effect Post (view s') := by
  have kept := run.invariant (I := fun x => I x.1 ∧ Thread.Slow Slow x.2 ∧ x.2.prog.Ensures effect Post (view x.1))
    (fun {x op _ x'} known allowed stepped => ?_) ⟨start, Thread.slow_start Slow prog, ensures⟩
  · exact ⟨kept.1, kept.2.2⟩
  obtain ⟨s, prog, begun⟩ := x
  obtain ⟨here, slow, ensures⟩ := known
  cases op with
  | other op =>
    cases stepped
    obtain ⟨after, same⟩ := refines.others s op here allowed
    exact ⟨after, slow, same.symm ▸ ensures⟩
  | self out =>
    cases prog with
    | done a =>
      cases stepped
      exact ⟨here, slow, ensures⟩
    | call req next =>
      rw [step] at stepped
      split at stepped
      · next s' performed =>
        cases stepped
        rw [refines.stalled s req begun out s' performed]
        exact ⟨here, slow, ensures⟩
      · next s' performed =>
        cases stepped
        obtain ⟨after, slow', same⟩ := refines.pending s req begun out s' here slow allowed performed
        exact ⟨after, fun _ => slow', same.symm ▸ ensures⟩
      · next ans s' performed =>
        cases stepped
        obtain ⟨after, happened⟩ := refines.answered s req begun out ans s' here slow allowed performed
        exact ⟨after, Thread.slow_start Slow (next ans), ensures ans _ happened⟩

end Program

end Lib
