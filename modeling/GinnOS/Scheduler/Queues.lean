import GinnOS.Scheduler.Model
import GinnOS.Lib.Run
import Mathlib.Data.Fintype.Option

/-! # What the queues hold

`Core s xs ws hole` says that the ready queue holds `xs` and the wait queue `q` holds `ws q`, and
what the states of the processes have to do with that.  A blocked process is on a wait queue or
waits for a child, except in the middle of a call, when the process `hole` is just being
moved.  Between calls (`Ok`) there is no such process, and the current process is running.
-/

namespace GinnOS.Scheduler

open Lib Function Sched

variable {s'' : Sched} {f : Pcb → Pcb} {i : Fin processMax}

instance : Fintype Ref :=
  Fintype.ofEquiv (Option (Fin processMax))
    ⟨fun o => o.elim .idle .slot, fun | .idle => none | .slot i => some i, fun o => by cases o <;> rfl,
      fun p => by cases p <;> rfl⟩

theorem card_ref : Fintype.card Ref = processMax + 1 := by
  rw [Fintype.ofEquiv_card, Fintype.card_option, Fintype.card_fin]

/-- A list without repeats is not longer than the process table and the idle process. -/
theorem length_le_of_nodup {xs : List Ref} (nodup : xs.Nodup) : xs.length ≤ processMax + 1 :=
  card_ref ▸ nodup.length_le_card

/-- What holds of one process, whatever the queues are.  Who has no parent was started by the
kernel shell. -/
structure Legal (b : Pcb) (p : Ref) (isCurrent isShell : Prop) : Prop where
  waitFor : b.waitForPid ≠ 0 → b.state = .blocked
  running : b.state = .running → p = .idle ∨ isCurrent
  idle : p = .idle → b.state = .ready ∨ b.state = .running
  pid : p ≠ .idle → b.state ≠ .unused → b.pid ≠ 0
  rooted : p ≠ .idle → isCurrent ∨ b.state = .blocked → b.parentPid ≠ 0 ∨ isShell

structure Core (s : Sched) (xs : List Ref) (ws : Nat → List Ref) (hole : Option Ref) : Prop where
  ready : s.ready.Holds xs
  count : s.count = UInt32.ofNat xs.length
  queued : ∀ p ∈ xs, p ≠ .idle ∧ (s.procs p).state = .ready ∧ ((s.procs p).parentPid ≠ 0 ∨ s.shellChild = some p)
  chain : ∀ q, Chain (s.heads q) s.waitNext (ws q)
  apart : ∀ {p q q'}, p ∈ ws q → p ∈ ws q' → q = q'
  waiting : ∀ {p q}, p ∈ ws q → p ≠ .idle ∧ (s.procs p).state = .blocked ∧ (s.procs p).waitForPid = 0
  blocked : ∀ p, hole ≠ some p → (s.procs p).state = .blocked → (∃ q, p ∈ ws q) ∨ (s.procs p).waitForPid ≠ 0
  legal : ∀ p, Legal (s.procs p) p (s.current = some p) (s.shellChild = some p)
  fine : s.halted = false

structure Ok (s : Sched) (xs : List Ref) (ws : Nat → List Ref) : Prop extends Core s xs ws none where
  current : ∀ p, s.current = some p → (s.procs p).state = .running

/-- A process that waits for nobody and can be run. -/
structure Free (s : Sched) (ws : Nat → List Ref) (p : Ref) : Prop where
  noWait : ∀ q, p ∉ ws q
  noChild : (s.procs p).waitForPid = 0
  pid : p ≠ .idle → (s.procs p).pid ≠ 0
  rooted : p ≠ .idle → (s.procs p).parentPid ≠ 0 ∨ s.shellChild = some p

/-- Nobody came or went, and everybody has the identity from before. -/
structure SameProcs (s s' : Sched) : Prop where
  pid : ∀ p, (s'.procs p).pid = (s.procs p).pid
  parentPid : ∀ p, (s'.procs p).parentPid = (s.procs p).parentPid
  unused : ∀ p, (s'.procs p).state = .unused ↔ (s.procs p).state = .unused

/-- Nobody exited, either. -/
structure Stays (s s' : Sched) : Prop extends SameProcs s s' where
  exitCode : ∀ p, (s'.procs p).exitCode = (s.procs p).exitCode
  zombie : ∀ p, (s'.procs p).state = .zombie ↔ (s.procs p).state = .zombie
  nextPid : s'.nextPid = s.nextPid
  shellChild : s'.shellChild = s.shellChild
  active : s.active = true → s'.active = true
  current : s.current ≠ none → s'.current ≠ none

/-- And nobody began to wait for a child. -/
structure Kept (s s' : Sched) : Prop extends Stays s s' where
  waitFor : ∀ p, (s'.procs p).waitForPid ≠ 0 → (s'.procs p).waitForPid = (s.procs p).waitForPid

variable {s s' : Sched} {xs ys : List Ref} {ws : Nat → List Ref} {hole : Option Ref} {p p' : Ref} {q : Nat}

theorem SameProcs.trans (first : SameProcs s s') (second : SameProcs s' s'') : SameProcs s s'' :=
  ⟨fun p => (second.pid p).trans (first.pid p), fun p => (second.parentPid p).trans (first.parentPid p),
    fun p => (second.unused p).trans (first.unused p)⟩

theorem Kept.refl (s : Sched) : Kept s s :=
  ⟨⟨⟨fun _ => rfl, fun _ => rfl, fun _ => Iff.rfl⟩, fun _ => rfl, fun _ => Iff.rfl, rfl, rfl, id, id⟩, fun _ _ => rfl⟩

theorem Stays.trans (first : Stays s s') (second : Stays s' s'') : Stays s s'' where
  toSameProcs := first.toSameProcs.trans second.toSameProcs
  exitCode p := (second.exitCode p).trans (first.exitCode p)
  zombie p := (second.zombie p).trans (first.zombie p)
  nextPid := second.nextPid.trans first.nextPid
  shellChild := second.shellChild.trans first.shellChild
  active := second.active ∘ first.active
  current := second.current ∘ first.current

theorem Kept.trans (first : Kept s s') (second : Kept s' s'') : Kept s s'' where
  toStays := first.toStays.trans second.toStays
  waitFor p waits := by
    have later := second.waitFor p waits
    exact later.trans (first.waitFor p (later ▸ waits))

theorem Sched.procs_modify (s : Sched) (p p' : Ref) (f : Pcb → Pcb) :
    (s.modify p f).procs p' = if p' = p then f (s.procs p) else s.procs p' := update_apply ..

theorem Sched.procs_setState (s : Sched) (p p' : Ref) (state : ProcState) :
    (s.setState p state).procs p' = if p' = p then { s.procs p with state := state } else s.procs p' :=
  s.procs_modify p p' _

theorem Stays.congr (stays : Stays s s') (procs : s''.procs = s'.procs) (nextPid : s''.nextPid = s'.nextPid)
    (shellChild : s''.shellChild = s'.shellChild) (active : s'.active = true → s''.active = true)
    (current : s'.current ≠ none → s''.current ≠ none) : Stays s s'' := by
  obtain ⟨⟨pid, parentPid, unused⟩, exitCode, zombie, next, shell, was, had⟩ := stays
  rw [← procs] at pid parentPid exitCode zombie unused
  exact ⟨⟨pid, parentPid, unused⟩, exitCode, zombie, nextPid.trans next, shellChild.trans shell, active ∘ was, current ∘ had⟩

theorem Kept.congr (kept : Kept s s') (procs : s''.procs = s'.procs) (nextPid : s''.nextPid = s'.nextPid)
    (shellChild : s''.shellChild = s'.shellChild) (active : s'.active = true → s''.active = true)
    (current : s'.current ≠ none → s''.current ≠ none) : Kept s s'' := by
  refine ⟨kept.toStays.congr procs nextPid shellChild active current, ?_⟩
  rw [procs]
  exact kept.waitFor

/-- A process that is there is changed, but not its identity. -/
theorem SameProcs.modify (pid : (f (s.procs p)).pid = (s.procs p).pid)
    (parentPid : (f (s.procs p)).parentPid = (s.procs p).parentPid) (old : (s.procs p).state ≠ .unused)
    (new : (f (s.procs p)).state ≠ .unused) : SameProcs s (s.modify p f) := by
  refine ⟨fun p' => ?_, fun p' => ?_, fun p' => ?_⟩ <;> rw [procs_modify] <;> split
  · next here => rw [pid, here]
  · rfl
  · next here => rw [parentPid, here]
  · rfl
  · next here =>
    rw [here]
    exact iff_of_false new old
  · rfl

theorem Stays.modify (same : SameProcs s (s.modify p f)) (exitCode : (f (s.procs p)).exitCode = (s.procs p).exitCode)
    (old : (s.procs p).state ≠ .zombie) (new : (f (s.procs p)).state ≠ .zombie) : Stays s (s.modify p f) := by
  refine ⟨same, fun p' => ?_, fun p' => ?_, rfl, rfl, id, id⟩ <;> rw [procs_modify] <;> split
  · next here => rw [exitCode, here]
  · rfl
  · next here =>
    rw [here]
    exact iff_of_false new old
  · rfl

theorem Kept.modify (stays : Stays s (s.modify p f))
    (waitFor : (f (s.procs p)).waitForPid ≠ 0 → (f (s.procs p)).waitForPid = (s.procs p).waitForPid) : Kept s (s.modify p f) := by
  refine ⟨stays, fun p' => ?_⟩
  rw [procs_modify]
  split
  · next here =>
    rw [here]
    exact waitFor
  · exact fun _ => rfl

/-- Changing the state of a process that is there to another one that keeps it there. -/
theorem Kept.setState (state : ProcState) (old : (s.procs p).state ≠ .unused ∧ (s.procs p).state ≠ .zombie)
    (new : state ≠ .unused ∧ state ≠ .zombie) : Kept s (s.setState p state) :=
  .modify (.modify (.modify rfl rfl old.1 new.1) rfl old.2 new.2) fun _ => rfl

namespace Core

theorem not_queued (core : Core s xs ws hole) (state : (s.procs p).state ≠ .ready) : p ∉ xs :=
  fun inside => state (core.queued p inside).2.1

theorem not_waiting (core : Core s xs ws hole) (state : (s.procs p).state ≠ .blocked) (q : Nat) : p ∉ ws q :=
  fun inside => state (core.waiting inside).2.1

theorem modify (core : Core s xs ws hole) (only : ∀ p', hole = some p' → p' = p) (off : p ∉ xs) (noWait : ∀ q, p ∉ ws q) (legal : Legal (f (s.procs p)) p (s.current = some p) (s.shellChild = some p)) :
    Core (s.modify p f) xs ws (some p) := by
  have other {p' : Ref} (different : p' ≠ p) : (s.modify p f).procs p' = s.procs p' := by
    rw [procs_modify, if_neg different]
  refine { core with queued := ?_, waiting := ?_, blocked := ?_, legal := ?_ }
  · intro p' inside
    rw [other fun same => off (same ▸ inside)]
    exact core.queued p' inside
  · intro p' q inside
    rw [other fun same => noWait q (same ▸ inside)]
    exact core.waiting inside
  · intro p' outside
    have different : p' ≠ p := fun same => outside (congrArg some same.symm)
    rw [other different]
    exact core.blocked p' fun isHole => different (only p' isHole)
  · intro p'
    by_cases same : p' = p
    · rw [procs_modify, if_pos same, same]
      exact legal
    · rw [other same]
      exact core.legal p'

theorem fill (core : Core s xs ws (some p))
    (arrived : (s.procs p).state = .blocked → (∃ q, p ∈ ws q) ∨ (s.procs p).waitForPid ≠ 0) : Core s xs ws none := by
  refine { core with blocked := fun p' _ => ?_ }
  by_cases same : p' = p
  · rw [same]
    exact arrived
  · exact core.blocked p' fun isHole => same (Option.some.inj isHole).symm

theorem push (core : Core s xs ws hole) (off : p ∉ xs) (notIdle : p ≠ .idle) (state : (s.procs p).state = .ready)
    (rooted : (s.procs p).parentPid ≠ 0 ∨ s.shellChild = some p) : Core (s.queuePush p) (xs ++ [p]) ws hole := by
  refine { core with ready := core.ready.push off, count := ?_, queued := ?_ }
  · rw [queuePush, core.count, List.length_append, List.length_singleton, UInt32.ofNat_add]
    rfl
  · intro p' inside
    rcases List.mem_append.mp inside with old | new
    · exact core.queued p' old
    · rw [List.mem_singleton.mp new]
      exact ⟨notIdle, state, rooted⟩

theorem pop_nil (core : Core s [] ws hole) : s.queuePop = (none, s) := by
  rw [queuePop, core.ready.pop_nil]

theorem pop_cons (core : Core s (p :: xs) ws hole) : ∃ s', s.queuePop = (some p, s') ∧ Core s' xs ws hole ∧
    s' = { s with ready := s'.ready, count := s'.count } := by
  obtain ⟨ready, popped, holds⟩ := core.ready.pop_cons
  refine ⟨_, by rw [queuePop, popped], ?_, rfl⟩
  refine { core with ready := holds, count := ?_, queued := fun p' inside => core.queued p' (List.mem_cons_of_mem _ inside) }
  simp only [core.count, List.length_cons, UInt32.ofNat_add]
  exact UInt32.add_sub_cancel ..

section

variable (core : Core s xs ws hole)

include core

theorem active (b : Bool) : Core { s with active := b } xs ws hole := { core with }

theorem ticks (n : UInt32) : Core { s with ticksRemaining := n } xs ws hole := { core with }

theorem remove (off : p ∉ xs) : s.schedulerRemove p = s := by
  rw [schedulerRemove, if_neg]
  rw [core.ready.contains]
  exact off

/-- `scheduler_ready` for a process that is on no queue. -/
theorem schedulerReady (only : ∀ p', hole = some p' → p' = p) (off : p ∉ xs) (free : Free s ws p)
    (notIdle : p ≠ .idle) : Core (s.schedulerReady p) (xs ++ [p]) ws none := by
  have pcb : (s.setState p .ready).procs p = { s.procs p with state := .ready } := by rw [procs_setState, if_pos rfl]
  have moved : Core (s.setState p .ready) xs ws (some p) :=
    core.modify only off free.noWait ⟨fun waits => absurd free.noChild waits, nofun, fun isIdle => absurd isIdle notIdle,
      fun notIdle _ => free.pid notIdle, fun notIdle _ => free.rooted notIdle⟩
  have arrived := moved.fill fun blocked => by
    rw [pcb] at blocked
    cases blocked
  exact (arrived.push off notIdle (by rw [pcb]) (by rw [pcb]; exact free.rooted notIdle)).active true

theorem queued_free (inside : p ∈ xs) : Free s ws p := by
  obtain ⟨notIdle, isReady, rooted⟩ := core.queued p inside
  refine ⟨core.not_waiting (by rw [isReady]; nofun), ?_, fun _ => (core.legal p).pid notIdle (by rw [isReady]; nofun),
    fun _ => rooted⟩
  by_contra waits
  rw [(core.legal p).waitFor waits] at isReady
  cases isReady

theorem running_free (running : (s.procs p).state = .running) : Free s ws p := by
  refine ⟨core.not_waiting (by rw [running]; nofun), ?_, fun notIdle => (core.legal p).pid notIdle (by rw [running]; nofun),
    fun notIdle => (core.legal p).rooted notIdle (.inl (((core.legal p).running running).resolve_left notIdle))⟩
  by_contra waits
  rw [(core.legal p).waitFor waits] at running
  cases running

end

end Core

/-! ## Switching -/

theorem Core.dispatch (core : Core s xs ws none) (off : p ∉ xs) (free : Free s ws p)
    (alone : ∀ p', (s.procs p').state = .running → p' = .idle) : Ok (s.dispatch p) xs ws := by
  have isRunning : ((s.setState p .running).procs p).state = .running := by rw [procs_setState, if_pos rfl]
  -- seen from the state in which the process is current already
  have current : Core { s with current := some p } xs ws none := by
    refine { core with legal := fun p' => ?_ }
    obtain ⟨waitFor, _, idle, pid, rooted⟩ := core.legal p'
    refine ⟨waitFor, fun runs => .inl (alone p' runs), idle, pid, fun notIdle reason => ?_⟩
    rcases reason with isCurrent | blocked
    · obtain rfl : p = p' := Option.some.inj isCurrent
      exact free.rooted notIdle
    · exact rooted notIdle (.inr blocked)
  have moved : Core (setState { s with current := some p } p .running) xs ws (some p) :=
    current.modify nofun off free.noWait ⟨fun waits => absurd free.noChild waits, fun _ => .inr rfl, fun _ => .inr rfl,
      fun notIdle _ => free.pid notIdle, fun notIdle _ => free.rooted notIdle⟩
  have arrived := moved.fill fun blocked => absurd (isRunning.symm.trans blocked) nofun
  refine ⟨arrived.ticks timeSlice, fun p' is => ?_⟩
  obtain rfl : p = p' := Option.some.inj is
  exact isRunning

theorem Sched.currentRuns_iff (s : Sched) : s.currentRuns = true ↔
    ∃ i, s.current = some (.slot i) ∧ (s.procs (.slot i)).state = .running := by
  rw [currentRuns]
  split
  · next i is => simp [is]
  · next other =>
    constructor
    · exact nofun
    · rintro ⟨i, is, _⟩
      exact absurd is (other i)

/-- What `schedule` does. -/
inductive Switched (s : Sched) (ws : Nat → List Ref) : List Ref → Sched → Prop where
  | stay {i : Fin processMax} (is : s.current = some (.slot i)) (running : (s.procs (.slot i)).state = .running) :
      Switched s ws [] { s with ticksRemaining := timeSlice }
  | idle (stopped : s.currentRuns = false) : Switched s ws [] (s.dispatch .idle)
  | next {p : Ref} {rest : List Ref} {s₁ : Sched} (core : Core s₁ rest ws none)
      (only : s₁ = { s with ready := s₁.ready, count := s₁.count }) (stopped : s.currentRuns = false) :
      Switched s ws (p :: rest) (s₁.dispatch p)
  | preempt {p : Ref} {rest : List Ref} {s₁ : Sched} {i : Fin processMax} (core : Core s₁ rest ws none)
      (only : s₁ = { s with ready := s₁.ready, count := s₁.count }) (is : s.current = some (.slot i))
      (running : (s.procs (.slot i)).state = .running) :
      Switched s ws (p :: rest) (((s₁.setState (.slot i) .ready).queuePush (.slot i)).dispatch p)

theorem Core.switched (core : Core s xs ws none) : Switched s ws xs s.schedule := by
  cases xs with
  | nil =>
    rw [schedule, core.pop_nil]
    simp only
    split
    · next runs =>
      obtain ⟨i, is, running⟩ := (s.currentRuns_iff).mp runs
      exact .stay is running
    · next stopped => exact .idle (Bool.eq_false_of_not_eq_true stopped)
  | cons next rest =>
    obtain ⟨s₁, popped, core₁, only⟩ := core.pop_cons
    have sameCurrent : s₁.current = s.current := by rw [only]
    have sameRuns : s₁.currentRuns = s.currentRuns := by
      rw [only]
      rfl
    rw [schedule, popped]
    simp only [sameRuns, sameCurrent]
    cases isCurrent : s.current with
    | none => exact .next core₁ only (by rw [currentRuns, isCurrent])
    | some cur =>
      simp only
      split
      · next runs =>
        obtain ⟨i, is, running⟩ := (s.currentRuns_iff).mp runs
        obtain rfl : Ref.slot i = cur := Option.some.inj (is.symm.trans isCurrent)
        exact .preempt core₁ only is running
      · next stopped => exact .next core₁ only (Bool.eq_false_of_not_eq_true stopped)

/-- Nobody but the idle process runs once the current process has stopped. -/
theorem Core.alone (core : Core s xs ws hole) (stopped : s.currentRuns = false) (runs : (s.procs p).state = .running) :
    p = .idle := by
  rcases (core.legal p).running runs with isIdle | isCurrent
  · exact isIdle
  · cases p with
    | idle => rfl
    | slot i =>
      rw [(s.currentRuns_iff).mpr ⟨i, isCurrent, runs⟩] at stopped
      cases stopped

theorem Core.requeue (core : Core s xs ws none) (is : s.current = some (.slot i))
    (running : (s.procs (.slot i)).state = .running) :
    Core ((s.setState (.slot i) .ready).queuePush (.slot i)) (xs ++ [.slot i]) ws none ∧
      ∀ p, ((s.setState (.slot i) .ready).procs p).state = .running → p = .idle := by
  have free := core.running_free running
  have off : Ref.slot i ∉ xs := core.not_queued (by rw [running]; nofun)
  have pcb : (s.setState (.slot i) .ready).procs (.slot i) = { s.procs (.slot i) with state := .ready } := by
    rw [procs_setState, if_pos rfl]
  have moved : Core (s.setState (.slot i) .ready) xs ws (some (.slot i)) :=
    core.modify nofun off free.noWait ⟨fun waits => absurd free.noChild waits, nofun, nofun,
      fun notIdle _ => free.pid notIdle, fun notIdle _ => free.rooted notIdle⟩
  have arrived := moved.fill fun blocked => by
    rw [pcb] at blocked
    cases blocked
  refine ⟨arrived.push off nofun (by rw [pcb]) (by rw [pcb]; exact free.rooted nofun), fun p runs => ?_⟩
  rw [procs_setState] at runs
  split at runs
  · cases runs
  · next other =>
    exact ((core.legal p).running runs).resolve_right fun isCurrent => other (Option.some.inj (isCurrent.symm.trans is))

theorem Core.idle_free (core : Core s xs ws none) : Free s ws .idle := by
  rcases (core.legal .idle).idle rfl with ready | running
  · refine ⟨core.not_waiting (by rw [ready]; nofun), ?_, fun notIdle => absurd rfl notIdle, fun notIdle => absurd rfl notIdle⟩
    by_contra waits
    rw [(core.legal .idle).waitFor waits] at ready
    cases ready
  · exact core.running_free running

theorem Core.schedule (core : Core s xs ws none) : ∃ ys, Ok s.schedule ys ws := by
  have switched := core.switched
  generalize s.schedule = s' at switched ⊢
  cases switched with
  | stay is running =>
    refine ⟨[], core.ticks timeSlice, fun p is' => ?_⟩
    rw [← Option.some.inj (is.symm.trans is')]
    exact running
  | idle stopped => exact ⟨[], core.dispatch List.not_mem_nil core.idle_free fun _ => core.alone stopped⟩
  | next core₁ only stopped =>
    rename_i p rest s₁
    have sameProcs : s₁.procs = s.procs := by rw [only]
    have free : Free s₁ ws p := by
      rw [only]
      exact { core.queued_free List.mem_cons_self with }
    refine ⟨rest, core₁.dispatch (List.nodup_cons.mp core.ready.nodup).1 free fun p' runs => ?_⟩
    rw [sameProcs] at runs
    exact core.alone stopped runs
  | preempt core₁ only is running =>
    rename_i p rest s₁ i
    have sameProcs : s₁.procs = s.procs := by rw [only]
    have free := core.queued_free List.mem_cons_self
    have different : p ≠ .slot i := by
      rintro rfl
      rw [(core.queued _ List.mem_cons_self).2.1] at running
      cases running
    rw [← sameProcs] at running
    obtain ⟨queue, alone⟩ := core₁.requeue (by rw [only]; exact is) running
    have samePcb : (s₁.setState (.slot i) .ready).procs p = s.procs p := by
      rw [procs_setState, if_neg different, sameProcs]
    have free' : Free ((s₁.setState (.slot i) .ready).queuePush (.slot i)) ws p := by
      refine ⟨free.noWait, ?_, ?_, ?_⟩
      · exact samePcb ▸ free.noChild
      · exact samePcb ▸ free.pid
      · rw [show ((s₁.setState (.slot i) .ready).queuePush (.slot i)).shellChild = s.shellChild by rw [only]; rfl]
        exact samePcb ▸ free.rooted
    refine ⟨rest ++ [.slot i], queue.dispatch ?_ free' alone⟩
    rw [List.mem_append, List.mem_singleton, not_or]
    exact ⟨(List.nodup_cons.mp core.ready.nodup).1, different⟩

theorem Kept.dispatch (old : (s.procs p).state ≠ .unused ∧ (s.procs p).state ≠ .zombie) : Kept s (s.dispatch p) :=
  (Kept.setState .running old ⟨nofun, nofun⟩).congr rfl rfl rfl id fun _ => nofun

theorem Core.kept_schedule (core : Core s xs ws none) : Kept s s.schedule := by
  have switched := core.switched
  have idle : (s.procs .idle).state ≠ .unused ∧ (s.procs .idle).state ≠ .zombie := by
    rcases (core.legal .idle).idle rfl with is | is <;> rw [is] <;> exact ⟨nofun, nofun⟩
  have queued {p : Ref} (inside : p ∈ xs) : (s.procs p).state ≠ .unused ∧ (s.procs p).state ≠ .zombie := by
    rw [(core.queued p inside).2.1]
    exact ⟨nofun, nofun⟩
  generalize s.schedule = s' at switched ⊢
  cases switched with
  | stay is running => exact (Kept.refl s).congr rfl rfl rfl id id
  | idle stopped => exact .dispatch idle
  | next core₁ only stopped =>
    rename_i p rest s₁
    have popped : Kept s s₁ := by
      rw [only]
      exact (Kept.refl s).congr rfl rfl rfl id id
    refine popped.trans (.dispatch ?_)
    rw [only]
    exact queued List.mem_cons_self
  | preempt core₁ only is running =>
    rename_i p rest s₁ i
    have popped : Kept s s₁ := by
      rw [only]
      exact (Kept.refl s).congr rfl rfl rfl id id
    have sameProcs : s₁.procs = s.procs := by rw [only]
    have requeued : Kept s₁ ((s₁.setState (.slot i) .ready).queuePush (.slot i)) := by
      refine (Kept.setState .ready ?_ ⟨nofun, nofun⟩).congr rfl rfl rfl id id
      rw [sameProcs, running]
      exact ⟨nofun, nofun⟩
    refine popped.trans (requeued.trans (.dispatch ⟨fun unused => ?_, fun zombie => ?_⟩))
    · have before := (requeued.unused p).mp unused
      rw [sameProcs] at before
      exact (queued List.mem_cons_self).1 before
    · have before := (requeued.zombie p).mp zombie
      rw [sameProcs] at before
      exact (queued List.mem_cons_self).2 before

theorem Core.yield (core : Core s xs ws none) (active : s.active = true) :
    (∃ ys, Ok s.schedulerYield ys ws) ∧ Kept s s.schedulerYield := by
  rw [schedulerYield, if_pos active]
  have later : Core { s with ticksRemaining := 0 } xs ws none := core.ticks 0
  have counted : Kept s { s with ticksRemaining := 0 } := (Kept.refl s).congr rfl rfl rfl id id
  exact ⟨later.schedule, counted.trans later.kept_schedule⟩

namespace Ok

theorem tick (ok : Ok s xs ws) : (∃ ys, Ok s.schedulerTick ys ws) ∧ Kept s s.schedulerTick := by
  have counted (n : UInt32) : Ok { s with ticksRemaining := n } xs ws := ⟨ok.ticks n, ok.current⟩
  have unchanged (n : UInt32) : Kept s { s with ticksRemaining := n } := (Kept.refl s).congr rfl rfl rfl id id
  have expired (n : UInt32) : (∃ ys, Ok { s with ticksRemaining := n }.schedule ys ws) ∧ Kept s { s with ticksRemaining := n }.schedule :=
    ⟨(counted n).toCore.schedule, (unchanged n).trans (counted n).toCore.kept_schedule⟩
  rw [schedulerTick]
  split
  · split
    · simp only
      split
      · exact expired _
      · exact ⟨⟨xs, counted _⟩, unchanged _⟩
    · simp only
      split
      · exact expired s.ticksRemaining
      · exact ⟨⟨xs, ok⟩, .refl s⟩
  · exact ⟨⟨xs, ok⟩, .refl s⟩

theorem yield (ok : Ok s xs ws) : (∃ ys, Ok s.schedulerYield ys ws) ∧ Kept s s.schedulerYield := by
  by_cases active : s.active = true
  · exact ok.toCore.yield active
  · rw [schedulerYield, if_neg active]
    exact ⟨⟨xs, ok⟩, .refl s⟩

end Ok

/-! ## Waiting -/

theorem Core.append (core : Core s xs ws (some p)) (notIdle : p ≠ .idle) (state : (s.procs p).state = .blocked)
    (noChild : (s.procs p).waitForPid = 0) (noWait : ∀ q, p ∉ ws q) (q : Nat) :
    Core (s.queueAppend q p) xs (update ws q (ws q ++ [p])) none := by
  have cleared (q' : Nat) : Chain (s.heads q') (update s.waitNext p none) (ws q') :=
    (core.chain q').congr fun p' inside => update_of_ne (fun same : p' = p => noWait q' (same ▸ inside)) ..
  -- what does not depend on how the element is linked
  have shape {s' : Sched} (rest : s' = { s with heads := s'.heads, waitNext := s'.waitNext })
      (chain : ∀ q', Chain (s'.heads q') s'.waitNext (update ws q (ws q ++ [p]) q')) :
      Core s' xs (update ws q (ws q ++ [p])) none := by
    have member {p' : Ref} {q' : Nat} (inside : p' ∈ update ws q (ws q ++ [p]) q') :
        p' ∈ ws q' ∨ p' = p ∧ q' = q := by
      by_cases here : q' = q
      · rw [here, update_self, List.mem_append, List.mem_singleton] at inside
        rw [here]
        exact inside.imp id fun same => ⟨same, rfl⟩
      · rw [update_of_ne here] at inside
        exact .inl inside
    rw [rest]
    refine { core with chain := chain, apart := ?_, waiting := ?_, blocked := ?_ }
    · intro p' q₁ q₂ first second
      rcases member first with old | ⟨isNew, here⟩ <;> rcases member second with old' | ⟨isNew', here'⟩
      · exact core.apart old old'
      · exact absurd (isNew' ▸ old) (noWait q₁)
      · exact absurd (isNew ▸ old') (noWait q₂)
      · rw [here, here']
    · intro p' q' inside
      rcases member inside with old | ⟨isNew, _⟩
      · exact core.waiting old
      · rw [isNew]
        exact ⟨notIdle, state, noChild⟩
    · intro p' _ isBlocked
      by_cases same : p' = p
      · refine .inl ⟨q, ?_⟩
        rw [update_self, same]
        exact List.mem_append_right _ (List.mem_singleton_self p)
      · refine (core.blocked p' (fun isHole => same (Option.some.inj isHole).symm) isBlocked).imp ?_ id
        rintro ⟨q', inside⟩
        refine ⟨q', ?_⟩
        by_cases here : q' = q
        · rw [here, update_self]
          exact List.mem_append_left _ (here ▸ inside)
        · rwa [update_of_ne here]
  rw [queueAppend]
  have first := (core.chain q).head
  cases isHead : s.heads q with
  | none =>
    have empty : ws q = [] := List.head?_eq_none_iff.mp (first.symm.trans isHead)
    refine shape rfl fun q' => ?_
    simp only
    by_cases here : q' = q
    · rw [here, update_self, update_self, empty]
      refine ⟨List.nodup_singleton p, rfl, fun p' inside => ?_⟩
      rw [List.mem_singleton.mp inside, update_self]
      simp [after]
    · rw [update_of_ne here, update_of_ne here]
      exact cleared q'
  | some head =>
    obtain ⟨rest, isList⟩ := List.head?_eq_some_iff.mp (first.symm.trans isHead)
    have here := cleared q
    rw [isHead, isList] at here
    have bound := length_le_of_nodup here.nodup
    rw [List.length_cons] at bound
    simp only
    rw [here.lastFrom (show rest.length < processMax + 1 by omega)]
    cases isLast : (head :: rest).getLast? with
    | none => cases List.getLast?_eq_none_iff.mp isLast
    | some last =>
      refine shape rfl fun q' => ?_
      have inQueue : last ∈ ws q := isList ▸ List.mem_of_getLast? isLast
      by_cases same : q' = q
      · rw [same, update_self, isHead, isList]
        exact (isHead ▸ isList ▸ core.chain q).concat isLast (isList ▸ noWait q)
      · rw [update_of_ne same]
        refine (cleared q').congr fun p' inside => update_of_ne (fun isLast => same ?_) ..
        exact core.apart (isLast ▸ inside) inQueue

namespace Ok

theorem stop (ok : Ok s xs ws) (is : s.current = some (.slot i))
    (waitFor : (f (s.procs (.slot i))).waitForPid ≠ 0 → (f (s.procs (.slot i))).state = .blocked)
    (pid : (f (s.procs (.slot i))).pid = (s.procs (.slot i)).pid)
    (parentPid : (f (s.procs (.slot i))).parentPid = (s.procs (.slot i)).parentPid) :
    Core (s.modify (.slot i) f) xs ws (some (.slot i)) ∧ Ref.slot i ∉ xs := by
  have running := ok.current _ is
  have free := ok.running_free running
  have off : Ref.slot i ∉ xs := ok.not_queued (by rw [running]; nofun)
  refine ⟨ok.modify nofun off free.noWait ⟨waitFor, fun _ => .inr is, nofun, fun notIdle _ => ?_, fun notIdle _ => ?_⟩, off⟩
  · rw [pid]
    exact free.pid notIdle
  · rw [parentPid]
    exact free.rooted notIdle

theorem current_pid (ok : Ok s xs ws) (is : s.current = some (.slot i)) :
    (s.procs (.slot i)).pid ≠ 0 := (ok.running_free (ok.current _ is)).pid nofun

theorem block (ok : Ok s xs ws) (active : s.active = true) (is : s.current = some (.slot i)) (q : Nat) :
    (∃ ys, Ok (s.waitQueueBlock q) ys (update ws q (ws q ++ [.slot i]))) ∧ Kept s (s.waitQueueBlock q) := by
  have running := ok.current _ is
  have free := ok.running_free running
  have pcb : (s.setState (.slot i) .blocked).procs (.slot i) = { s.procs (.slot i) with state := .blocked } := by
    rw [procs_setState, if_pos rfl]
  obtain ⟨stopped, off⟩ : Core (s.setState (.slot i) .blocked) xs ws (some (.slot i)) ∧ Ref.slot i ∉ xs :=
    ok.stop is (fun _ => rfl) rfl rfl
  have appended := stopped.append nofun (by rw [pcb]) (by rw [pcb]; exact free.noChild) free.noWait q
  have there : Kept s (s.setState (.slot i) .blocked) :=
    .setState _ (by rw [running]; exact ⟨nofun, nofun⟩) ⟨nofun, nofun⟩
  have linked : Kept (s.setState (.slot i) .blocked) ((s.setState (.slot i) .blocked).queueAppend q (.slot i)) := by
    refine (Kept.refl _).congr ?_ ?_ ?_ ?_ ?_ <;> rw [queueAppend] <;> simp only <;> split
    all_goals first | rfl | exact id | (split <;> first | rfl | exact id)
  simp only [waitQueueBlock, is, stopped.remove off]
  obtain ⟨done, kept⟩ := appended.yield (linked.active active)
  exact ⟨done, (there.trans linked).trans kept⟩

/-! ## Waking -/

theorem wakeOne (ok : Ok s xs ws) {rest : List Ref} (isList : ws q = p :: rest) :
    Ok (s.waitQueueWakeOne q) (xs ++ [p]) (update ws q rest) ∧ Kept s (s.waitQueueWakeOne q) := by
  have chain := ok.chain q
  rw [isList] at chain
  have isHead : s.heads q = some p := chain.head
  obtain ⟨notIdle, blocked, noChild⟩ := ok.waiting (isList ▸ List.mem_cons_self : p ∈ ws q)
  have absent : p ∉ rest := (List.nodup_cons.mp chain.nodup).1
  have elsewhere {q' : Nat} (other : q' ≠ q) : p ∉ ws q' := fun inside =>
    other (ok.apart inside (isList ▸ List.mem_cons_self))
  have noWait (q' : Nat) : p ∉ update ws q rest q' := by
    by_cases here : q' = q
    · rw [here, update_self]
      exact absent
    · rw [update_of_ne here]
      exact elsewhere here
  have member {p' : Ref} {q' : Nat} (inside : p' ∈ update ws q rest q') : p' ∈ ws q' := by
    by_cases here : q' = q
    · rw [here, update_self] at inside
      rw [here, isList]
      exact List.mem_cons_of_mem _ inside
    · rwa [update_of_ne here] at inside
  have unlinked : Core { s with heads := update s.heads q (s.waitNext p), waitNext := update s.waitNext p none }
      xs (update ws q rest) (some p) := by
    refine { ok.toCore with chain := fun q' => ?_, apart := ?_, waiting := ?_, blocked := ?_ }
    · simp only
      by_cases here : q' = q
      · rw [here, update_self, update_self]
        exact chain.tail.congr fun p' inside => update_of_ne (fun same : p' = p => absent (same ▸ inside)) ..
      · rw [update_of_ne here, update_of_ne here]
        exact (ok.chain q').congr fun p' inside =>
          update_of_ne (fun same : p' = p => elsewhere here (same ▸ inside)) ..
    · exact fun first second => ok.apart (member first) (member second)
    · exact fun inside => ok.waiting (member inside)
    · intro p' other isBlocked
      have different : p' ≠ p := fun same => other (congrArg some same.symm)
      refine (ok.blocked p' nofun isBlocked).imp ?_ id
      rintro ⟨q', inside⟩
      refine ⟨q', ?_⟩
      by_cases here : q' = q
      · rw [here, isList] at inside
        rw [here, update_self]
        exact List.mem_of_ne_of_mem different inside
      · rwa [update_of_ne here]
  have notUnused : (s.procs p).state ≠ .unused := by rw [blocked]; nofun
  have woken := unlinked.schedulerReady (fun _ isHole => (Option.some.inj isHole).symm)
    (ok.not_queued (by rw [blocked]; nofun)) ⟨noWait, noChild, fun notIdle => (ok.legal p).pid notIdle notUnused,
      fun notIdle => (ok.legal p).rooted notIdle (.inr blocked)⟩ notIdle
  simp only [waitQueueWakeOne, isHead]
  refine ⟨⟨woken, fun p' is => ?_⟩, ?_⟩
  · have running : (s.procs p').state = .running := ok.current p' is
    have different : p' ≠ p := by
      rintro rfl
      rw [running] at blocked
      cases blocked
    show ((setState _ p .ready).procs p').state = .running
    rw [procs_setState, if_neg different]
    exact running
  · have there : Kept s (s.setState p .ready) := .setState _ ⟨notUnused, by rw [blocked]; nofun⟩ ⟨nofun, nofun⟩
    exact there.congr rfl rfl rfl (fun _ => rfl) id

theorem wakeOne_nil (ok : Ok s xs ws) (isList : ws q = []) : s.waitQueueWakeOne q = s := by
  have chain := ok.chain q
  rw [isList] at chain
  have isHead : s.heads q = none := chain.head
  simp only [waitQueueWakeOne, isHead]

end Ok

theorem Sched.heads_wakeFrom (fuel : Nat) (s : Sched) (p : Option Ref) : (s.wakeFrom fuel p).heads = s.heads := by
  induction fuel generalizing s p with
  | zero => rfl
  | succ fuel ih =>
    cases p with
    | none => rfl
    | some p => exact ih _ _

/-- The loop, seen from the state in which the queue begins where the loop is. -/
theorem Ok.wakeFrom {fuel : Nat} {p : Option Ref} (ok : Ok { s with heads := update s.heads q p } xs ws)
    (enough : (ws q).length < fuel) : ∃ ys ws',
      Ok { s.wakeFrom fuel p with heads := update s.heads q none } ys ws' ∧
      Kept s { s.wakeFrom fuel p with heads := update s.heads q none } := by
  induction fuel generalizing s xs ws p with
  | zero => omega
  | succ fuel ih =>
    have chain := ok.chain q
    simp only [update_self] at chain
    cases isList : ws q with
    | nil =>
      have isNone : p = none := by
        rw [isList] at chain
        exact chain.head
      subst isNone
      exact ⟨xs, ws, ok, (Kept.refl s).congr rfl rfl rfl id id⟩
    | cons first rest =>
      have isFirst : p = some first := by
        rw [isList] at chain
        exact chain.head
      subst isFirst
      obtain ⟨next, kept⟩ := ok.wakeOne isList
      simp only [waitQueueWakeOne, update_self, update_idem] at next kept
      have begun : Kept s { s with heads := update s.heads q (some first) } := (Kept.refl s).congr rfl rfl rfl id id
      have advanced : Kept s (schedulerReady { s with waitNext := update s.waitNext first none } first) :=
        (begun.trans kept).congr rfl rfl rfl id id
      have shorter : (update ws q rest q).length < fuel := by
        rw [update_self]
        rw [isList, List.length_cons] at enough
        omega
      obtain ⟨ys, ws', done, kept'⟩ :=
        ih (s := schedulerReady { s with waitNext := update s.waitNext first none } first) next shorter
      exact ⟨ys, ws', done, advanced.trans kept'⟩

theorem Ok.wakeAll (ok : Ok s xs ws) (q : Nat) : (∃ ys ws', Ok (s.waitQueueWakeAll q) ys ws') ∧ Kept s (s.waitQueueWakeAll q) := by
  have same : { s with heads := update s.heads q (s.heads q) } = s := by rw [update_eq_self]
  have bound := length_le_of_nodup (ok.chain q).nodup
  have begun : Ok { s with heads := update s.heads q (s.heads q) } xs ws := by
    rw [same]
    exact ok
  obtain ⟨ys, ws', done, kept⟩ := begun.wakeFrom (show (ws q).length < processMax + 3 by omega)
  rw [waitQueueWakeAll]
  simp only [heads_wakeFrom]
  exact ⟨⟨ys, ws', done⟩, kept⟩

end GinnOS.Scheduler
