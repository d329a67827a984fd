import GinnOS.Lib.Links

/-! # Processes and the scheduler

The process table, the ready queue, the wait queues and the calls that move processes between
them.  The ready links and the wait link of a process are kept beside the table.  A call runs to
the point where the processor is given away; `resume` is the rest of a `sys_waitpid` that had to
wait.
-/

namespace GinnOS.Scheduler

open Lib Function

def processMax : Nat := 64

/-- `SCHED_TIME_SLICE`. -/
def timeSlice : UInt32 := 2

inductive ProcState where
  | unused
  | running
  | ready
  | blocked
  | zombie
deriving DecidableEq, Repr

/-- A pointer to a process: the idle process or a slot of the table. -/
inductive Ref where
  | idle
  | slot (i : Fin processMax)
deriving DecidableEq, Repr

structure Pcb where
  pid : UInt32
  parentPid : UInt32
  state : ProcState
  exitCode : Int32
  waitForPid : UInt32
deriving DecidableEq, Repr

structure Sched where
  procs : Ref → Pcb
  nextPid : UInt32
  current : Option Ref
  ready : Links Ref
  count : UInt32
  ticksRemaining : UInt32
  active : Bool
  waitNext : Ref → Option Ref
  /-- The first waiter of every wait queue. -/
  heads : Nat → Option Ref
  /-- The child for which a process is inside `sys_waitpid`. -/
  inWaitpid : Ref → Option UInt32
  /-- The process that the kernel shell executes. -/
  shellChild : Option Ref
  /-- The kernel panicked, or a loop over links does not end. -/
  halted : Bool

def freeSlot : Pcb := ⟨0, 0, .unused, 0, 0⟩

/-- After `process_init` and `scheduler_init`. -/
def initial : Sched where
  procs p := if p = .idle then { freeSlot with state := .ready } else freeSlot
  nextPid := 1
  current := none
  ready := .empty
  count := 0
  ticksRemaining := timeSlice
  active := false
  waitNext _ := none
  heads _ := none
  inWaitpid _ := none
  shellChild := none
  halted := false

namespace Sched

variable (s : Sched)

def modify (p : Ref) (f : Pcb → Pcb) : Sched := { s with procs := update s.procs p (f (s.procs p)) }

def setState (p : Ref) (state : ProcState) : Sched := s.modify p fun pcb => { pcb with state := state }

def halt : Sched := { s with halted := true }

def processGet (pid : UInt32) : Option Ref :=
  if pid = 0 then none
  else ((List.finRange processMax).find? fun i =>
    (s.procs (.slot i)).state ≠ .unused && (s.procs (.slot i)).pid = pid).map .slot

/-! ## The ready queue -/

def queuePush (p : Ref) : Sched := { s with ready := s.ready.push p, count := s.count + 1 }

def queuePop : Option Ref × Sched :=
  match s.ready.pop with
  | (none, _) => (none, s)
  | (some p, ready) => (some p, { s with ready := ready, count := s.count - 1 })

def schedulerReady (p : Ref) : Sched := { (s.setState p .ready).queuePush p with active := true }

def schedulerRemove (p : Ref) : Sched :=
  if s.ready.contains p then { s with ready := s.ready.remove p, count := s.count - 1 } else s

/-- The current process is not the idle process and could go on. -/
def currentRuns : Bool :=
  match s.current with
  | some (.slot i) => (s.procs (.slot i)).state = .running
  | _ => false

/-- The end of `schedule`.  When `next` is the current process, no context is switched. -/
def dispatch (next : Ref) : Sched :=
  { s.setState next .running with current := some next, ticksRemaining := timeSlice }

def schedule : Sched :=
  match s.queuePop with
  | (none, s) => if s.currentRuns then { s with ticksRemaining := timeSlice } else s.dispatch .idle
  | (some next, s) =>
    match s.current with
    | some p => if s.currentRuns then ((s.setState p .ready).queuePush p).dispatch next else s.dispatch next
    | none => s.dispatch next

def schedulerTick : Sched :=
  if s.active then
    let s := if 0 < s.ticksRemaining then { s with ticksRemaining := s.ticksRemaining - 1 } else s
    if s.ticksRemaining = 0 then s.schedule else s
  else s

def schedulerYield : Sched := if s.active then { s with ticksRemaining := 0 }.schedule else s

/-! ## Wait queues -/

/-- `queue_append`.  A chain of links that does not end within the number of processes never ends. -/
def queueAppend (q : Nat) (p : Ref) : Sched :=
  let s := { s with waitNext := update s.waitNext p none }
  match s.heads q with
  | none => { s with heads := update s.heads q (some p) }
  | some head =>
    match lastFrom s.waitNext (processMax + 1) head with
    | none => s.halt
    | some last => { s with waitNext := update s.waitNext last (some p) }

def waitQueueBlock (q : Nat) : Sched :=
  match s.current with
  | none => s
  | some p => (((s.setState p .blocked).schedulerRemove p).queueAppend q p).schedulerYield

def waitQueueWakeOne (q : Nat) : Sched :=
  match s.heads q with
  | none => s
  | some p =>
    schedulerReady { s with heads := update s.heads q (s.waitNext p), waitNext := update s.waitNext p none } p

/-- The loop of `wait_queue_wake_all` from the process `p` on. -/
def wakeFrom : (fuel : Nat) → Sched → (p : Option Ref) → Sched
  | 0, s, _ => s.halt
  | _ + 1, s, none => s
  | fuel + 1, s, some p =>
    wakeFrom fuel (schedulerReady { s with waitNext := update s.waitNext p none } p) (s.waitNext p)

def waitQueueWakeAll (q : Nat) : Sched :=
  let s := wakeFrom (processMax + 3) s (s.heads q)
  { s with heads := update s.heads q none }

/-! ## Processes come and go -/

/-- `process_destroy`; `wakes` are the wait queues whose last descriptor on the other side it closes. -/
def processDestroy (p : Ref) (wakes : List Nat) : Sched :=
  (wakes.foldl waitQueueWakeAll s).modify p fun pcb => { pcb with state := .unused, pid := 0 }

/-- How `exec_program` goes on: there is no page for the stack or the directory, the file cannot be
loaded, or all is well. -/
inductive ExecOutcome where
  | noMemory
  | badFile
  | loaded
deriving DecidableEq, Repr

def unusedSlot : Option (Fin processMax) :=
  (List.finRange processMax).find? fun i => (s.procs (.slot i)).state = .unused

/-- `process_create` up to the allocation of the stack. -/
def processCreate (i : Fin processMax) : Sched :=
  { s with
    procs := update s.procs (.slot i) ⟨s.nextPid, 0, .ready, 0, 0⟩
    nextPid := s.nextPid + 1
    ready := { s.ready with
      next := update s.ready.next (.slot i) none, prev := update s.ready.prev (.slot i) none }
    waitNext := update s.waitNext (.slot i) none
    inWaitpid := update s.inWaitpid (.slot i) none }

/-- `exec_program`, for a process or for the kernel shell. -/
def execProgram (outcome : ExecOutcome) : Option Int32 × Sched :=
  match s.unusedSlot with
  | none => (some (-1), s)
  | some i =>
    let created := s.processCreate i
    match outcome with
    | .noMemory => (some (-1), created)
    | .badFile => (some (-1), created.processDestroy (.slot i) [])
    | .loaded =>
      match s.current with
      | some parent =>
        (some (s.nextPid.toInt32),
          (created.modify (.slot i) fun pcb => { pcb with parentPid := (s.procs parent).pid }).schedulerReady (.slot i))
      | none => (none, { created.setState (.slot i) .running with current := some (.slot i), shellChild := some (.slot i) })

/-- The process that waits for `pid` is woken. -/
def wakeParent (pid : UInt32) (parent : Option Ref) : Sched :=
  match parent with
  | none => s
  | some parent =>
    if (s.procs parent).state = .blocked ∧ (s.procs parent).waitForPid = pid then
      (s.modify parent fun pcb => { pcb with state := .ready, waitForPid := 0 }).schedulerReady parent
    else s

/-- The kernel goes on behind `kernel_setjmp` in `exec_program`. -/
def leaveShell (wakes : List Nat) : Sched :=
  match s.shellChild with
  | some child => { s.processDestroy child wakes with current := none, shellChild := none }
  | none => s.halt

/-- A process that exits, marked as a zombie. -/
def dying (p : Ref) (code : Int32) : Sched := s.modify p fun pcb => { pcb with state := .zombie, exitCode := code }

def usermodeExit (code : Int32) (wakes : List Nat) : Sched :=
  match s.current with
  | none => s.leaveShell wakes
  | some p =>
    if (s.procs p).parentPid = 0 then s.leaveShell wakes
    else
      let dead := (s.dying p code).schedulerRemove p
      let left := (dead.wakeParent (dead.procs p).pid (dead.processGet (dead.procs p).parentPid)).schedulerYield
      -- a zombie woke up
      if left.current = some p then left.halt else left

/-- A process that waits for its child, marked as blocked. -/
def waitingFor (p : Ref) (childPid : UInt32) : Sched :=
  let s := s.modify p fun pcb => { pcb with state := .blocked, waitForPid := childPid }
  { s with inWaitpid := update s.inWaitpid p (some childPid) }

/-- `sys_waitpid` up to the point where the process waits. -/
def sysWaitpid (childPid : UInt32) (wakes : List Nat) : Option Int32 × Sched :=
  match s.current with
  | none => (some (-3), s)
  | some parent =>
    match s.processGet childPid with
    | none => (some (-19), s)
    | some child =>
      if (s.procs child).parentPid ≠ (s.procs parent).pid then (some (-20), s)
      else if (s.procs child).state = .zombie then (some (s.procs child).exitCode, s.processDestroy child wakes)
      else (none, ((s.waitingFor parent childPid).schedulerRemove parent).schedulerYield)

/-- The rest of `sys_waitpid`, once the process runs again. -/
def resumeWaitpid (wakes : List Nat) : Option Int32 × Sched :=
  match s.current with
  | none => (none, s)
  | some parent =>
    match s.inWaitpid parent with
    | none => (none, s)
    | some childPid =>
      let back := { s with inWaitpid := update s.inWaitpid parent none }
      match s.processGet childPid with
      | none => (some (-19), back)
      | some child =>
        if (s.procs child).state = .zombie then (some (s.procs child).exitCode, back.processDestroy child wakes)
        else (some (-19), back)

end Sched

/-- The calls and interrupts. -/
inductive Op where
  | exec (outcome : Sched.ExecOutcome)
  | exit (code : Int32) (wakes : List Nat)
  | waitpid (pid : UInt32) (wakes : List Nat)
  | resume (wakes : List Nat)
  | block (q : Nat)
  | wakeOne (q : Nat)
  | wakeAll (q : Nat)
  | tick
  | yield

/-- One call; `none` if it does not return to its caller. -/
def Sched.step (s : Sched) : Op → Option Int32 × Sched
  | .exec outcome => s.execProgram outcome
  | .exit code wakes => (none, s.usermodeExit code wakes)
  | .waitpid pid wakes => s.sysWaitpid pid wakes
  | .resume wakes => s.resumeWaitpid wakes
  | .block q => (none, s.waitQueueBlock q)
  | .wakeOne q => (none, s.waitQueueWakeOne q)
  | .wakeAll q => (none, s.waitQueueWakeAll q)
  | .tick => (none, s.schedulerTick)
  | .yield => (none, s.schedulerYield)

end GinnOS.Scheduler
