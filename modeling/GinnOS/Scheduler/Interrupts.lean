import GinnOS.Scheduler.Calls

/-! # The end of the timer interrupt

`irq_handler` acknowledges IRQ 0 after the handler of the timer has returned, and `schedule`
switches to another process inside that handler.  So the acknowledgement is sent when the
process that is switched to was itself switched away from by the timer, and
not when it had yielded or has never run (`timer_not_acknowledged`).
-/

namespace GinnOS.Scheduler

open Lib

/-- Where the processor goes on when it is switched to a process. -/
inductive Suspended where
  /-- At its entry, `process_entry_trampoline` or `idle_entry`. -/
  | never
  /-- Inside `pit_irq_handler`, called by `irq_handler`. -/
  | inTick
  /-- Behind a call of `scheduler_yield`. -/
  | inYield
deriving DecidableEq, Repr

structure Cpu where
  sched : Sched
  suspended : Ref → Suspended
  /-- IRQ 0 is in service at the PIC. -/
  inService : Bool

inductive CpuOp where
  | timer
  | call (op : Op)

namespace Cpu

variable (c : Cpu)

/-- `pic_send_eoi(0)`. -/
def sendEoi : Cpu := { c with inService := false }

/-- The processor goes on with the process `p`; inside `irq_handler` that is the acknowledgement. -/
def goOn (p : Ref) : Cpu := if c.suspended p = .inTick then c.sendEoi else c

/-- The scheduler has decided, and contexts are switched if the current process is another one. -/
def switch (sched : Sched) (how : Suspended) : Cpu :=
  match sched.current with
  | none => { c with sched := sched }
  | some new =>
    if c.sched.current = some new then { c with sched := sched }
    else
      -- the context of the current process is saved, if there is one
      let suspended p := if c.sched.current = some p then how else c.suspended p
      goOn { c with sched := sched, suspended := suspended } new

/-- The current process stays the same. -/
def Stays (sched : Sched) : Bool := c.sched.current = sched.current

/-- `irq_handler` for IRQ 0. -/
def irqHandler : Cpu :=
  let entered := { c with inService := true }
  let sched := c.sched.schedulerTick
  let switched := entered.switch sched .inTick
  -- without a switch, the handler returns here
  if c.Stays sched then switched.sendEoi else switched

/-- A call of the current process; a new process has never run. -/
def call (op : Op) : Cpu :=
  let suspended := match op, c.sched.unusedSlot with
    | .exec _, some i => Function.update c.suspended (.slot i) .never
    | _, _ => c.suspended
  { c with suspended := suspended }.switch (c.sched.step op).2 .inYield

def step : CpuOp → Unit × Cpu
  | .timer => ((), c.irqHandler)
  | .call op => ((), c.call op)

/-- The PIC delivers IRQ 0 only when it is not in service.  The scheduler is called by processes. -/
def Possible : CpuOp → Prop
  | .timer => c.inService = false
  | .call op => c.sched.Moves op

/-- The timer switches only to processes that it switched away from. -/
def TickToTick : CpuOp → Prop
  | .timer => c.Stays c.sched.schedulerTick = false →
      ∀ p ∈ c.sched.schedulerTick.current, c.suspended p = .inTick
  | .call _ => True

variable {c}

theorem goOn_inService {p : Ref} (quiet : c.inService = false) : (c.goOn p).inService = false := by
  rw [goOn]
  split
  · rfl
  · exact quiet

/-- Outside the handler a switch leaves IRQ 0 alone or acknowledges it once more. -/
theorem switch_inService (sched : Sched) (how : Suspended) (quiet : c.inService = false) :
    (c.switch sched how).inService = false := by
  rw [switch]
  split
  · exact quiet
  · split
    · exact quiet
    · exact goOn_inService quiet

end Cpu

theorem Sched.current_schedulerTick (s : Sched) : s.schedulerTick.current = s.current ∨ s.schedulerTick.current ≠ none := by
  have scheduled (s : Sched) : s.schedule.current = s.current ∨ s.schedule.current ≠ none := by
    have popped : s.queuePop.2.current = s.current := by
      rw [Sched.queuePop]
      split <;> rfl
    rw [Sched.schedule]
    split
    · next s' isPop =>
      rw [isPop] at popped
      split
      · exact .inl popped
      · exact .inr (fun same => by cases same)
    · split
      · split <;> exact .inr (fun same => by cases same)
      · exact .inr (fun same => by cases same)
  rw [Sched.schedulerTick]
  split
  · simp only
    split
    · split
      · exact scheduled _
      · exact .inl rfl
    · split
      · exact scheduled s
      · exact .inl rfl
  · exact .inl rfl

namespace Cpu

variable {c c' : Cpu}

/-- The handler sends the acknowledgement itself, or the process it switched to does. -/
theorem irqHandler_inService (meets : c.TickToTick .timer) : c.irqHandler.inService = false := by
  rw [irqHandler]
  split
  · rfl
  · next moved =>
    have moved := Bool.eq_false_of_not_eq_true moved
    have different : c.sched.current ≠ c.sched.schedulerTick.current := of_decide_eq_false moved
    obtain ⟨new, is⟩ := Option.ne_none_iff_exists'.mp (c.sched.current_schedulerTick.resolve_left (Ne.symm different))
    have inTick := meets moved new is
    rw [is] at different
    simp only [switch, is, if_neg different, goOn, inTick, if_true]
    rfl

theorem step_inService {op : CpuOp} {ans : Unit} (quiet : c.inService = false) (meets : c.TickToTick op)
    (stepped : c.step op = (ans, c')) : c'.inService = false := by
  obtain rfl : (c.step op).2 = c' := congrArg Prod.snd stepped
  cases op with
  | timer => exact irqHandler_inService meets
  | call op => exact switch_inService _ _ quiet

end Cpu

/-- As long as the timer switches only between processes that it switched away from, IRQ 0 is not
in service when a process runs. -/
theorem timer_acknowledged {c c' : Cpu} {trace : List (CpuOp × Unit)} (quiet : c.inService = false)
    (run : Run Cpu.step (fun c op => c.Possible op ∧ c.TickToTick op) c trace c') : c'.inService = false :=
  run.invariant (I := fun c => c.inService = false) (fun quiet meets stepped => Cpu.step_inService quiet meets.2 stepped) quiet

instance Cpu.decidablePossible (c : Cpu) (op : CpuOp) : Decidable (c.Possible op) := by
  cases op <;> dsimp only [Cpu.Possible] <;> infer_instance

instance Cpu.decidableTickToTick (c : Cpu) (op : CpuOp) : Decidable (c.TickToTick op) := by
  cases op <;> dsimp only [Cpu.TickToTick] <;> infer_instance

/-- A process runs that has made its first child ready. -/
def firstCpu : Cpu := ⟨firstChild, fun _ => .never, false⟩

/-- The two processes yield before their time slices are over. -/
def politeOps : List CpuOp := [.timer, .call .yield, .timer, .call .yield, .timer]

theorem timer_acknowledged_sample : (execute Cpu.step firstCpu politeOps).2.inService = false := by
  have meets : AllAllowed Cpu.step (fun c op => c.Possible op ∧ c.TickToTick op) firstCpu politeOps := by decide +kernel
  exact timer_acknowledged rfl (Run.of_execute _ meets)

/-- The time slice of the first process is over. -/
def preempted : Cpu := (execute Cpu.step firstCpu [.timer, .timer]).2

/-- The child starts inside the handler, and IRQ 0 stays in service. -/
theorem timer_not_acknowledged : ∃ trace, Run Cpu.step Cpu.Possible firstCpu trace preempted ∧
    preempted.sched.current = some (.slot ⟨1, by decide⟩) ∧ preempted.inService = true := by
  have possible : AllAllowed Cpu.step Cpu.Possible firstCpu [.timer, .timer] := by decide +kernel
  exact ⟨_, Run.of_execute _ possible, by decide +kernel, by decide +kernel⟩

end GinnOS.Scheduler
