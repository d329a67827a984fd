import GinnOS.Kernel.PipeCalls

/-! # Reference counts of pipes

`Counted t s` says that the counts of every buffer are the tallies of a descriptor table
`t`; between the two halves of a close or a copy, `t` is not yet (or no longer) the
table of `s`.  `Orderly s` says what the wait queues and the process table keep.
Both are kept by every function of the machine, whatever the schedule
(`Sound.step`), so they hold in every reachable state.
-/

namespace GinnOS.Kernel

open Lib List
open Function (update update_of_ne)

variable {entry : FdEntry} {proc : Process} {b : PipeId} {f : Process → Process} {call : Call} {s s' : System}
  {p : Slot} {op : Op} {ans : Answer}

/-! ## Small steps of the state -/

namespace System

variable {s : System} {p q : Slot} {b c : PipeId} {d e : PipeDir} {fd : Fd}

@[simp] theorem modifyProc_pool (f : Process → Process) : (s.modifyProc p f).pool = s.pool := rfl

@[simp] theorem modifyProc_procs_self (f : Process → Process) :
    (s.modifyProc p f).procs p = f (s.procs p) := by simp [modifyProc]

theorem modifyProc_procs_of_ne (f : Process → Process) (different : q ≠ p) :
    (s.modifyProc p f).procs q = s.procs q := by simp [modifyProc, different]

/-- What a change keeps of the process it is made to is kept of every process. -/
theorem modifyProc_keeps {α : Type*} (g : Process → α) {f : Process → Process}
    (same : g (f (s.procs p)) = g (s.procs p)) : g ((s.modifyProc p f).procs q) = g (s.procs q) := by
  by_cases here : q = p
  · subst here
    rw [modifyProc_procs_self, same]
  · rw [modifyProc_procs_of_ne f here]

@[simp] theorem leave_call (code : Int) : ((s.leave p code).procs q).call = (s.procs q).call :=
  modifyProc_keeps Process.call rfl

@[simp] theorem setFd_call (entry : FdEntry) : ((s.setFd p fd entry).procs q).call = (s.procs q).call :=
  modifyProc_keeps Process.call rfl

@[simp] theorem modifyPipe_procs (f : PipeBuf → PipeBuf) : (s.modifyPipe b f).procs = s.procs := rfl

@[simp] theorem modifyPipe_pool_self (f : PipeBuf → PipeBuf) :
    (s.modifyPipe b f).pool b = f (s.pool b) := by simp [modifyPipe]

theorem modifyPipe_pool_of_ne (f : PipeBuf → PipeBuf) (different : c ≠ b) :
    (s.modifyPipe b f).pool c = s.pool c := by simp [modifyPipe, different]

theorem modifyPipe_keeps {α : Type*} (g : PipeBuf → α) {f : PipeBuf → PipeBuf}
    (same : g (f (s.pool b)) = g (s.pool b)) : g ((s.modifyPipe b f).pool c) = g (s.pool c) := by
  by_cases here : c = b
  · subst here
    rw [modifyPipe_pool_self, same]
  · rw [modifyPipe_pool_of_ne f here]

theorem wake_procs (n : Nat) : (s.wake b d n).procs q =
    if q ∈ ((s.pool b).waiting d).take n then { s.procs q with state := .ready } else s.procs q := rfl

@[simp] theorem wake_fds (n : Nat) : ((s.wake b d n).procs q).fds = (s.procs q).fds := by
  rw [wake_procs]
  split <;> rfl

@[simp] theorem wake_call (n : Nat) : ((s.wake b d n).procs q).call = (s.procs q).call := by
  rw [wake_procs]
  split <;> rfl

theorem wake_ready (n : Nat) (ready : (s.procs q).state = .ready) :
    ((s.wake b d n).procs q).state = .ready := by
  rw [wake_procs]
  split
  · rfl
  · exact ready

theorem wake_zombie (n : Nat) (zombie : ((s.wake b d n).procs q).state = .zombie) :
    (s.procs q).state = .zombie := by
  rw [wake_procs] at zombie
  split at zombie
  · cases zombie
  · exact zombie

theorem wake_pool (n : Nat) : (s.wake b d n).pool = (s.modifyPipe b fun pb =>
    { pb with waiting := update pb.waiting d ((pb.waiting d).drop n) }).pool := rfl

@[simp] theorem wake_refs (n : Nat) : ((s.wake b d n).pool c).refs = (s.pool c).refs := by
  rw [wake_pool, modifyPipe_keeps PipeBuf.refs rfl]

@[simp] theorem wake_refCount (n : Nat) : ((s.wake b d n).pool c).refCount = (s.pool c).refCount := by
  rw [wake_pool, modifyPipe_keeps PipeBuf.refCount rfl]

theorem wake_waiting (n : Nat) : ((s.wake b d n).pool c).waiting e =
    if c = b ∧ e = d then ((s.pool b).waiting d).drop n else (s.pool c).waiting e := by
  by_cases same : c = b
  · subst same
    by_cases sameEnd : e = d
    · subst sameEnd
      simp [wake]
    · simp [wake, sameEnd]
  · simp [wake, same]

@[simp] theorem waitQueueBlock_call :
    ((s.waitQueueBlock b d p).procs q).call = (s.procs q).call := by
  rw [waitQueueBlock, modifyPipe_procs, modifyProc_keeps Process.call rfl]

@[simp] theorem waitQueueBlock_refCount :
    ((s.waitQueueBlock b d p).pool c).refCount = (s.pool c).refCount :=
  modifyPipe_keeps PipeBuf.refCount rfl

@[simp] theorem waitQueueBlock_refs : ((s.waitQueueBlock b d p).pool c).refs = (s.pool c).refs :=
  modifyPipe_keeps PipeBuf.refs rfl

theorem waitQueueBlock_waiting : ((s.waitQueueBlock b d p).pool c).waiting e =
    (s.pool c).waiting e ++ (if c = b ∧ e = d then [p] else []) := by
  by_cases same : c = b
  · subst same
    by_cases sameEnd : e = d
    · subst sameEnd
      simp [waitQueueBlock]
    · simp [waitQueueBlock, sameEnd]
  · simp [waitQueueBlock, modifyPipe_pool_of_ne _ same, same]

theorem table_modifyProc (f : Process → Process) (same : (f (s.procs p)).fds = (s.procs p).fds) :
    (s.modifyProc p f).table = s.table := by
  funext x
  exact congrFun (modifyProc_keeps Process.fds same) x.2

theorem table_setFd (entry : FdEntry) :
    (s.setFd p fd entry).table = update s.table (p, fd) entry := by
  funext ⟨q, other⟩
  by_cases here : q = p
  · subst here
    by_cases sameFd : other = fd
    · subst sameFd
      simp [table, setFd]
    · simp [table, setFd, sameFd]
  · simp [table, setFd, modifyProc_procs_of_ne _ here, here]

end System

/-! ## Counts -/

/-- The counts of every buffer are the tallies of `t`. -/
structure Counted (t : Slot × Fd → FdEntry) (s : System) : Prop where
  refs (b : PipeId) (d : PipeDir) : (s.pool b).refs d = tally t (.pipe b d)
  sum (b : PipeId) : (s.pool b).refCount = (s.pool b).refs .read + (s.pool b).refs .write

namespace Counted

variable {t : Slot × Fd → FdEntry} {s s' : System} {b : PipeId} {d : PipeDir} {x : Slot × Fd}

section

variable (counted : Counted t s)

include counted

theorem congr (refs : ∀ c, (s'.pool c).refs = (s.pool c).refs)
    (sums : ∀ c, (s'.pool c).refCount = (s.pool c).refCount) : Counted t s' where
  refs c e := by rw [refs, counted.refs]
  sum c := by rw [sums, refs, counted.sum]

theorem table_congr {u : Slot × Fd → FdEntry}
    (same : ∀ x b d, t x = .pipe b d ↔ u x = .pipe b d) : Counted u s where
  refs c e := by rw [counted.refs, tally_congr fun x => same x c e]
  sum := counted.sum

theorem refs_nonneg : 0 ≤ (s.pool b).refs d := by
  rw [counted.refs]
  omega

theorem refs_eq_zero (gone : (s.pool b).refCount ≤ 0) :
    (s.pool b).refs d = 0 := by
  have sum := counted.sum b
  have reads : 0 ≤ (s.pool b).refs .read := counted.refs_nonneg
  have writes : 0 ≤ (s.pool b).refs .write := counted.refs_nonneg
  cases d <;> omega

theorem unnamed (gone : (s.pool b).refCount ≤ 0) : t x ≠ .pipe b d := by
  intro named
  have zero := counted.refs_eq_zero gone (d := d)
  have positive := tally_pos x named
  rw [counted.refs] at zero
  omega

theorem update
    (refs : ∀ c e, (s'.pool c).refs e + (if t x = .pipe c e then 1 else 0) =
      (s.pool c).refs e + (if entry = .pipe c e then 1 else 0))
    (sums : ∀ c, (s'.pool c).refCount = (s'.pool c).refs .read + (s'.pool c).refs .write) :
    Counted (update t x entry) s' where
  refs c e := by
    have before := counted.refs c e
    have change := refs c e
    have tallied := tally_update t x entry (.pipe c e)
    by_cases was : t x = .pipe c e <;> by_cases is : entry = .pipe c e
    · rw [if_pos was, if_pos is] at change tallied
      omega
    · rw [if_pos was, if_neg is] at change tallied
      omega
    · rw [if_neg was, if_pos is] at change tallied
      omega
    · rw [if_neg was, if_neg is] at change tallied
      omega
  sum := sums

theorem dropRef (named : t x = .pipe b d) :
    Counted (Function.update t x .none) (s.dropRef b d) := by
  have counts : ∀ c, ((s.dropRef b d).pool c).refs =
        (if c = b then Function.update (s.pool b).refs d ((s.pool b).refs d - 1) else (s.pool c).refs) ∧
      ((s.dropRef b d).pool c).refCount = (s.pool c).refCount - (if c = b then 1 else 0) := by
    intro c
    by_cases same : c = b
    · subst same
      simp only [System.dropRef, System.modifyPipe_pool_self]
      split <;> simp [System.waitQueueWakeAll]
    · simp only [System.dropRef, System.modifyPipe_pool_of_ne _ same, same]
      split <;> simp [System.waitQueueWakeAll, System.modifyPipe_pool_of_ne _ same]
  refine counted.update (fun c e => ?_) fun c => ?_
  · rw [(counts c).1, named]
    by_cases same : c = b
    · rcases eq_or_ne e d with rfl | other
      · simp [same]
      · simp [same, other, other.symm]
    · simp [same, Ne.symm same]
  · rw [(counts c).1, (counts c).2, counted.sum]
    by_cases same : c = b
    · subst same
      cases d
      all_goals
        simp
        omega
    · simp [same]

theorem pipeRelease (gone : (s.pool b).refCount ≤ 0) :
    Counted t (s.pipeRelease b) := by
  have zero (d : PipeDir) : (s.pool b).refs d = 0 := counted.refs_eq_zero gone
  have sum := counted.sum b
  refine counted.congr (fun c => ?_) fun c => ?_
  · exact System.modifyPipe_keeps PipeBuf.refs (funext fun d => (zero d).symm)
  · rw [zero, zero] at sum
    exact System.modifyPipe_keeps PipeBuf.refCount sum.symm

theorem closePipeEnd (named : t x = .pipe b d) :
    Counted (Function.update t x .none) (s.closePipeEnd b d) := by
  simp only [System.closePipeEnd]
  split
  · next gone => exact (counted.dropRef named).pipeRelease gone
  · exact counted.dropRef named

theorem addRef (unnamed : ∀ c e, t x ≠ .pipe c e) :
    Counted (Function.update t x (.pipe b d)) (s.addRef b d) := by
  refine counted.update (fun c e => ?_) fun c => ?_
  · rw [if_neg (unnamed c e)]
    by_cases same : c = b
    · subst same
      rcases eq_or_ne e d with rfl | other
      · simp [System.addRef]
      · simp [System.addRef, other, other.symm]
    · simp [System.addRef, System.modifyPipe_pool_of_ne _ same, Ne.symm same]
  · have sum := counted.sum c
    by_cases same : c = b
    · subst same
      cases d <;> simp [System.addRef] <;> omega
    · simp [System.addRef, System.modifyPipe_pool_of_ne _ same, sum]

end

end Counted

/-! ## Wait queues and the process table -/

/-- What holds of every slot. -/
structure ProcOk (proc : Process) : Prop where
  unused : proc.state = .unused → ∀ fd b d, proc.fds fd ≠ .pipe b d
  /-- a process in a pipe call keeps the descriptor it called with -/
  holds : ∀ {b d}, proc.call.onEnd = some (b, d) → ∃ fd, proc.fds fd = .pipe b d
  active : ∀ {b d}, proc.call.onEnd = some (b, d) → proc.state = .ready ∨ proc.state = .blocked
  pid : proc.state ≠ .unused → 0 < proc.pid
  /-- `wait_for_pid` is set only while the process sleeps in `sys_waitpid` -/
  waitFor : proc.waitForPid ≠ pidNone →
    (proc.state = .blocked ∨ proc.state = .unused) ∧ proc.call.onEnd = none
  asleep : proc.state = .blocked → proc.call.midway = false

theorem ProcOk.not_waiting (ok : ProcOk proc) (ready : proc.state = .ready) :
    proc.waitForPid = pidNone := by
  by_contra waits
  have states := (ok.waitFor waits).1
  simp [ready] at states

theorem ProcOk.not_waiting_of_onEnd (ok : ProcOk proc) {d : PipeDir}
    (here : proc.call.onEnd = some (b, d)) : proc.waitForPid = pidNone := by
  by_contra waits
  rw [(ok.waitFor waits).2] at here
  cases here

/-- A process outside pipe calls may hold any descriptors while it is in use. -/
theorem ProcOk.setFds (ok : ProcOk proc) (idle : proc.call.onEnd = none)
    {fds : Fd → FdEntry} (used : proc.state = .unused → ∀ fd b d, fds fd ≠ .pipe b d) :
    ProcOk { proc with fds := fds } where
  unused := used
  holds here := by rw [idle] at here; cases here
  active := ok.active
  pid := ok.pid
  waitFor := ok.waitFor
  asleep := ok.asleep

/-- What the queues and the process table keep. -/
structure Orderly (s : System) : Prop where
  procs (p : Slot) : ProcOk (s.procs p)
  queued {b : PipeId} {d : PipeDir} {p : Slot} : p ∈ (s.pool b).waiting d →
    (s.procs p).state = .blocked ∧ (s.procs p).call.onEnd = some (b, d)
  once (b : PipeId) (d : PipeDir) : ((s.pool b).waiting d).Nodup
  nextPid : 0 < s.nextPid
  released : ∀ pb ∈ s.releases, ∀ d, pb.waiting d = []

namespace Orderly

variable {s : System} {p : Slot} {b : PipeId} {d : PipeDir}

section

variable (orderly : Orderly s)

include orderly

theorem not_queued (idle : (s.procs p).call.onEnd = none) :
    p ∉ (s.pool b).waiting d := by
  intro member
  rw [(orderly.queued member).2] at idle
  cases idle

theorem not_queued_of_state (awake : (s.procs p).state ≠ .blocked) :
    p ∉ (s.pool b).waiting d :=
  fun member => awake (orderly.queued member).1

theorem modifyProc
    (free : ∀ b d, p ∉ (s.pool b).waiting d) (ok : ProcOk (f (s.procs p))) :
    Orderly (s.modifyProc p f) where
  procs q := by
    by_cases same : q = p
    · subst same
      rw [System.modifyProc_procs_self]
      exact ok
    · rw [System.modifyProc_procs_of_ne f same]
      exact orderly.procs q
  queued {b d q} member := by
    have other : q ≠ p := fun same => free b d (same ▸ member)
    rw [System.modifyProc_procs_of_ne f other]
    exact orderly.queued member
  once := orderly.once
  nextPid := orderly.nextPid
  released := orderly.released

theorem setFd {fd : Fd} (idle : (s.procs p).call.onEnd = none)
    (used : (s.procs p).state = .unused → ∀ b d, entry ≠ .pipe b d) : Orderly (s.setFd p fd entry) := by
  have ok := orderly.procs p
  refine orderly.modifyProc (fun _ _ => orderly.not_queued idle)
    (ok.setFds idle fun unused other b d => ?_)
  by_cases here : other = fd
  · simpa [here] using used unused b d
  · rw [update_of_ne here]
    exact ok.unused unused other b d

theorem modifyPipe {f : PipeBuf → PipeBuf}
    (shrunk : ∀ d, ((f (s.pool b)).waiting d).Sublist ((s.pool b).waiting d)) :
    Orderly (s.modifyPipe b f) := by
  have waiting (c : PipeId) (e : PipeDir) :
      (((s.modifyPipe b f).pool c).waiting e).Sublist ((s.pool c).waiting e) := by
    by_cases here : c = b
    · subst here
      rw [System.modifyPipe_pool_self]
      exact shrunk e
    · rw [System.modifyPipe_pool_of_ne f here]
  exact
    { procs := orderly.procs
      queued := fun {c e _} member => orderly.queued ((waiting c e).subset member)
      once := fun c e => (orderly.once c e).sublist (waiting c e)
      nextPid := orderly.nextPid
      released := orderly.released }

theorem wake (n : Nat) : Orderly (s.wake b d n) where
  procs q := by
    have ok := orderly.procs q
    rw [System.wake_procs]
    split
    · next member =>
      obtain ⟨wasBlocked, calling⟩ := orderly.queued (mem_of_mem_take member)
      exact ⟨nofun, ok.holds, fun _ => .inl rfl, fun _ => ok.pid (by simp [wasBlocked]),
        fun waits => absurd (ok.not_waiting_of_onEnd calling) waits, nofun⟩
    · exact ok
  queued {c e q} member := by
    rw [System.wake_waiting] at member
    have waiting : q ∈ (s.pool c).waiting e ∧ q ∉ ((s.pool b).waiting d).take n := by
      split at member
      · next here =>
        obtain ⟨rfl, rfl⟩ := here
        refine ⟨mem_of_mem_drop member, fun taken => ?_⟩
        exact disjoint_take_drop (orderly.once c e) (Nat.le_refl n) taken member
      · next elsewhere =>
        refine ⟨member, fun taken => elsewhere ?_⟩
        have first := (orderly.queued member).2
        rw [(orderly.queued (mem_of_mem_take taken)).2] at first
        simpa [eq_comm] using first
    rw [System.wake_procs, if_neg waiting.2]
    exact orderly.queued waiting.1
  once c e := by
    rw [System.wake_waiting]
    split
    · exact (orderly.once b d).sublist (drop_sublist n _)
    · exact orderly.once c e
  nextPid := orderly.nextPid
  released := orderly.released

/-- `wait_queue_block` of a process that is in a call on this end. -/
theorem waitQueueBlock (ready : (s.procs p).state = .ready)
    (here : (s.procs p).call.onEnd = some (b, d)) (asleep : (s.procs p).call.midway = false) :
    Orderly (s.waitQueueBlock b d p) := by
  have ok := orderly.procs p
  have free (b : PipeId) (d : PipeDir) : p ∉ (s.pool b).waiting d :=
    orderly.not_queued_of_state (by simp [ready])
  have blocked : Orderly (s.modifyProc p fun proc => { proc with state := .blocked }) :=
    orderly.modifyProc free
      ⟨nofun, ok.holds, fun _ => .inr rfl, fun _ => ok.pid (by simp [ready]),
        fun waits => absurd (ok.not_waiting ready) waits, fun _ => asleep⟩
  exact
    { procs := blocked.procs
      queued := fun {c e q} member => by
        rw [System.waitQueueBlock_waiting] at member
        rcases mem_append.mp member with old | new
        · exact blocked.queued old
        · split at new
          · next target =>
            obtain ⟨rfl, rfl⟩ := target
            obtain rfl := mem_singleton.mp new
            simp [System.waitQueueBlock, here]
          · simp at new
      once := fun c e => by
        rw [System.waitQueueBlock_waiting]
        split
        · exact nodup_append'.mpr ⟨orderly.once c e, nodup_singleton p, by simp [free]⟩
        · simpa using orderly.once c e
      nextPid := orderly.nextPid
      released := orderly.released }

theorem dropRef : Orderly (s.dropRef b d) := by
  have lowered : Orderly (s.modifyPipe b fun pb =>
      { pb with refs := update pb.refs d (pb.refs d - 1) }) :=
    orderly.modifyPipe fun _ => .refl _
  simp only [System.dropRef]
  split
  · exact (lowered.wake _).modifyPipe fun _ => .refl _
  · exact lowered.modifyPipe fun _ => .refl _

/-- `pipe_release` of a buffer on which nobody waits. -/
theorem pipeRelease (empty : ∀ d, (s.pool b).waiting d = []) :
    Orderly (s.pipeRelease b) := by
  have logged : Orderly { s with releases := s.pool b :: s.releases } :=
    { orderly with
      released := fun pb member => by
        rcases mem_cons.mp member with rfl | old
        · exact empty
        · exact orderly.released pb old }
  exact logged.modifyPipe fun _ => .refl _

end

end Orderly

namespace System

variable {s : System} {b : PipeId} {d : PipeDir} {q : Slot}

@[simp] theorem dropRef_fds : ((s.dropRef b d).procs q).fds = (s.procs q).fds := by
  simp only [dropRef, modifyPipe_procs]
  split <;> simp [waitQueueWakeAll]

@[simp] theorem dropRef_call : ((s.dropRef b d).procs q).call = (s.procs q).call := by
  simp only [dropRef, modifyPipe_procs]
  split <;> simp [waitQueueWakeAll]

theorem pipeInit_pipeRelease_pool : ((s.pipeInit b).pipeRelease b).pool =
    (s.modifyPipe b fun pb => { data := pb.data }).pool := by
  simp [pipeRelease, pipeInit, modifyPipe]

@[simp] theorem pipeRelease_procs : (s.pipeRelease b).procs = s.procs := rfl

@[simp] theorem closePipeEnd_fds : ((s.closePipeEnd b d).procs q).fds = (s.procs q).fds := by
  simp only [closePipeEnd]
  split <;> simp

@[simp] theorem closePipeEnd_call : ((s.closePipeEnd b d).procs q).call = (s.procs q).call := by
  simp only [closePipeEnd]
  split <;> simp

theorem table_closePipeEnd : (s.closePipeEnd b d).table = s.table := by
  funext x
  simp [table]

end System

/-! ## The two together -/

/-- The counts are right and the queues are in order. -/
structure Sound (s : System) : Prop where
  counted : Counted s.table s
  orderly : Orderly s

namespace Sound

variable {s : System} {p : Slot} {fd : Fd} {b : PipeId} {d : PipeDir}

theorem modifyProc (sound : Sound s)
    (free : ∀ b d, p ∉ (s.pool b).waiting d)
    (same : ∀ fd b d, (s.procs p).fds fd = .pipe b d ↔ (f (s.procs p)).fds fd = .pipe b d)
    (ok : ProcOk (f (s.procs p))) : Sound (s.modifyProc p f) where
  counted := by
    have counted : Counted s.table (s.modifyProc p f) :=
      sound.counted.congr (fun _ => rfl) fun _ => rfl
    refine counted.table_congr fun x b d => ?_
    have kept := System.modifyProc_keeps (q := x.1) (fun proc => proc.fds x.2 = .pipe b d)
      (propext (same x.2 b d).symm)
    exact kept.symm.to_iff
  orderly := sound.orderly.modifyProc free ok

section

variable (sound : Sound s) (idle : (s.procs p).call.onEnd = none)

include sound idle

/-- A pipe end is closed.  Whoever waits on the buffer holds an end of it, and that is not the
one the closing process gives up, so a release finds both queues empty. -/
theorem closePipeEnd (named : (s.procs p).fds fd = .pipe b d) :
    Orderly (s.closePipeEnd b d) ∧
      Counted (update s.table (p, fd) .none) (s.closePipeEnd b d) := by
  have named : s.table (p, fd) = .pipe b d := named
  refine ⟨?_, sound.counted.closePipeEnd named⟩
  have dropped := sound.counted.dropRef named
  have orderly : Orderly (s.dropRef b d) := sound.orderly.dropRef
  simp only [System.closePipeEnd]
  split
  · next gone =>
    refine orderly.pipeRelease fun e => eq_nil_iff_forall_not_mem.mpr fun q member => ?_
    have calling := (orderly.queued member).2
    obtain ⟨other, held⟩ := (orderly.procs q).holds calling
    have different : (q, other) ≠ (p, fd) := by
      intro same
      obtain ⟨rfl, rfl⟩ := Prod.mk.inj same
      rw [System.dropRef_call, idle] at calling
      cases calling
    refine dropped.unnamed gone (x := (q, other)) (d := e) ?_
    rw [update_of_ne different]
    rw [System.dropRef_fds] at held
    exact held
  · exact orderly

theorem close (named : (s.procs p).fds fd = .pipe b d) : Sound ((s.closePipeEnd b d).setFd p fd .none) := by
  obtain ⟨orderly, counted⟩ := sound.closePipeEnd idle named
  refine ⟨?_, orderly.setFd (by simpa using idle) fun _ => by simp⟩
  rw [System.table_setFd, System.table_closePipeEnd]
  exact counted.congr (fun _ => rfl) fun _ => rfl

theorem copy (used : (s.procs p).state ≠ .unused) (before : ∀ b d, (s.procs p).fds fd ≠ .pipe b d) :
    Sound ((s.setFd p fd (.pipe b d)).addRef b d) := by
  have orderly : Orderly (s.setFd p fd (.pipe b d)) := sound.orderly.setFd idle (absurd · used)
  refine ⟨?_, orderly.modifyPipe fun _ => .refl _⟩
  have table : ((s.setFd p fd (.pipe b d)).addRef b d).table =
      update s.table (p, fd) (.pipe b d) := System.table_setFd _
  rw [table]
  have counted : Counted s.table (s.setFd p fd (.pipe b d)) :=
    sound.counted.congr (fun _ => rfl) fun _ => rfl
  exact counted.addRef before

theorem pipeInit (used : (s.procs p).state ≠ .unused) (unnamed : (s.pool b).refCount = 0) {readFd writeFd : Fd}
    (readFree : (s.procs p).fds readFd = .none) (writeFree : (s.procs p).fds writeFd = .none)
    (different : readFd ≠ writeFd) :
    Sound (((s.pipeInit b).setFd p readFd (.pipe b .read)).setFd p writeFd (.pipe b .write)) := by
  have fresh : Orderly (s.pipeInit b) := sound.orderly.modifyPipe fun _ => nil_sublist _
  refine ⟨⟨fun c e => ?_, fun c => ?_⟩, (fresh.setFd idle (absurd · used)).setFd ?_ (absurd · ?_)⟩
  · have table : (s.pipeInit b).table = s.table := rfl
    have pool : ((((s.pipeInit b).setFd p readFd (.pipe b .read)).setFd p writeFd
        (.pipe b .write)).pool c).refs e = if c = b then 1 else (s.pool c).refs e := by
      by_cases same : c = b
      · simp [System.setFd, System.pipeInit, same]
      · simp [System.setFd, System.pipeInit, System.modifyPipe_pool_of_ne _ same, same]
    rw [System.table_setFd, System.table_setFd, table, pool]
    have first := tally_update s.table (p, readFd) (.pipe b .read) (.pipe c e)
    have second := tally_update (update s.table (p, readFd) (.pipe b .read)) (p, writeFd)
      (.pipe b .write) (.pipe c e)
    have readEntry : s.table (p, readFd) = .none := readFree
    have writeEntry : s.table (p, writeFd) = .none := writeFree
    have apart : (p, writeFd) ≠ (p, readFd) := fun same => different (Prod.mk.inj same).2.symm
    rw [update_of_ne apart, writeEntry, if_neg (by simp)] at second
    rw [readEntry, if_neg (by simp)] at first
    have refs := sound.counted.refs c e
    by_cases same : c = b
    · subst same
      have zero : (s.pool c).refs e = 0 := sound.counted.refs_eq_zero unnamed.le
      cases e <;> simp only [FdEntry.pipe.injEq, true_and, reduceCtorEq, if_true, if_false] at first second ⊢
      all_goals omega
    · simp only [FdEntry.pipe.injEq, Ne.symm same, false_and, if_false] at first second
      rw [if_neg same]
      omega
  · by_cases same : c = b
    · subst same
      simp [System.pipeInit, System.setFd]
    · simpa [System.pipeInit, System.setFd, System.modifyPipe_pool_of_ne _ same] using
        sound.counted.sum c
  · simpa [System.setFd, System.pipeInit] using idle
  · simpa [System.setFd, System.pipeInit] using used

end

theorem leave (sound : Sound s) (ready : (s.procs p).state = .ready) (user : (s.procs p).call = .user)
    (code : Int) : Sound (s.leave p code) := by
  have ok := sound.orderly.procs p
  refine sound.modifyProc (fun _ _ => sound.orderly.not_queued (by rw [user]; rfl))
    (fun _ _ _ => Iff.rfl) ⟨nofun, ok.holds, fun here => ?_, fun _ => ok.pid (by simp [ready]),
      fun waits => absurd (ok.not_waiting ready) waits, nofun⟩
  rw [user] at here
  cases here

/-- A step in a pipe call: the process stays on its end of the pipe or leaves the call. -/
theorem setCall (sound : Sound s) (ready : (s.procs p).state = .ready)
    (stays : call.onEnd = none ∨ ∃ fd b d, call.onEnd = some (b, d) ∧ (s.procs p).fds fd = .pipe b d) :
    Sound (s.setCall p call) := by
  have ok := sound.orderly.procs p
  refine sound.modifyProc (fun _ _ => sound.orderly.not_queued_of_state (by simp [ready]))
    (fun _ _ _ => Iff.rfl) ⟨ok.unused, fun here => ?_, fun _ => .inl ready, ok.pid,
      fun waits => absurd (ok.not_waiting ready) waits, fun blocked => ?_⟩
  · rcases stays with none | ⟨fd, b, d, place, held⟩
    · rw [none] at here
      cases here
    · rw [place] at here
      cases here
      exact ⟨fd, held⟩
  · have blocked : (s.procs p).state = .blocked := blocked
    rw [ready] at blocked
    cases blocked

/-- `pipe_alloc` is undone at once. -/
theorem pipeInit_pipeRelease (sound : Sound s) (unnamed : (s.pool b).refCount = 0) :
    Sound ((s.pipeInit b).pipeRelease b) where
  counted := by
    have zero (d : PipeDir) : (s.pool b).refs d = 0 := sound.counted.refs_eq_zero unnamed.le
    refine sound.counted.congr (fun c => ?_) fun c => ?_
    · rw [System.pipeInit_pipeRelease_pool,
        System.modifyPipe_keeps PipeBuf.refs (funext fun d => (zero d).symm)]
    · rw [System.pipeInit_pipeRelease_pool, System.modifyPipe_keeps PipeBuf.refCount unnamed.symm]
  orderly := by
    have fresh : Orderly (s.pipeInit b) := sound.orderly.modifyPipe fun _ => nil_sublist _
    exact fresh.pipeRelease fun d => by simp [System.pipeInit]

theorem processInit (sound : Sound s) (unused : (s.procs p).state = .unused) :
    Sound (s.processInit p) := by
  have counter : Sound { s with nextPid := s.nextPid + 1 } :=
    ⟨sound.counted.congr (fun _ => rfl) fun _ => rfl,
      { sound.orderly with nextPid := Nat.succ_pos _ }⟩
  refine counter.modifyProc (fun _ _ => counter.orderly.not_queued_of_state ?_) (fun fd b d => ?_) ?_
  · simp [unused]
  · simpa using (sound.orderly.procs p).unused unused fd b d
  · exact ⟨nofun, nofun, nofun, fun _ => sound.orderly.nextPid, nofun, nofun⟩

end Sound

/-! ## What a step can do

Outside the loops of a pipe call, a step is a chain of a few kinds of changes, each made
by a process that is in no pipe call. -/

inductive Tidy : System → System → Prop where
  | close {s : System} {p : Slot} {fd : Fd} {b : PipeId} {d : PipeDir}
      (idle : (s.procs p).call.onEnd = none) (named : (s.procs p).fds fd = .pipe b d) :
      Tidy s ((s.closePipeEnd b d).setFd p fd .none)
  | copy {s : System} {p : Slot} {fd : Fd} {b : PipeId} {d : PipeDir}
      (idle : (s.procs p).call.onEnd = none) (ready : (s.procs p).state = .ready)
      (before : ∀ c e, (s.procs p).fds fd ≠ .pipe c e) (source : ∃ x, s.table x = .pipe b d) :
      Tidy s ((s.setFd p fd (.pipe b d)).addRef b d)
  | make {s : System} {p : Slot} {b : PipeId} {readFd writeFd : Fd}
      (idle : (s.procs p).call.onEnd = none) (ready : (s.procs p).state = .ready)
      (unnamed : (s.pool b).refCount = 0) (readFree : (s.procs p).fds readFd = .none)
      (writeFree : (s.procs p).fds writeFd = .none) (different : readFd ≠ writeFd) :
      Tidy s (((s.pipeInit b).setFd p readFd (.pipe b .read)).setFd p writeFd (.pipe b .write))
  | undo {s : System} {b : PipeId} (unnamed : (s.pool b).refCount = 0) :
      Tidy s ((s.pipeInit b).pipeRelease b)
  | create {s : System} {p : Slot} (unused : (s.procs p).state = .unused) : Tidy s (s.processInit p)
  /-- a process changes in something else than its pipe ends -/
  | proc {s : System} {p : Slot} {f : Process → Process}
      (idle : (s.procs p).call.onEnd = none) (idleAfter : (f (s.procs p)).call.onEnd = none)
      (same : ∀ fd b d, (s.procs p).fds fd = .pipe b d ↔ (f (s.procs p)).fds fd = .pipe b d)
      (zombie : (f (s.procs p)).state = .zombie → (s.procs p).state = .zombie)
      (ok : ProcOk (s.procs p) → ProcOk (f (s.procs p))) :
      Tidy s (s.modifyProc p f)

abbrev Tidies : System → System → Prop := Relation.ReflTransGen Tidy

theorem Tidy.sound (tidy : Tidy s s') (sound : Sound s) : Sound s' := by
  have awake {p : Slot} (ready : (s.procs p).state = .ready) : (s.procs p).state ≠ .unused := by
    simp [ready]
  cases tidy with
  | close idle named => exact sound.close idle named
  | copy idle ready before _ => exact sound.copy idle (awake ready) before
  | make idle ready unnamed readFree writeFree different =>
    exact sound.pipeInit idle (awake ready) unnamed readFree writeFree different
  | undo unnamed => exact sound.pipeInit_pipeRelease unnamed
  | create unused => exact sound.processInit unused
  | proc idle _ same _ ok =>
    exact sound.modifyProc (fun _ _ => sound.orderly.not_queued idle) same (ok (sound.orderly.procs _))

theorem Tidies.sound (chain : Tidies s s') (sound : Sound s) : Sound s' := by
  induction chain with
  | refl => exact sound
  | tail _ tidy ih => exact tidy.sound ih

namespace System

variable {s : System} {p : Slot} {fd : Fd}

theorem closeEntry_call (q : Slot) : ((s.closeEntry p fd).procs q).call = (s.procs q).call := by
  unfold closeEntry
  split <;> simp

theorem closeEntry_fds : ((s.closeEntry p fd).procs p).fds = update (s.procs p).fds fd .none := by
  unfold closeEntry
  split <;> simp [setFd]

theorem closeEntry_ready (ready : (s.procs p).state = .ready) :
    ((s.closeEntry p fd).procs p).state = .ready := by
  have dropped (b : PipeId) (d : PipeDir) : ((s.dropRef b d).procs p).state = .ready := by
    simp only [dropRef, modifyPipe_procs]
    split
    · exact wake_ready _ ready
    · exact ready
  unfold closeEntry
  split
  · next b d _ =>
    simp only [setFd, modifyProc_procs_self, closePipeEnd]
    split
    · exact dropped b d
    · exact dropped b d
  · simpa [setFd] using ready

theorem setFd_tidy (idle : (s.procs p).call.onEnd = none)
    (before : ∀ b d, (s.procs p).fds fd ≠ .pipe b d) (after : ∀ b d, entry ≠ .pipe b d) :
    Tidy s (s.setFd p fd entry) := by
  have entries (other : Fd) (b : PipeId) (d : PipeDir) : (s.procs p).fds other = .pipe b d ↔
      update (s.procs p).fds fd entry other = .pipe b d := by
    by_cases here : other = fd
    · subst here
      simp [before, after]
    · simp [here]
  refine .proc idle idle entries (fun zombie => zombie) fun ok => ?_
  refine ok.setFds idle fun unused other b d named => ?_
  exact ok.unused unused other b d ((entries other b d).mpr named)

theorem closeEntry_tidy (idle : (s.procs p).call.onEnd = none) : Tidy s (s.closeEntry p fd) := by
  cases held : (s.procs p).fds fd with
  | pipe b d =>
    simp only [closeEntry, held]
    exact .close idle held
  | none | console | file =>
    simp only [closeEntry, held]
    exact setFd_tidy idle (by simp [held]) (by simp)

theorem copyEntry_tidy (idle : (s.procs p).call.onEnd = none) (ready : (s.procs p).state = .ready)
    (before : ∀ b d, (s.procs p).fds fd ≠ .pipe b d) {x : Slot × Fd}
    (source : s.table x = entry) : Tidy s (s.copyEntry p fd entry) := by
  cases entry with
  | pipe b d => exact .copy idle ready before ⟨x, source⟩
  | none | console | file => exact setFd_tidy idle before (by simp)

/-- The loop of `process_destroy` closes every pipe end it comes to. -/
theorem destroyFds_tidies (fds : List Fd) : ∀ {s : System}, (s.procs p).call.onEnd = none →
    Tidies s (fds.foldl (destroyFd p) s) ∧
      ((fds.foldl (destroyFd p) s).procs p).call.onEnd = none ∧
      ∀ fd b d, ((fds.foldl (destroyFd p) s).procs p).fds fd = .pipe b d →
        fd ∉ fds ∧ (s.procs p).fds fd = .pipe b d := by
  induction fds with
  | nil => exact fun {s} idle => ⟨.refl, idle, fun fd b d named => ⟨not_mem_nil, named⟩⟩
  | cons fd fds ih =>
    intro s idle
    have first : Tidies s (destroyFd p s fd) ∧ ((destroyFd p s fd).procs p).call.onEnd = none ∧
        ∀ other b d, ((destroyFd p s fd).procs p).fds other = .pipe b d →
          other ≠ fd ∧ (s.procs p).fds other = .pipe b d := by
      have closed : Tidies s (s.closeEntry p fd) ∧ ((s.closeEntry p fd).procs p).call.onEnd = none ∧
          ∀ other b d, ((s.closeEntry p fd).procs p).fds other = .pipe b d →
            other ≠ fd ∧ (s.procs p).fds other = .pipe b d := by
        refine ⟨.single (closeEntry_tidy idle), by rw [closeEntry_call, idle], fun other b d named => ?_⟩
        rw [closeEntry_fds] at named
        by_cases here : other = fd
        · simp [here] at named
        · rw [update_of_ne here] at named
          exact ⟨here, named⟩
      have kept (held : ∀ b d, (s.procs p).fds fd ≠ .pipe b d) : ∀ other b d,
          (s.procs p).fds other = .pipe b d → other ≠ fd ∧ (s.procs p).fds other = .pipe b d :=
        fun other b d named => ⟨fun here => held b d (here ▸ named), named⟩
      cases held : (s.procs p).fds fd with
      | pipe b d | file => simpa only [destroyFd, held] using closed
      | none | console =>
        simp only [destroyFd, held]
        exact ⟨.refl, idle, kept (by simp [held])⟩
    obtain ⟨chain, stillIdle, closed⟩ := first
    obtain ⟨rest, finallyIdle, others⟩ := ih stillIdle
    refine ⟨chain.trans rest, finallyIdle, fun other b d named => ?_⟩
    obtain ⟨outside, before⟩ := others other b d named
    obtain ⟨different, start⟩ := closed other b d before
    exact ⟨fun member => (mem_cons.mp member).elim different outside, start⟩

theorem processDestroy_tidies (idle : (s.procs p).call.onEnd = none) : Tidies s (s.processDestroy p) := by
  obtain ⟨chain, stillIdle, closed⟩ := destroyFds_tidies (finRange 16) idle
  refine chain.tail (.proc stillIdle rfl (fun _ _ _ => Iff.rfl) nofun fun ok => ?_)
  refine ⟨fun _ fd b d named => ?_, nofun, nofun, fun used => absurd rfl used, fun _ => ⟨.inr rfl, rfl⟩, nofun⟩
  exact (closed fd b d named).1 (mem_finRange fd)

theorem copyEntry_procs (entry : FdEntry) : (s.copyEntry p fd entry).procs = (s.setFd p fd entry).procs := by
  cases entry <;> rfl

theorem inheritFd_tidy (parent : Slot) (idle : (s.procs p).call.onEnd = none)
    (ready : (s.procs p).state = .ready) (before : ∀ b d, (s.procs p).fds fd ≠ .pipe b d) :
    Tidy s (inheritFd parent p s fd) ∧
      ∃ entry, (inheritFd parent p s fd).procs = (s.setFd p fd entry).procs := by
  unfold inheritFd
  split
  · exact ⟨copyEntry_tidy idle ready before (x := (parent, fd)) rfl, _, copyEntry_procs _⟩
  · cases held : (s.procs parent).fds fd with
    | pipe b d => exact ⟨setFd_tidy idle before (by simp), _, rfl⟩
    | none | console | file => exact ⟨setFd_tidy idle before (by simp), _, rfl⟩

/-- The inheritance loop of `exec_program`: the child holds no pipe end at the numbers still to come. -/
theorem inheritFds_tidies (parent : Slot) (fds : List Fd) : ∀ {s : System}, fds.Nodup →
    (s.procs p).call.onEnd = none → (s.procs p).state = .ready →
    (∀ fd ∈ fds, ∀ b d, (s.procs p).fds fd ≠ .pipe b d) →
    Tidies s (fds.foldl (inheritFd parent p) s) ∧
      ((fds.foldl (inheritFd parent p) s).procs p).call.onEnd = none := by
  induction fds with
  | nil => exact fun {s} _ idle _ _ => ⟨.refl, idle⟩
  | cons fd fds ih =>
    intro s nodup idle ready before
    obtain ⟨notLater, nodup⟩ := nodup_cons.mp nodup
    obtain ⟨tidy, entry, procs⟩ := inheritFd_tidy parent idle ready (before fd mem_cons_self)
    have child : (inheritFd parent p s fd).procs p =
        { s.procs p with fds := update (s.procs p).fds fd entry } := by
      rw [procs, setFd, modifyProc_procs_self]
    obtain ⟨rest, finallyIdle⟩ := ih nodup (by rw [child]; exact idle) (by rw [child]; exact ready)
      fun other later b d => by
        have different : other ≠ fd := fun same => notLater (same ▸ later)
        rw [child]
        simpa [different] using before other (mem_cons_of_mem fd later) b d
    exact ⟨.head tidy rest, finallyIdle⟩

theorem processCreate_cases (s : System) (memory : Bool) :
    (s.processCreate memory = (none, s)) ∨
    ∃ p, (s.procs p).state = .unused ∧
      s.processCreate memory = if memory then
          (some p, (s.processInit p).modifyProc p fun proc =>
            { proc with fds := fun fd => if fd.val < fdStdioCount then .console else .none })
        else (none, s.processInit p) := by
  cases found : (finRange 64).find? fun p => (s.procs p).state = .unused with
  | none => exact .inl (by simp only [processCreate, found])
  | some p =>
    refine .inr ⟨p, ?_, by simp only [processCreate, found]⟩
    simpa using find?_some found

theorem processCreate_tidies (memory : Bool) {child : Option Slot}
    (created : s.processCreate memory = (child, s')) :
    Tidies s s' ∧ ∀ p, child = some p → (s'.procs p).call.onEnd = none ∧
      (s'.procs p).state = .ready ∧ (∀ fd b d, (s'.procs p).fds fd ≠ .pipe b d) := by
  rcases processCreate_cases s memory with full | ⟨p, unused, result⟩
  · rw [full] at created
    cases created
    exact ⟨.refl, nofun⟩
  · rw [result] at created
    have fresh : (s.processInit p).procs p = { pid := s.nextPid, state := .ready, call := .unstarted } := by
      simp [processInit]
    have noPipe (fd : Fd) (b : PipeId) (d : PipeDir) :
        (if fd.val < fdStdioCount then FdEntry.console else .none) ≠ .pipe b d := by
      split <;> simp
    split at created
    · cases created
      refine ⟨.tail (.single (.create unused)) (.proc ?_ ?_ ?_ ?_ fun ok => ?_), ?_⟩
      · rw [fresh]; rfl
      · rw [fresh]; rfl
      · simp [fresh, noPipe]
      · simp [fresh]
      · rw [fresh] at ok ⊢
        exact ok.setFds rfl fun _ => noPipe
      · rintro _ ⟨⟩
        rw [modifyProc_procs_self, fresh]
        exact ⟨rfl, rfl, noPipe⟩
    · cases created
      exact ⟨.single (.create unused), nofun⟩

theorem setCall_tidy (idle : (s.procs p).call.onEnd = none) (after : call.onEnd = none) :
    Tidy s (s.setCall p call) := by
  have never {b : PipeId} {d : PipeDir} : call.onEnd ≠ some (b, d) := by simp [after]
  exact .proc idle after (fun _ _ _ => Iff.rfl) (fun zombie => zombie) fun ok =>
    ⟨ok.unused, fun here => absurd here never, fun here => absurd here never, ok.pid,
      fun waits => ⟨(ok.waitFor waits).1, after⟩, fun _ => Call.midway_of_onEnd after⟩

theorem execProgram_tidies (parent : Option Slot) (outcome : Loading) :
    Tidies s (s.execProgram parent outcome).2 := by
  unfold execProgram
  rcases created : s.processCreate (outcome ≠ .noMemory) with ⟨_ | child, s'⟩
  · exact (processCreate_tidies _ created).1
  · obtain ⟨chain, made⟩ := processCreate_tidies _ created
    obtain ⟨idle, ready, noPipe⟩ := made child rfl
    simp only
    split
    · exact chain.trans (processDestroy_tidies idle)
    · cases parent with
      | none => exact chain.tail (setCall_tidy idle rfl)
      | some p =>
        have named : Tidy s' (s'.modifyProc child fun proc => { proc with parentPid := (s'.procs p).pid }) :=
          .proc idle idle (fun _ _ _ => Iff.rfl) (fun zombie => zombie) fun ok =>
            ⟨ok.unused, ok.holds, ok.active, ok.pid, ok.waitFor, ok.asleep⟩
        obtain ⟨inherited, stillIdle⟩ := inheritFds_tidies p (p := child)
          (s := s'.modifyProc child fun proc => { proc with parentPid := (s'.procs p).pid })
          (finRange 16) (nodup_finRange 16) (by simpa using idle) (by simpa using ready)
          (by simpa using noPipe)
        exact ((chain.tail named).trans inherited).tail (setCall_tidy stillIdle rfl)

section

variable (idle : (s.procs p).call.onEnd = none)

include idle

theorem sysPipe_tidies (ready : (s.procs p).state = .ready) :
    Tidies s (s.sysPipe p).2 := by
  unfold sysPipe pipeAlloc
  cases found : (finRange 16).find? fun b => (s.pool b).refCount = 0 with
  | none => exact .refl
  | some b =>
    have unnamed : (s.pool b).refCount = 0 := by simpa using find?_some found
    simp only
    split
    · next readFd writeFd others free =>
      have nodup : ((s.pipeInit b).freeFds p).Nodup := (nodup_finRange 16).filter _
      have isFree {fd : Fd} (member : fd ∈ (s.pipeInit b).freeFds p) : (s.procs p).fds fd = .none := by
        simpa [pipeInit] using (of_decide_eq_true (mem_filter.mp member).2).2
      rw [free] at nodup isFree
      refine .single (.make idle ready unnamed (isFree (by simp)) (isFree (by simp)) fun same => ?_)
      simp [same] at nodup
    · exact .single (.undo unnamed)

theorem sysDup2_tidies (ready : (s.procs p).state = .ready)
    (old new : Int) : Tidies s (s.sysDup2 p old new).2 := by
  unfold sysDup2
  split
  · next oldFd newFd _ _ =>
    split
    · exact .refl
    · split
      · exact .refl
      · next different =>
        split
        · next free => exact .single (copyEntry_tidy idle ready (by simp [free]) (x := (p, oldFd)) rfl)
        · refine .tail (.single (closeEntry_tidy idle)) (copyEntry_tidy ?_ (closeEntry_ready ready) ?_ (x := (p, oldFd)) rfl)
          · rw [closeEntry_call, idle]
          · simp [closeEntry_fds]
  · exact .refl

theorem sysClose_tidies (fd : Int) :
    Tidies s (s.sysClose p fd).2 := by
  have freed : Tidies s (s.fdFree p fd).2 := by
    unfold fdFree
    split
    · exact .refl
    · split
      · exact .refl
      · exact .single (closeEntry_tidy idle)
  unfold sysClose
  split
  · exact .refl
  · split <;> next result => rw [result] at freed; exact freed

theorem sysOpen_tidies : Tidies s (s.sysOpen p).2 := by
  have allocated : Tidies s (s.fdAlloc p).2 := by
    unfold fdAlloc
    split
    · exact .refl
    · next fd _ free =>
      have member : fd ∈ s.freeFds p := by simp [free]
      have unused := (of_decide_eq_true (mem_filter.mp member).2).2
      exact .single (setFd_tidy idle (by simp [unused]) (by simp))
  unfold sysOpen
  split
  next result =>
    rw [result] at allocated
    split <;> exact allocated

end

theorem wakeParent_tidies (orderly : Orderly s) {parentPid pid : Nat} (real : pid ≠ pidNone) :
    Tidies s (s.wakeParent parentPid pid) := by
  unfold wakeParent
  split
  · exact .refl
  · next parent found =>
    split
    · next waits =>
      have ok := orderly.procs parent
      -- it waits for a pid, so it is in `sys_waitpid` and on no queue
      have idle := (ok.waitFor (by rw [waits.2]; exact real)).2
      refine .single (.proc idle idle (fun _ _ _ => Iff.rfl) nofun fun ok => ?_)
      exact ⟨nofun, ok.holds, fun _ => .inl rfl, fun _ => ok.pid (by simp [waits.1]),
        fun waits => absurd rfl waits, nofun⟩
    · exact .refl

theorem zombie_idle (orderly : Orderly s) (zombie : (s.procs p).state = .zombie) :
    (s.procs p).call.onEnd = none := by
  cases here : (s.procs p).call.onEnd with
  | none => rfl
  | some place =>
    rcases (orderly.procs p).active here with ready | blocked
    · simp [zombie] at ready
    · simp [zombie] at blocked

theorem sysWaitpid_tidies (orderly : Orderly s) (user : (s.procs p).call = .user)
    (ready : (s.procs p).state = .ready) (pid : Nat) : Tidies s (s.sysWaitpid p pid).2 := by
  unfold sysWaitpid
  split
  · exact .refl
  · split
    · exact .refl
    · split
      · next zombie => exact processDestroy_tidies (zombie_idle orderly zombie)
      · have idle : (s.procs p).call.onEnd = none := by rw [user]; rfl
        have blocks : Tidy s (s.modifyProc p fun proc =>
            { proc with state := .blocked, waitForPid := pid, call := .waitpid pid }) :=
          .proc idle rfl (fun _ _ _ => Iff.rfl) nofun fun ok =>
            ⟨nofun, nofun, nofun, fun _ => ok.pid (by simp [ready]), fun _ => ⟨.inl rfl, rfl⟩, fun _ => rfl⟩
        exact .single blocks

theorem waitpidResume_tidies (sound : Sound s) (idle : (s.procs p).call.onEnd = none) (pid : Nat) :
    Tidies s (s.waitpidResume p pid).2 := by
  have back : Tidy s (s.setCall p .user) := setCall_tidy idle rfl
  unfold waitpidResume
  simp only
  split
  · exact .single back
  · split
    · next zombie =>
      exact .head back (processDestroy_tidies (zombie_idle (back.sound sound).orderly zombie))
    · exact .single back

end System

def Op.slot : Op → Option Slot
  | .call p _ => some p
  | .run p => some p
  | .shell _ => none

inductive Stepped (s : System) : Op → Answer → System → Prop where
  /-- the step was not possible -/
  | still {op : Op} : Stepped s op .busy s
  | tidy {op : Op} {ans : Answer} {s' : System}
      (idle : ∀ p, op.slot = some p → (s.procs p).call.onEnd = none) (chain : Tidies s s') :
      Stepped s op ans s'
  | exit {p : Slot} {code : Int} {s' : System} (ready : (s.procs p).state = .ready)
      (user : (s.procs p).call = .user) (child : (s.procs p).parentPid ≠ pidNone)
      (chain : Tidies (s.leave p code) s') :
      Stepped s (.call p (.exit code)) .busy s'
  | startRead {p : Slot} {fd : Fd} {b : PipeId} {c : SysCall} {count : Nat}
      (ready : (s.procs p).state = .ready) (user : (s.procs p).call = .user)
      (held : (s.procs p).fds fd = .pipe b .read) (positive : count ≠ 0) :
      Stepped s (.call p c) .busy (s.setCall p (.read b count .test))
  | startWrite {p : Slot} {fd : Fd} {b : PipeId} {c : SysCall} {bytes : List UInt8}
      (ready : (s.procs p).state = .ready) (user : (s.procs p).call = .user)
      (held : (s.procs p).fds fd = .pipe b .write) (positive : bytes ≠ []) :
      Stepped s (.call p c) .busy (s.setCall p (.write b bytes 0 .test))
  | read {p : Slot} {b : PipeId} {count : Nat} {pc : ReadPc} (ready : (s.procs p).state = .ready)
      (calling : (s.procs p).call = .read b count pc) :
      Stepped s (.run p) (s.readStep p b count pc).1 (s.readStep p b count pc).2
  | write {p : Slot} {b : PipeId} {rest : List UInt8} {written : Nat} {pc : WritePc}
      (ready : (s.procs p).state = .ready) (calling : (s.procs p).call = .write b rest written pc) :
      Stepped s (.run p) (s.writeStep p b rest written pc).1 (s.writeStep p b rest written pc).2

theorem System.fdGet_some {fd : Int}
    (found : s.fdGet p fd = some entry) : ∃ n, (s.procs p).fds n = entry := by
  unfold fdGet at found
  split at found
  · cases found
  · split at found
    · cases found
    · exact ⟨_, Option.some.inj found⟩

theorem sysCall_cases (sound : Sound s) (ready : (s.procs p).state = .ready)
    (user : (s.procs p).call = .user) (c : SysCall) :
    Stepped s (.call p c) (s.sysCall p c).1 (s.sysCall p c).2 := by
  have idle : (s.procs p).call.onEnd = none := by rw [user]; rfl
  have self : ∀ q, (Op.call p c).slot = some q → (s.procs q).call.onEnd = none := by
    rintro _ ⟨⟩
    exact idle
  cases c with
  | pipe => exact .tidy self (System.sysPipe_tidies idle ready)
  | dup2 old new => exact .tidy self (System.sysDup2_tidies idle ready old new)
  | close fd => exact .tidy self (System.sysClose_tidies idle fd)
  | «open» => exact .tidy self (System.sysOpen_tidies idle)
  | exec outcome =>
    have chain := System.execProgram_tidies (s := s) (some p) outcome
    refine .tidy self ?_
    simp only [System.sysCall, System.sysExec]
    split <;> exact chain
  | exit code =>
    simp only [System.sysCall, System.usermodeExit]
    split
    · next child =>
      have ok := sound.orderly.procs p
      have used : 0 < (s.procs p).pid := ok.pid (by simp [ready])
      exact .exit ready user child
        (System.wakeParent_tidies (sound.leave ready user code).orderly used.ne')
    · exact .tidy self (System.processDestroy_tidies idle)
  | waitpid pid => exact .tidy self (System.sysWaitpid_tidies sound.orderly user ready pid)
  | read fd count =>
    simp only [System.sysCall, System.sysRead]
    split
    · exact .tidy self .refl
    · next positive =>
      split
      · next b found =>
        obtain ⟨n, held⟩ := System.fdGet_some found
        exact .startRead ready user held positive
      all_goals exact .tidy self .refl
  | write fd bytes =>
    simp only [System.sysCall, System.sysWrite]
    split
    · exact .tidy self .refl
    · next positive =>
      split
      · next b found =>
        obtain ⟨n, held⟩ := System.fdGet_some found
        exact .startWrite ready user held positive
      all_goals exact .tidy self .refl

theorem step_cases (sound : Sound s)
    (stepped : s.step op = (ans, s')) : Stepped s op ans s' := by
  cases op with
  | call p c =>
    simp only [System.step] at stepped
    split at stepped
    · next enabled =>
      have cases := sysCall_cases sound enabled.1 enabled.2 c
      rwa [stepped] at cases
    · cases stepped
      exact .still
  | run p =>
    simp only [System.step] at stepped
    split at stepped
    · next ready =>
      simp only [System.resume] at stepped
      split at stepped
      · cases stepped
        exact .still
      · cases stepped
        exact .still
      · next pid calling =>
        have idle : (s.procs p).call.onEnd = none := by rw [calling]; rfl
        have chain := System.waitpidResume_tidies sound idle pid
        rw [stepped] at chain
        refine .tidy ?_ chain
        rintro _ ⟨⟩
        exact idle
      · next b count pc calling =>
        have result := Stepped.read ready calling
        rwa [stepped] at result
      · next b rest written pc calling =>
        have result := Stepped.write ready calling
        rwa [stepped] at result
    · cases stepped
      exact .still
  | shell outcome =>
    have chain := System.execProgram_tidies (s := s) none outcome
    simp only [System.step] at stepped
    cases stepped
    exact .tidy nofun chain

/-! ## Every step keeps the counts -/

namespace Sound

variable {s s' : System} {p : Slot} {b : PipeId} {d : PipeDir}

theorem modifyPipe (sound : Sound s) {f : PipeBuf → PipeBuf} (refs : (f (s.pool b)).refs = (s.pool b).refs)
    (sums : (f (s.pool b)).refCount = (s.pool b).refCount)
    (waiting : (f (s.pool b)).waiting = (s.pool b).waiting) : Sound (s.modifyPipe b f) where
  counted := by
    exact sound.counted.congr (fun _ => System.modifyPipe_keeps PipeBuf.refs refs)
      fun _ => System.modifyPipe_keeps PipeBuf.refCount sums
  orderly := sound.orderly.modifyPipe fun d => by rw [waiting]

theorem wake (sound : Sound s) (n : Nat) : Sound (s.wake b d n) where
  counted := by
    have table : (s.wake b d n).table = s.table := by
      funext x
      simp [System.table]
    rw [table]
    exact sound.counted.congr (by simp) (by simp)
  orderly := sound.orderly.wake n

theorem waitQueueBlock (sound : Sound s) (ready : (s.procs p).state = .ready)
    (here : (s.procs p).call.onEnd = some (b, d)) (asleep : (s.procs p).call.midway = false) :
    Sound (s.waitQueueBlock b d p) where
  counted := by
    have table : (s.waitQueueBlock b d p).table = s.table :=
      System.table_modifyProc (s := s) (p := p) (fun proc => { proc with state := .blocked }) rfl
    rw [table]
    exact sound.counted.congr (by simp) (by simp)
  orderly := sound.orderly.waitQueueBlock ready here asleep

end Sound

/-- Going to sleep and noting where the call goes on can be done in either order. -/
theorem System.waitQueueBlock_setCall (s : System) (b : PipeId) (d : PipeDir) (p : Slot) (call : Call) :
    (s.waitQueueBlock b d p).setCall p call = (s.setCall p call).waitQueueBlock b d p := by
  simp [waitQueueBlock, setCall, System.modifyProc, System.modifyPipe]

/-- One turn of the loop of a pipe call: what the process does, and where its call goes on. -/
inductive Turn (s : System) (p : Slot) (b : PipeId) : Call → System → Call → Prop where
  | eof {count : Nat} {pc : ReadPc} (top : pc = .test ∨ pc = .asleep) (empty : (s.pool b).count = 0)
      (noWriter : (s.pool b).refs .write ≤ 0) : Turn s p b (.read b count pc) s .user
  | empty {count : Nat} {pc : ReadPc} (top : pc = .test ∨ pc = .asleep) (empty : (s.pool b).count = 0)
      (writer : 0 < (s.pool b).refs .write) : Turn s p b (.read b count pc) s (.read b count .block)
  | filled {count toRead : Nat} {pc : ReadPc} (top : pc = .test ∨ pc = .asleep) (filled : (s.pool b).count ≠ 0)
      (available : toRead ≤ (s.pool b).count) (some : count ≠ 0 → 0 < toRead) :
      Turn s p b (.read b count pc) s (.read b count (.copy toRead []))
  | readerSleeps {count : Nat} : Turn s p b (.read b count .block) (s.waitQueueBlock b .read p) (.read b count .asleep)
  | take {count toRead : Nat} {got : List UInt8} (more : got.length < toRead) :
      Turn s p b (.read b count (.copy toRead got)) (s.takeByte b)
        (.read b count (.copy toRead (got ++ [(s.pool b).data (s.pool b).readPos])))
  | copied {count toRead : Nat} {got : List UInt8} (done : toRead ≤ got.length) :
      Turn s p b (.read b count (.copy toRead got)) (s.shrink b toRead) (.read b count (.wake got))
  | returns {count : Nat} {got : List UInt8} : Turn s p b (.read b count (.wake got)) (s.wake b .write 1) .user
  | stored {written : Nat} {pc : WritePc} : Turn s p b (.write b [] written pc) s (.write b [] written .wake)
  | noReader {rest : List UInt8} {written : Nat} {pc : WritePc} (noReader : (s.pool b).refs .read ≤ 0) :
      Turn s p b (.write b rest written pc) s .user
  | full {rest : List UInt8} {written : Nat} {pc : WritePc} (reader : 0 < (s.pool b).refs .read)
      (full : pipeBufSize ≤ (s.pool b).count) : Turn s p b (.write b rest written pc) s (.write b rest written .full)
  | put {byte : UInt8} {rest : List UInt8} {written : Nat} {pc : WritePc} (room : (s.pool b).count < pipeBufSize) :
      Turn s p b (.write b (byte :: rest) written pc) (s.putByte b byte) (.write b rest (written + 1) .test)
  | wakesReader {rest : List UInt8} {written : Nat} :
      Turn s p b (.write b rest written .full) (s.wake b .read 1) (.write b rest written .block)
  | writerSleeps {rest : List UInt8} {written : Nat} :
      Turn s p b (.write b rest written .block) (s.waitQueueBlock b .write p) (.write b rest written .asleep)
  | written {rest : List UInt8} {written : Nat} : Turn s p b (.write b rest written .wake) (s.wake b .read 1) .user

/-- What every turn leads to holds after a step of `sys_read` in its loop. -/
theorem System.readStep_turn {P : System → Prop} {count : Nat} {pc : ReadPc}
    (each : ∀ {t next}, Turn s p b (.read b count pc) t next → P (t.setCall p next)) : P (s.readStep p b count pc).2 := by
  have looped (top : pc = .test ∨ pc = .asleep) : P (s.readStep p b count .test).2 := by
    simp only [readStep]
    split
    · next empty =>
      split
      · next noWriter => exact each (.eof top empty noWriter)
      · next writer => exact each (.empty top empty (not_le.mp writer))
    · next filled =>
      refine each (.filled top filled ?_ fun positive => ?_)
      · split <;> omega
      · split <;> omega
  cases pc with
  | test => exact looped (.inl rfl)
  | asleep => exact looped (.inr rfl)
  | block => exact each .readerSleeps
  | copy toRead got =>
    simp only [readStep]
    split
    · next more => exact each (.take more)
    · next done => exact each (.copied (not_lt.mp done))
  | wake got => exact each .returns

theorem System.writeStep_turn {P : System → Prop} {rest : List UInt8} {written : Nat} {pc : WritePc}
    (each : ∀ {t next}, Turn s p b (.write b rest written pc) t next → P (t.setCall p next)) :
    P (s.writeStep p b rest written pc).2 := by
  have looped : P (s.writeStep p b rest written .test).2 := by
    cases rest with
    | nil => exact each .stored
    | cons byte rest =>
      simp only [writeStep]
      split
      · next noReader => exact each (.noReader noReader)
      · next reader =>
        split
        · next full => exact each (.full (not_le.mp reader) full)
        · next room => exact each (.put (not_le.mp room))
  cases pc with
  | test | asleep => exact looped
  | full => exact each .wakesReader
  | block => exact each .writerSleeps
  | wake => exact each .written

theorem Sound.turn {t : System} {call next : Call} (sound : Sound s) (ready : (s.procs p).state = .ready)
    (calling : (s.procs p).call = call) (turn : Turn s p b call t next) : Sound (t.setCall p next) := by
  have goesOn {s' : System} {next : Call} {d : PipeDir} (sound' : Sound s') (ready' : (s'.procs p).state = .ready)
      (fds : (s'.procs p).fds = (s.procs p).fds) (here : call.onEnd = some (b, d)) (on : next.onEnd = some (b, d)) :
      Sound (s'.setCall p next) := by
    obtain ⟨fd, held⟩ := (sound.orderly.procs p).holds (calling ▸ here)
    exact sound'.setCall ready' (.inr ⟨fd, b, d, on, fds ▸ held⟩)
  have asleep {next : Call} {d : PipeDir} (here : call.onEnd = some (b, d)) (on : next.onEnd = some (b, d))
      (still : next.midway = false) : Sound ((s.waitQueueBlock b d p).setCall p next) := by
    rw [System.waitQueueBlock_setCall]
    refine (goesOn sound ready rfl here on).waitQueueBlock ?_ ?_ ?_
    · simpa [System.setCall] using ready
    · simpa [System.setCall] using on
    · simpa [System.setCall] using still
  cases turn with
  | eof | noReader => exact sound.setCall ready (.inl rfl)
  | empty | filled | stored | full => exact goesOn sound ready rfl rfl rfl
  | take | copied | put => exact goesOn (sound.modifyPipe rfl rfl rfl) ready rfl rfl rfl
  | readerSleeps | writerSleeps => exact asleep rfl rfl rfl
  | returns | written => exact (sound.wake 1).setCall (System.wake_ready 1 ready) (.inl rfl)
  | wakesReader => exact goesOn (sound.wake 1) (System.wake_ready 1 ready) (System.wake_fds 1) rfl rfl

theorem Stepped.sound (stepped : Stepped s op ans s')
    (sound : Sound s) : Sound s' := by
  cases stepped with
  | still => exact sound
  | tidy _ chain => exact chain.sound sound
  | exit ready user _ chain => exact chain.sound (sound.leave ready user _)
  | startRead ready _ held _ => exact sound.setCall ready (.inr ⟨_, _, _, rfl, held⟩)
  | startWrite ready _ held _ => exact sound.setCall ready (.inr ⟨_, _, _, rfl, held⟩)
  | read ready calling => exact System.readStep_turn (sound.turn ready calling)
  | write ready calling => exact System.writeStep_turn (sound.turn ready calling)

theorem Sound.step (sound : Sound s)
    (stepped : s.step op = (ans, s')) : Sound s' :=
  (step_cases sound stepped).sound sound

theorem boot_sound : Sound boot where
  counted := ⟨fun b d => by simp [boot, System.table, tally], fun b => rfl⟩
  orderly :=
    { procs := fun p => ⟨nofun, nofun, nofun, fun used => absurd rfl used, fun waits => absurd rfl waits, nofun⟩
      queued := nofun
      once := fun _ _ => nodup_nil
      nextPid := Nat.one_pos
      released := nofun }

/-- A free slot holds no pipe end, so it does not matter whether it is counted. -/
theorem Sound.ends_eq (sound : Sound s) (b : PipeId) (d : PipeDir) :
    s.ends b d = tally s.table (.pipe b d) := by
  refine tally_congr fun x => ?_
  split
  · next unused => simp [System.table, (sound.orderly.procs x.1).unused unused]
  · exact Iff.rfl

/-- The counts of every buffer after any sequence of steps, in any order and by any processes:
each end's count is the number of descriptors naming it, `ref_count` is their sum, a buffer
that is not in use is named by no descriptor, and no buffer was ever released while a process
was waiting on one of its queues. -/
theorem pipe_counts_are_descriptors {s : System} {trace : List (Op × Answer)}
    (run : Run System.step (fun _ _ => True) boot trace s) :
    (∀ b d, (s.pool b).refs d = s.ends b d) ∧
      (∀ b, (s.pool b).refCount = s.ends b .read + s.ends b .write) ∧
      (∀ b, (s.pool b).refCount = 0 → ∀ p fd d, (s.procs p).state ≠ .unused →
        (s.procs p).fds fd ≠ .pipe b d) ∧
      ∀ pb ∈ s.releases, pb.waiting .read = [] ∧ pb.waiting .write = [] := by
  have sound : Sound s := run.invariant (fun sound _ stepped => sound.step stepped) boot_sound
  refine ⟨fun b d => ?_, fun b => ?_, fun b free p fd d _ => ?_, fun pb member => ?_⟩
  · rw [sound.ends_eq, sound.counted.refs]
  · rw [sound.ends_eq, sound.ends_eq, sound.counted.sum, sound.counted.refs, sound.counted.refs]
  · exact sound.counted.unnamed free.le (x := (p, fd))
  · exact ⟨sound.orderly.released pb member _, sound.orderly.released pb member _⟩

/-- A program that makes a pipe, runs a child on its read end and closes its own. -/
def pipelineOps : List Op :=
  [.shell .loaded, .call 0 .pipe, .call 0 (.dup2 3 0), .call 0 (.exec .loaded), .call 0 (.close 3),
    .call 0 (.dup2 1 0), .call 1 (.exit 0), .call 0 (.waitpid 2), .call 0 (.close 4)]

theorem pipe_counts_are_descriptors_sample :
    ((execute System.step boot pipelineOps).2.pool 0).refs .read =
      (execute System.step boot pipelineOps).2.ends 0 .read ∧
    (execute System.step boot pipelineOps).2.releases.length = 1 := by
  have allowed : AllAllowed System.step (fun _ _ => True) boot pipelineOps :=
    .of_forall fun _ _ _ => trivial
  exact ⟨(pipe_counts_are_descriptors (.of_execute _ allowed)).1 0 .read, by decide +kernel⟩

end GinnOS.Kernel
