import GinnOS.Scheduler.Reaping

/-! # Exit and wait, statement by statement

`sys_waitpid` and `usermode_exit` run with interrupts enabled, so the timer can switch between any
two of their statements.  A process that has marked itself as a zombie is then never run again, and
its parent is never woken (`exit_misses_parent`).  If the timer is kept out of the
statements from the check of the child, or from the mark of the zombie, to the switch (`Masked`), exit
and wait do not miss each other: inside such a window the state is one that
the statements so far make of a state in which all is well (`Window`).
-/

namespace GinnOS.Scheduler

open Lib Function
open Sched hiding schedule wakeParent

variable {s'' : Sched} {pid : UInt32} {c : Fin processMax} {next : Pc} {op : FineOp}

inductive Pc where
  | user
  -- `sys_waitpid`: find the child, is it ours, is it a zombie?
  | waitFind (pid : UInt32)
  | waitOwn (pid : UInt32) (child : Ref)
  | waitDead (pid : UInt32) (child : Ref)
  | waitReap (child : Ref)
  -- the process blocks
  | waitState (pid : UInt32)
  | waitPid (pid : UInt32)
  | waitRemove (pid : UInt32)
  | waitYield (pid : UInt32)
  -- the process was woken
  | wokenFind (pid : UInt32)
  | wokenDead (child : Ref)
  -- `usermode_exit`
  | exitState (code : Int32)
  | exitCode (code : Int32)
  | exitRemove
  | exitFind
  | exitTest (parent : Option Ref)
  | exitWake (parent : Ref)
  | exitClear (parent : Ref)
  | exitReady (parent : Ref)
  | exitYield
  | exitPanic
deriving DecidableEq, Repr

/-- The statements between the check of the child, or the mark of the zombie, and the switch. -/
def Pc.critical : Pc → Bool
  | .waitState _ | .waitPid _ | .waitRemove _ | .waitYield _ => true
  | .exitCode _ | .exitRemove | .exitFind | .exitTest _ | .exitWake _ | .exitClear _ | .exitReady _ | .exitYield => true
  | _ => false

/-- The child for which a process inside `sys_waitpid` waits. -/
def Pc.waitsFor : Pc → Option UInt32
  | .waitPid pid | .waitRemove pid | .waitYield pid | .wokenFind pid => some pid
  | _ => none

/-- One statement of the process `p`: its next statement, and the state. -/
def Sched.advance (s : Sched) (p : Ref) (wakes : List Nat) : Pc → Pc × Sched
  | .user => (.user, s)
  | .waitFind pid =>
    match s.processGet pid with
    | none => (.user, s)
    | some child => (.waitOwn pid child, s)
  | .waitOwn pid child => if (s.procs child).parentPid ≠ (s.procs p).pid then (.user, s) else (.waitDead pid child, s)
  | .waitDead pid child => if (s.procs child).state = .zombie then (.waitReap child, s) else (.waitState pid, s)
  | .waitReap child => (.user, s.processDestroy child wakes)
  | .waitState pid => (.waitPid pid, s.setState p .blocked)
  | .waitPid pid => (.waitRemove pid, s.modify p fun pcb => { pcb with waitForPid := pid })
  | .waitRemove pid => (.waitYield pid, s.schedulerRemove p)
  | .waitYield pid => (.wokenFind pid, s.schedulerYield)
  | .wokenFind pid =>
    match s.processGet pid with
    | none => (.user, s)
    | some child => (.wokenDead child, s)
  | .wokenDead child => if (s.procs child).state = .zombie then (.waitReap child, s) else (.user, s)
  | .exitState code => (.exitCode code, s.setState p .zombie)
  | .exitCode code => (.exitRemove, s.modify p fun pcb => { pcb with exitCode := code })
  | .exitRemove => (.exitFind, s.schedulerRemove p)
  | .exitFind => (.exitTest (s.processGet (s.procs p).parentPid), s)
  | .exitTest parent =>
    match parent with
    | none => (.exitYield, s)
    | some parent =>
      if (s.procs parent).state = .blocked ∧ (s.procs parent).waitForPid = (s.procs p).pid then (.exitWake parent, s)
      else (.exitYield, s)
  | .exitWake parent => (.exitClear parent, s.setState parent .ready)
  | .exitClear parent => (.exitReady parent, s.modify parent fun pcb => { pcb with waitForPid := 0 })
  | .exitReady parent => (.exitYield, s.schedulerReady parent)
  | .exitYield => (.exitPanic, s.schedulerYield)
  | .exitPanic => (.exitPanic, s.halt)

structure Fine where
  sched : Sched
  pc : Ref → Pc

/-- A call of the current process begins, the current process runs its next statement, or the timer
interrupts. -/
inductive FineOp where
  | waitpid (pid : UInt32)
  | exit (code : Int32)
  | run (wakes : List Nat)
  | tick

namespace Fine

variable (f : Fine)

def advance (wakes : List Nat) (p : Ref) : Fine :=
  let next := f.sched.advance p wakes (f.pc p)
  ⟨next.2, Function.update f.pc p next.1⟩

def step : FineOp → Unit × Fine
  | .waitpid pid => ((), { f with pc := fun p => if f.sched.current = some p then .waitFind pid else f.pc p })
  | .exit code => ((), { f with pc := fun p => if f.sched.current = some p then .exitState code else f.pc p })
  | .run wakes =>
    match f.sched.current with
    | none => ((), f)
    | some p => ((), f.advance wakes p)
  | .tick => ((), { f with sched := f.sched.schedulerTick })

/-- Calls come from user mode; who exits has a parent. -/
def Possible : FineOp → Prop
  | .waitpid _ => ∃ i ∈ f.sched.caller, f.pc (.slot i) = .user
  | .exit _ => ∃ i ∈ f.sched.caller, f.pc (.slot i) = .user ∧ (f.sched.procs (.slot i)).parentPid ≠ 0
  | .run _ => f.sched.caller ≠ none
  | .tick => True

/-- The timer stays out of the windows. -/
def Masked : FineOp → Prop
  | .tick => ∀ p ∈ f.sched.current, (f.pc p).critical = false
  | _ => True

/-- The child `c` has exited and is off the processor for good, its parent `p` is blocked inside `sys_waitpid` for it,
and nobody will run `p`. -/
def Lost (p c : Ref) : Prop :=
  (f.sched.procs c).state = .zombie ∧ f.sched.current ≠ some c ∧ f.sched.ready.contains c = false ∧
  (f.sched.procs c).parentPid = (f.sched.procs p).pid ∧ (f.sched.procs p).state = .blocked ∧
  f.sched.ready.contains p = false ∧ (f.pc p).waitsFor = some (f.sched.procs c).pid
  deriving Decidable

end Fine

/-! ## What goes on outside the windows -/

variable {s s' t : Sched} {xs : List Ref} {ws : Nat → List Ref} {p p' : Ref} {i j : Fin processMax}

/-- Who is blocked now was blocked in the same way before. -/
def Eased (s s' : Sched) : Prop := ∀ p, (s'.procs p).state = .blocked → s'.procs p = s.procs p

namespace Eased

theorem refl (s : Sched) : Eased s s := fun _ _ => rfl

theorem trans (first : Eased s s') (second : Eased s' s'') : Eased s s'' := fun p blocked =>
  (second p blocked).trans (first p (second p blocked ▸ blocked))

theorem modify {f : Pcb → Pcb} (new : (f (s.procs p)).state ≠ .blocked) : Eased s (s.modify p f) := fun p' blocked => by
  rw [procs_modify] at blocked ⊢
  split at blocked
  · exact absurd blocked new
  · next other => rw [if_neg other]

theorem congr (eased : Eased s s') (procs : s''.procs = s'.procs) : Eased s s'' := fun p blocked => by
  rw [procs] at blocked ⊢
  exact eased p blocked

theorem schedulerReady (s : Sched) (p : Ref) : Eased s (s.schedulerReady p) :=
  (modify (s := s) (p := p) (f := fun pcb => { pcb with state := .ready }) nofun).congr rfl

theorem dispatch (s : Sched) (p : Ref) : Eased s (s.dispatch p) :=
  (modify (s := s) (p := p) (f := fun pcb => { pcb with state := .running }) nofun).congr rfl

theorem schedule (s : Sched) : Eased s s.schedule := by
  have popped : s.queuePop.2.procs = s.procs := by
    rw [queuePop]
    split <;> rfl
  have first : Eased s s.queuePop.2 := (refl s).congr popped
  rw [Sched.schedule]
  split
  · next isPop =>
    rw [isPop] at first
    split
    · exact first.congr rfl
    · exact first.trans (dispatch _ _)
  · next next s₁ isPop =>
    rw [isPop] at first
    split
    · next p _ =>
      split
      · have requeued : Eased s₁ ((s₁.setState p .ready).queuePush p) :=
          (modify (s := s₁) (p := p) (f := fun pcb => { pcb with state := .ready }) (by simp)).congr rfl
        exact first.trans (requeued.trans (dispatch _ _))
      · exact first.trans (dispatch _ _)
    · exact first.trans (dispatch _ _)

theorem tick (s : Sched) : Eased s s.schedulerTick := by
  rw [schedulerTick]
  split
  · have counted : Eased s (if 0 < s.ticksRemaining then { s with ticksRemaining := s.ticksRemaining - 1 } else s) := by
      split
      · exact (refl s).congr rfl
      · exact refl s
    dsimp only
    generalize (if 0 < s.ticksRemaining then _ else s) = s₁ at counted ⊢
    split
    · exact counted.trans (schedule s₁)
    · exact counted
  · exact refl s

theorem yield (s : Sched) : Eased s s.schedulerYield := by
  rw [schedulerYield]
  split
  · exact ((refl s).congr rfl).trans (schedule { s with ticksRemaining := 0 })
  · exact refl s

theorem wakeFrom (fuel : Nat) (s : Sched) (p : Option Ref) : Eased s (s.wakeFrom fuel p) := by
  induction fuel generalizing s p with
  | zero => exact (refl s).congr rfl
  | succ fuel ih =>
    cases p with
    | none => exact refl s
    | some p =>
      have readied := schedulerReady { s with waitNext := update s.waitNext p none } p
      exact Eased.trans (fun p' => readied p') (ih _ _)

theorem wakes (s : Sched) (wakes : List Nat) : Eased s (wakes.foldl waitQueueWakeAll s) := by
  induction wakes generalizing s with
  | nil => exact refl s
  | cons q wakes ih =>
    have woken : Eased s (s.waitQueueWakeAll q) := (wakeFrom (processMax + 3) s (s.heads q)).congr rfl
    exact woken.trans (ih _)

theorem wakeParent (s : Sched) (pid : UInt32) (parent : Option Ref) : Eased s (s.wakeParent pid parent) := by
  cases parent with
  | none => exact refl s
  | some parent =>
    rw [Sched.wakeParent]
    split
    · have woken := modify (s := s) (p := parent) (f := fun pcb => { pcb with state := .ready, waitForPid := 0 }) (by simp)
      exact woken.trans (schedulerReady _ parent)
    · exact refl s

end Eased

/-- The process in the slot `c` is the child `pid` of `p`. -/
structure Child (s : Sched) (p : Ref) (pid : UInt32) (c : Fin processMax) : Prop where
  used : s.Used c
  pid : (s.procs (.slot c)).pid = pid
  own : (s.procs (.slot c)).parentPid = (s.procs p).pid

/-- A process in the table that has not exited. -/
def Live (s : Sched) (p : Ref) : Prop := ∃ i, p = .slot i ∧ s.Used i ∧ (s.procs p).state ≠ .zombie

theorem Sched.procs_schedulerReady (s : Sched) (p p' : Ref) :
    (s.schedulerReady p).procs p' = if p' = p then { s.procs p with state := .ready } else s.procs p' := s.procs_setState ..

/-- What the process `p` knows at a statement outside the windows. -/
def Fits (s : Sched) (p : Ref) : Pc → Prop
  | .waitFind _ => Live s p
  -- another parent may have reaped the process since
  | .waitOwn pid child => Live s p ∧
      ∃ c, child = .slot c ∧ ((s.procs child).parentPid = (s.procs p).pid → Child s p pid c)
  | .waitDead pid child => Live s p ∧ ∃ c, child = .slot c ∧ Child s p pid c
  | .waitReap child => Live s p ∧ ∃ c pid, child = .slot c ∧ Child s p pid c ∧ (s.procs child).state = .zombie
  | .wokenFind pid => Live s p ∧ ∃ c, Child s p pid c
  | .wokenDead child => Live s p ∧ ∃ c pid, child = .slot c ∧ Child s p pid c
  | .exitState _ => (s.procs p).parentPid ≠ 0
  | .exitPanic => (s.procs p).state = .zombie ∨ (s.procs p).state = .unused
  | _ => True

/-- Nobody is inside a window, and who waits for a child waits for one that has not exited. -/
structure Calm (f : Fine) : Prop where
  ok : ∃ xs ws, Ok f.sched xs ws
  active : f.sched.active = true
  distinct : ∀ i j, f.sched.Used i → f.sched.Used j →
    (f.sched.procs (.slot i)).pid = (f.sched.procs (.slot j)).pid → i = j
  outside : ∀ p, (f.pc p).critical = false
  waits : ∀ p, (f.sched.procs p).waitForPid ≠ 0 →
    ∃ c, Child f.sched p (f.sched.procs p).waitForPid c ∧ (f.sched.procs (.slot c)).state ≠ .zombie
  blocked : ∀ p, (f.sched.procs p).state = .blocked →
    f.pc p = .user ∨ f.pc p = .wokenFind (f.sched.procs p).waitForPid
  fits : ∀ p, Fits f.sched p (f.pc p)

theorem Child.same (same : SameProcs s s') (child : Child s p pid c) : Child s' p pid c :=
  ⟨fun gone => child.used ((same.unused _).mp gone), (same.pid _).trans child.pid,
    (same.parentPid _).trans (child.own.trans (same.pid p).symm)⟩

theorem Live.stays (stays : Stays s s') (live : Live s p) : Live s' p := by
  obtain ⟨i, rfl, used, alive⟩ := live
  exact ⟨i, rfl, fun gone => used ((stays.unused _).mp gone), fun dead => alive ((stays.zombie _).mp dead)⟩

theorem Fits.mono {pc : Pc} (parents : ∀ p, (s'.procs p).parentPid = (s.procs p).parentPid)
    (stillLive : Live s p → Live s' p ∧ (s'.procs p).pid = (s.procs p).pid)
    (stillChild : ∀ {pid c}, Live s p → Child s p pid c →
      Child s' p pid c ∧ ((s.procs (.slot c)).state = .zombie → (s'.procs (.slot c)).state = .zombie))
    (stillGone : (s.procs p).state = .zombie ∨ (s.procs p).state = .unused →
      (s'.procs p).state = .zombie ∨ (s'.procs p).state = .unused)
    (fits : Fits s p pc) : Fits s' p pc := by
  cases pc with
  | waitFind pid => exact (stillLive fits).1
  | waitOwn pid child =>
    obtain ⟨live, c, rfl, known⟩ := fits
    refine ⟨(stillLive live).1, c, rfl, fun own => (stillChild live (known ?_)).1⟩
    rw [← parents, own, (stillLive live).2]
  | waitDead pid child =>
    obtain ⟨live, c, rfl, known⟩ := fits
    exact ⟨(stillLive live).1, c, rfl, (stillChild live known).1⟩
  | waitReap child =>
    obtain ⟨live, c, pid, rfl, known, dead⟩ := fits
    have still := stillChild live known
    exact ⟨(stillLive live).1, c, pid, rfl, still.1, still.2 dead⟩
  | wokenFind pid =>
    obtain ⟨live, c, known⟩ := fits
    exact ⟨(stillLive live).1, c, (stillChild live known).1⟩
  | wokenDead child =>
    obtain ⟨live, c, pid, rfl, known⟩ := fits
    exact ⟨(stillLive live).1, c, pid, rfl, (stillChild live known).1⟩
  | exitState code =>
    show (s'.procs p).parentPid ≠ 0
    rw [parents]
    exact fits
  | exitPanic => exact stillGone fits
  | _ => trivial

theorem Fits.same {pc : Pc} (same : SameProcs s s') (stillLive : Live s p → Live s' p)
    (stillDead : ∀ p, (s.procs p).state = .zombie → (s'.procs p).state = .zombie) (fits : Fits s p pc) : Fits s' p pc :=
  fits.mono same.parentPid (fun live => ⟨stillLive live, same.pid p⟩) (fun _ child => ⟨child.same same, stillDead _⟩)
    fun gone => gone.imp (stillDead p) (same.unused p).mpr

theorem Fits.stays {pc : Pc} (stays : Stays s s') (fits : Fits s p pc) : Fits s' p pc :=
  fits.same stays.toSameProcs (Live.stays stays) fun p => (stays.zombie p).mpr

theorem SameProcs.distinct (same : SameProcs s s')
    (distinct : ∀ i j, s.Used i → s.Used j → (s.procs (.slot i)).pid = (s.procs (.slot j)).pid → i = j) (i j : Fin processMax)
    (usedI : s'.Used i) (usedJ : s'.Used j) (pids : (s'.procs (.slot i)).pid = (s'.procs (.slot j)).pid) : i = j := by
  refine distinct i j (fun gone => usedI ((same.unused _).mpr gone)) (fun gone => usedJ ((same.unused _).mpr gone)) ?_
  rwa [same.pid, same.pid] at pids

namespace Calm

variable {f : Fine} {pc : Ref → Pc}

theorem kept (calm : Calm ⟨s, pc⟩) (kept : Kept s s') (eased : Eased s s') (ok : ∃ xs ws, Ok s' xs ws) : Calm ⟨s', pc⟩ where
  ok := ok
  active := kept.active calm.active
  distinct := kept.toSameProcs.distinct calm.distinct
  outside := calm.outside
  waits p waiting := by
    have waitFor := kept.waitFor p waiting
    obtain ⟨c, child, alive⟩ := calm.waits p (waitFor ▸ waiting)
    refine ⟨c, ?_, fun dead => alive ((kept.zombie _).mp dead)⟩
    rw [waitFor]
    exact child.same kept.toSameProcs
  blocked p blocked := by
    have same := eased p blocked
    rw [same]
    exact calm.blocked p (same ▸ blocked)
  fits p := (calm.fits p).stays kept.toStays

theorem running (calm : Calm f) (is : f.sched.current = some p) : (f.sched.procs p).state = .running := by
  obtain ⟨xs, ws, ok⟩ := calm.ok
  exact ok.current p is

/-- The process `p` gets to its next statement. -/
theorem move {pc' : Ref → Pc} (calm : Calm ⟨s, pc⟩) (elsewhere : ∀ p', p' ≠ p → pc' p' = pc p') (same : SameProcs s s')
    (ok : ∃ xs ws, Ok s' xs ws) (active : s'.active = true) (outside : (pc' p).critical = false)
    (waits : ∀ p', (s'.procs p').waitForPid ≠ 0 →
      ∃ c, Child s p' (s'.procs p').waitForPid c ∧ (s'.procs (.slot c)).state ≠ .zombie)
    (blocked : ∀ p', (s'.procs p').state = .blocked →
      if p' = p then pc' p = .wokenFind (s'.procs p).waitForPid else s'.procs p' = s.procs p')
    (fits : ∀ p', if p' = p then Fits s' p (pc' p) else Fits s p' (pc p') → Fits s' p' (pc p')) : Calm ⟨s', pc'⟩ := by
  refine ⟨ok, active, same.distinct calm.distinct, fun p' => ?_, fun p' waiting => ?_, fun p' isBlocked => ?_, fun p' => ?_⟩
  · show (pc' p').critical = false
    by_cases here : p' = p
    · rwa [here]
    · rw [elsewhere p' here]
      exact calm.outside p'
  · obtain ⟨c, child, alive⟩ := waits p' waiting
    exact ⟨c, child.same same, alive⟩
  · have blocked := blocked p' isBlocked
    show pc' p' = .user ∨ pc' p' = .wokenFind (s'.procs p').waitForPid
    split at blocked
    · next here =>
      rw [here]
      exact .inr blocked
    · next other =>
      rw [elsewhere p' other, blocked]
      exact calm.blocked p' (blocked ▸ isBlocked)
  · have fits := fits p'
    show Fits s' p' (pc' p')
    split at fits
    · next here => rwa [here]
    · next other =>
      rw [elsewhere p' other]
      exact fits (calm.fits p')

theorem goto (calm : Calm ⟨s, pc⟩) (is : s.current = some p) (outside : next.critical = false)
    (fits : Fits s p next) : Calm ⟨s, update pc p next⟩ := by
  have running := calm.running is
  refine calm.move (fun p' other => update_of_ne other ..) (Kept.refl s).toSameProcs calm.ok calm.active ?_ calm.waits
    (fun p' blocked => ?_) fun p' => ?_
  · rwa [update_self]
  · rw [if_neg]
    rintro rfl
    exact absurd (running.symm.trans blocked) nofun
  · rw [update_self]
    split
    · exact fits
    · exact id

theorem not_lost (calm : Calm f) (c : Ref) (dead : (f.sched.procs c).state = .zombie) (blocked : (f.sched.procs p).state = .blocked)
    (waits : f.pc p = .wokenFind (f.sched.procs c).pid) : False := by
  obtain ⟨xs, ws, ok⟩ := calm.ok
  cases c with
  | idle => rcases (ok.legal .idle).idle rfl with is | is <;> rw [is] at dead <;> cases dead
  | slot k =>
    have used : f.sched.Used k := by
      rw [Used, dead]
      simp
    rcases calm.blocked p blocked with isUser | isWoken
    · rw [isUser] at waits
      cases waits
    · have same := Pc.wokenFind.inj (isWoken.symm.trans waits)
      have real := (ok.legal (.slot k)).pid (by simp) used
      obtain ⟨c, child, alive⟩ := calm.waits p (same ▸ real)
      have isChild := calm.distinct c k child.used used (child.pid.trans same)
      rw [isChild] at alive
      exact alive dead

theorem vanish (calm : Calm ⟨s, pc⟩) (live : Live s p) (done : pc p = .user)
    (child : Child s p pid c) (dead : (s.procs (.slot c)).state = .zombie) : Calm ⟨s.vanish (.slot c), pc⟩ := by
  obtain ⟨xs, ws, ok⟩ := calm.ok
  have sameProc {p' : Ref} (other : p' ≠ .slot c) : (s.vanish (.slot c)).procs p' = s.procs p' := by
    rw [procs_vanish, if_neg other]
  have parents (p' : Ref) : ((s.vanish (.slot c)).procs p').parentPid = (s.procs p').parentPid := by
    rw [procs_vanish]
    split
    · next here => rw [here]
    · rfl
  have notDead {p' : Ref} (live' : Live s p') : p' ≠ .slot c := by
    rintro rfl
    obtain ⟨_, _, _, alive⟩ := live'
    exact alive dead
  have childLeft {p' : Ref} {pid' : UInt32} {c' : Fin processMax} (there : p' ≠ .slot c) (different : c' ≠ c)
      (child' : Child s p' pid' c') : Child (s.vanish (.slot c)) p' pid' c' := by
    have slot : Ref.slot c' ≠ .slot c := fun same => different (Ref.slot.inj same)
    refine ⟨(s.used_vanish c c').mpr ⟨child'.used, different⟩, ?_, ?_⟩
    · rw [sameProc slot]
      exact child'.pid
    · rw [sameProc slot, sameProc there]
      exact child'.own
  have liveLeft {p' : Ref} (live' : Live s p') : Live (s.vanish (.slot c)) p' := by
    have there := notDead live'
    obtain ⟨i, rfl, used, alive⟩ := live'
    refine ⟨i, rfl, (s.used_vanish c i).mpr ⟨used, fun same => there (congrArg Ref.slot same)⟩, ?_⟩
    rw [sameProc there]
    exact alive
  refine ⟨⟨xs, ws, ok.vanish (ok.not_queued ?_) ?_ ?_⟩, calm.active, fun i j usedI usedJ same => ?_, calm.outside,
    fun p' waiting => ?_, fun p' blocked => ?_, fun p' => ?_⟩
  · rw [dead]; nofun
  · rw [dead]; nofun
  · rw [dead]; nofun
  · obtain ⟨usedI, notI⟩ := (s.used_vanish c i).mp usedI
    obtain ⟨usedJ, notJ⟩ := (s.used_vanish c j).mp usedJ
    refine calm.distinct i j usedI usedJ ?_
    have same : ((s.vanish (.slot c)).procs (.slot i)).pid = ((s.vanish (.slot c)).procs (.slot j)).pid := same
    rwa [sameProc fun here => notI (Ref.slot.inj here), sameProc fun here => notJ (Ref.slot.inj here)] at same
  · have waiting : ((s.vanish (.slot c)).procs p').waitForPid ≠ 0 := waiting
    have there : p' ≠ .slot c := by
      rintro rfl
      rw [procs_vanish, if_pos rfl] at waiting
      exact absurd (dead.symm.trans ((ok.legal _).waitFor waiting)) nofun
    rw [sameProc there] at waiting
    obtain ⟨c', child', alive⟩ := calm.waits p' waiting
    have different : c' ≠ c := by
      rintro rfl
      exact alive dead
    refine ⟨c', ?_, ?_⟩
    · rw [sameProc there]
      exact childLeft there different child'
    · rw [sameProc fun same => different (Ref.slot.inj same)]
      exact alive
  · have blocked : ((s.vanish (.slot c)).procs p').state = .blocked := blocked
    have there : p' ≠ .slot c := by
      rintro rfl
      rw [procs_vanish, if_pos rfl] at blocked
      cases blocked
    rw [sameProc there] at blocked ⊢
    exact calm.blocked p' blocked
  · show Fits (s.vanish (.slot c)) p' (pc p')
    by_cases here : p' = p
    · rw [here, done]
      trivial
    refine (calm.fits p').mono parents (fun live' => ⟨liveLeft live', by rw [sameProc (notDead live')]⟩)
      (fun {pid' c'} live' child' => ?_) fun gone => ?_
    · -- a process has one parent
      have different : c' ≠ c := by
        rintro rfl
        obtain ⟨i, rfl, used, _⟩ := live
        obtain ⟨i', rfl, used', _⟩ := live'
        exact here (congrArg Ref.slot (calm.distinct i' i used' used (child'.own.symm.trans child.own)))
      refine ⟨childLeft (notDead live') different child', fun dead' => ?_⟩
      rwa [sameProc fun same => different (Ref.slot.inj same)]
    · rw [procs_vanish]
      split
      · exact .inr rfl
      · exact gone

theorem reap (calm : Calm ⟨s, pc⟩) (is : s.current = some p) (live : Live s p)
    (child : Child s p pid c) (dead : (s.procs (.slot c)).state = .zombie) (wakes : List Nat) :
    Calm ⟨s.processDestroy (.slot c) wakes, update pc p .user⟩ := by
  obtain ⟨xs, ws, ok⟩ := calm.ok
  obtain ⟨woken, kept, _⟩ := ok.wakes wakes
  have back : Calm ⟨s, update pc p .user⟩ := calm.goto is rfl trivial
  have before := back.kept kept (.wakes s wakes) woken
  exact before.vanish (live.stays kept.toStays) (update_self ..) (child.same kept.toSameProcs)
    ((kept.zombie _).mpr dead)

end Calm

/-! ## Inside a window -/

/-- The state `t` is what the statements of the window before the given one made of `s`. -/
inductive Window (s : Sched) (p : Ref) : Pc → Sched → Prop where
  | waitState {pid : UInt32} {c : Fin processMax} (child : Child s p pid c) (alive : (s.procs (.slot c)).state ≠ .zombie) :
      Window s p (.waitState pid) s
  | waitPid {pid : UInt32} {c : Fin processMax} (child : Child s p pid c) (alive : (s.procs (.slot c)).state ≠ .zombie) :
      Window s p (.waitPid pid) (s.setState p .blocked)
  | waitRemove {pid : UInt32} {c : Fin processMax} (child : Child s p pid c) (alive : (s.procs (.slot c)).state ≠ .zombie) :
      Window s p (.waitRemove pid) (s.modify p fun pcb => { pcb with state := .blocked, waitForPid := pid })
  | waitYield {pid : UInt32} {c : Fin processMax} (child : Child s p pid c) (alive : (s.procs (.slot c)).state ≠ .zombie) :
      Window s p (.waitYield pid) (s.modify p fun pcb => { pcb with state := .blocked, waitForPid := pid })
  | exitCode (code : Int32) : Window s p (.exitCode code) (s.setState p .zombie)
  | exitRemove (code : Int32) : Window s p .exitRemove (s.dying p code)
  | exitFind (code : Int32) : Window s p .exitFind (s.dying p code)
  | exitTest (code : Int32) :
      Window s p (.exitTest ((s.dying p code).processGet ((s.dying p code).procs p).parentPid)) (s.dying p code)
  | exitWake (code : Int32) {parent : Ref}
      (found : (s.dying p code).processGet ((s.dying p code).procs p).parentPid = some parent)
      (waits : ((s.dying p code).procs parent).state = .blocked ∧
        ((s.dying p code).procs parent).waitForPid = ((s.dying p code).procs p).pid) :
      Window s p (.exitWake parent) (s.dying p code)
  | exitClear (code : Int32) {parent : Ref}
      (found : (s.dying p code).processGet ((s.dying p code).procs p).parentPid = some parent)
      (waits : ((s.dying p code).procs parent).state = .blocked ∧
        ((s.dying p code).procs parent).waitForPid = ((s.dying p code).procs p).pid) :
      Window s p (.exitClear parent) ((s.dying p code).setState parent .ready)
  | exitReady (code : Int32) {parent : Ref}
      (found : (s.dying p code).processGet ((s.dying p code).procs p).parentPid = some parent)
      (waits : ((s.dying p code).procs parent).state = .blocked ∧
        ((s.dying p code).procs parent).waitForPid = ((s.dying p code).procs p).pid) :
      Window s p (.exitReady parent) ((s.dying p code).modify parent fun pcb => { pcb with state := .ready, waitForPid := 0 })
  | exitYield (code : Int32) : Window s p .exitYield ((s.dying p code).wakeParent ((s.dying p code).procs p).pid
      ((s.dying p code).processGet ((s.dying p code).procs p).parentPid))

namespace Window

variable {pc : Pc}

theorem critical (window : Window s p pc t) : pc.critical = true := by
  cases window <;> rfl

theorem current (window : Window s p pc t) : t.current = s.current := by
  cases window with
  | exitYield code =>
    generalize (s.dying p code).processGet _ = parent
    cases parent with
    | none => rfl
    | some parent =>
      rw [Sched.wakeParent]
      split <;> rfl
  | _ => rfl

theorem child (window : Window s p pc t) (waits : pc.waitsFor = some pid) :
    ∃ c, Child s p pid c ∧ (s.procs (.slot c)).state ≠ .zombie := by
  cases window with
  | waitPid child alive | waitRemove child alive | waitYield child alive =>
    cases waits
    exact ⟨_, child, alive⟩
  | _ => cases waits

/-- A window changes nobody else but the parent that it wakes. -/
theorem same (window : Window s p pc t) (other : p' ≠ p) (state : (t.procs p').state ≠ .ready) : t.procs p' = s.procs p' := by
  have dying (code : Int32) : (s.dying p code).procs p' = s.procs p' := by rw [dying, procs_modify, if_neg other]
  cases window with
  | waitState => rfl
  | waitPid | waitRemove | waitYield => exact (s.procs_modify ..).trans (if_neg other)
  | exitCode => exact (s.procs_modify ..).trans (if_neg other)
  | exitRemove code | exitFind code | exitTest code | exitWake code => exact dying code
  | exitClear code | exitReady code =>
    rename_i parent _ _
    have notParent : p' ≠ parent := by
      rintro rfl
      refine state ?_
      exact congrArg Pcb.state ((procs_modify ..).trans (if_pos rfl))
    exact ((procs_modify ..).trans (if_neg notParent)).trans (dying code)
  | exitYield code =>
    refine Eq.trans ?_ (dying code)
    generalize (s.dying p code).processGet _ = parent at state ⊢
    cases parent with
    | none => rfl
    | some parent =>
      rw [Sched.wakeParent] at state ⊢
      split at state
      · next waits =>
        rw [if_pos waits]
        have notParent : p' ≠ parent := by
          rintro rfl
          rw [procs_schedulerReady, if_pos rfl] at state
          exact state rfl
        rw [procs_schedulerReady, if_neg notParent, procs_modify, if_neg notParent]
      · next waits => rw [if_neg waits]

end Window

/-- The current process is inside a window; if it were in user mode, all would be calm. -/
def Inside (f : Fine) : Prop := ∃ s i, s.current = some (.slot i) ∧ Calm ⟨s, Function.update f.pc (.slot i) .user⟩ ∧
  Window s (.slot i) (f.pc (.slot i)) f.sched

theorem Sched.modify_modify (s : Sched) (p : Ref) (f g : Pcb → Pcb) :
    (s.modify p f).modify p g = s.modify p fun pcb => g (f pcb) := by
  simp only [modify, update_self, update_idem]

namespace Calm

variable {pc : Ref → Pc}

theorem pid_ne_zero (calm : Calm ⟨s, pc⟩) (child : Child s p pid c) : pid ≠ 0 := by
  obtain ⟨xs, ws, ok⟩ := calm.ok
  rw [← child.pid]
  exact (ok.legal (.slot c)).pid nofun child.used

/-- The current process waits for a child that has not exited, and the processor is given away. -/
theorem waitYield (calm : Calm ⟨s, update pc (.slot i) .user⟩)
    (is : s.current = some (.slot i)) (child : Child s (.slot i) pid c) (alive : (s.procs (.slot c)).state ≠ .zombie) :
    Calm ⟨(s.modify (.slot i) fun pcb => { pcb with state := .blocked, waitForPid := pid }).schedulerYield,
      update pc (.slot i) (.wokenFind pid)⟩ := by
  have running := calm.running is
  obtain ⟨xs, ws, ok⟩ := calm.ok
  obtain ⟨core, _⟩ := ok.blocks is (calm.pid_ne_zero child)
  have stays : Stays s (s.modify (.slot i) fun pcb => { pcb with state := .blocked, waitForPid := pid }) :=
    .modify (.modify rfl rfl (by rw [running]; nofun) nofun) rfl (by rw [running]; nofun) nofun
  have procs := s.procs_modify (.slot i) (f := fun pcb => { pcb with state := .blocked, waitForPid := pid })
  generalize (s.modify (.slot i) fun pcb => { pcb with state := .blocked, waitForPid := pid }) = b at core stays procs ⊢
  obtain ⟨⟨ys, ok⟩, kept⟩ := core.yield (stays.active calm.active)
  have eased := Eased.yield b
  have both := stays.trans kept.toStays
  have live : Live s (.slot i) := ⟨i, rfl, by rw [Used, running]; nofun, by rw [running]; nofun⟩
  refine calm.move (p := .slot i) (fun p other => ?_) both.toSameProcs ⟨ys, ws, ok⟩ (both.active calm.active) ?_
    (fun p waiting => ?_) (fun p blocked => ?_) fun p => ?_
  · rw [update_of_ne other, update_of_ne other]
  · rw [update_self]
    rfl
  · have waitFor := kept.waitFor p waiting
    obtain ⟨c', child', alive'⟩ : ∃ c', Child s p (b.procs p).waitForPid c' ∧ (s.procs (.slot c')).state ≠ .zombie := by
      rw [waitFor, procs] at waiting
      rw [procs]
      split
      · next here =>
        rw [here]
        exact ⟨c, child, alive⟩
      · next other =>
        rw [if_neg other] at waiting
        exact calm.waits p waiting
    rw [waitFor]
    exact ⟨c', child', fun dead => alive' ((both.zombie _).mp dead)⟩
  · have same := eased p blocked
    split
    · next here =>
      rw [here, procs, if_pos rfl] at same
      rw [update_self, same]
    · next other => rw [same, procs, if_neg other]
  · split
    · rw [update_self]
      exact ⟨live.stays both, c, child.same both.toSameProcs⟩
    · exact fun known => known.stays both

/-- Who waits for the process that exits is found by it and does not wait any more. -/
theorem parentWoken {d : Sched} (calm : Calm ⟨s, pc⟩) (same : SameProcs s d) (sameProc : d.procs p = s.procs p)
    (child : Child s p (s.procs p).waitForPid i) :
    ((d.wakeParent (d.procs (.slot i)).pid (d.processGet (d.procs (.slot i)).parentPid)).procs p).waitForPid = 0 := by
  obtain ⟨xs, ws, ok⟩ := calm.ok
  have blocked := (ok.legal p).waitFor (calm.pid_ne_zero child)
  cases p with
  | idle => rcases (ok.legal .idle).idle rfl with is | is <;> exact absurd (is.symm.trans blocked) (by simp)
  | slot k =>
    have used : s.Used k := by
      rw [Used]
      exact blocked ▸ (by simp)
    have real : (d.procs (.slot k)).pid ≠ 0 := by
      rw [sameProc]
      exact (ok.legal (.slot k)).pid (by simp) used
    have found : d.processGet (d.procs (.slot i)).parentPid = some (.slot k) := by
      rw [same.parentPid, child.own, ← sameProc]
      exact processGet_pid (same.distinct calm.distinct) (fun gone => used ((same.unused _).mp gone)) real
    have waits : (d.procs (.slot k)).state = .blocked ∧ (d.procs (.slot k)).waitForPid = (d.procs (.slot i)).pid := by
      rw [sameProc, same.pid]
      exact ⟨blocked, child.pid.symm⟩
    rw [found]
    simp only [Sched.wakeParent, if_pos waits]
    rw [procs_schedulerReady, if_pos rfl, procs_modify, if_pos rfl]

/-- The current process has exited and woken its parent, and the processor is given away. -/
theorem exitYield (calm : Calm ⟨s, update pc (.slot i) .user⟩) (is : s.current = some (.slot i)) (code : Int32) :
    Calm ⟨((s.dying (.slot i) code).wakeParent ((s.dying (.slot i) code).procs (.slot i)).pid
        ((s.dying (.slot i) code).processGet ((s.dying (.slot i) code).procs (.slot i)).parentPid)).schedulerYield,
      update pc (.slot i) .exitPanic⟩ := by
  have running := calm.running is
  have used : s.Used i := by
    rw [Used, running]
    simp
  obtain ⟨xs, ws, okBefore⟩ := calm.ok
  obtain ⟨core, _⟩ := okBefore.dying is code
  have procs (p : Ref) := s.procs_dying (.slot i) p code
  have dead : SameProcs s (s.dying (.slot i) code) := .modify rfl rfl (by rw [running]; simp) (by simp)
  have waitForDying (p : Ref) : ((s.dying (.slot i) code).procs p).waitForPid = (s.procs p).waitForPid := by
    rw [procs]
    split
    · next here => rw [here]
    · rfl
  have pids := dead.pid (.slot i)
  have parents := dead.parentPid (.slot i)
  have active : (s.dying (.slot i) code).active = true := calm.active
  generalize s.dying (.slot i) code = d at core procs dead waitForDying pids parents active ⊢
  have real : (d.procs (.slot i)).pid ≠ 0 := by
    rw [pids]
    exact (okBefore.legal (.slot i)).pid (by simp) used
  obtain ⟨⟨ys, woken⟩, keptWake, _⟩ := core.wakeParent real (d.processGet (d.procs (.slot i)).parentPid)
  obtain ⟨⟨zs, left⟩, keptYield⟩ := woken.yield (keptWake.active active)
  have kept := keptWake.trans keptYield
  have eased := (Eased.wakeParent d (d.procs (.slot i)).pid (d.processGet (d.procs (.slot i)).parentPid)).trans (.yield _)
  have same := dead.trans kept.toSameProcs
  have zombie : (d.procs (.slot i)).state = .zombie := by rw [procs, if_pos rfl]
  have woke {p : Ref} (other : p ≠ .slot i) := calm.parentWoken dead (p := p) (i := i) (by rw [procs, if_neg other])
  refine calm.move (p := .slot i) (fun p other => ?_) same ⟨zs, ws, left⟩ (kept.active active) ?_ (fun p waiting => ?_)
    (fun p blocked => ?_) fun p => ?_
  · rw [update_of_ne other, update_of_ne other]
  · rw [update_self]
    rfl
  · have waitFor := kept.waitFor p waiting
    have before := waitFor.trans (waitForDying p)
    obtain ⟨c, child, alive⟩ := calm.waits p (before ▸ waiting)
    refine ⟨c, before ▸ child, fun gone => ?_⟩
    have gone := (kept.zombie (.slot c)).mp gone
    rw [procs] at gone
    split at gone
    · next here =>
      have isChild := Ref.slot.inj here
      rw [isChild] at child
      have other : p ≠ .slot i := by
        rintro rfl
        exact absurd (running.symm.trans ((okBefore.legal _).waitFor (before ▸ waiting))) (by simp)
      have still := keptYield.waitFor p waiting
      rw [woke other child] at still
      exact waiting still
    · exact alive gone
  · have sameProc := eased p blocked
    have blocked : (d.procs p).state = .blocked := sameProc ▸ blocked
    split
    · next here =>
      rw [here, zombie] at blocked
      cases blocked
    · next other => rw [sameProc, procs, if_neg other]
  · split
    · rw [update_self]
      exact .inl ((kept.zombie _).mpr zombie)
    · next other =>
      refine Fits.same same (fun live => ?_) fun p' gone => (kept.zombie p').mpr ?_
      · obtain ⟨j, rfl, usedJ, alive⟩ := live
        refine ⟨j, rfl, fun gone => usedJ ((same.unused _).mp gone), fun gone => alive ?_⟩
        have gone := (kept.zombie _).mp gone
        rwa [procs, if_neg other] at gone
      · rw [procs]
        split
        · rfl
        · exact gone

end Calm

theorem Inside.run {f : Fine} (inside : Inside f) (wakes : List Nat) {p : Ref} (is : f.sched.current = some p) :
    Calm (f.advance wakes p) ∨ Inside (f.advance wakes p) := by
  obtain ⟨s, i, isCurrent, calm, window⟩ := inside
  obtain ⟨xs, ws, ok⟩ := calm.ok
  obtain ⟨t, pc⟩ := f
  obtain rfl : p = .slot i := Option.some.inj (is.symm.trans (window.current.trans isCurrent))
  have stay {next : Pc} {t' : Sched} (window : Window s (.slot i) next t') :
      Inside ⟨t', update pc (.slot i) next⟩ := by
    refine ⟨s, i, isCurrent, ?_, ?_⟩
    · rw [update_idem]
      exact calm
    · show Window s (.slot i) (update pc (.slot i) next (.slot i)) t'
      rw [update_self]
      exact window
  rw [Fine.advance]
  dsimp only at window ⊢
  generalize pc (.slot i) = at_ at window ⊢
  cases window with
  | waitState child alive => exact .inr (stay (.waitPid child alive))
  | waitPid child alive =>
    simp only [advance, setState, modify_modify]
    exact .inr (stay (.waitRemove child alive))
  | waitRemove child alive =>
    obtain ⟨core, off⟩ := ok.blocks isCurrent (calm.pid_ne_zero child)
    simp only [advance, core.remove off]
    exact .inr (stay (.waitYield child alive))
  | waitYield child alive => exact .inl (calm.waitYield isCurrent child alive)
  | exitCode code =>
    simp only [advance, setState, modify_modify]
    exact .inr (stay (.exitRemove code))
  | exitRemove code =>
    obtain ⟨core, off⟩ := ok.dying isCurrent code
    simp only [advance, core.remove off]
    exact .inr (stay (.exitFind code))
  | exitFind code => exact .inr (stay (.exitTest code))
  | exitTest code =>
    have yields := Window.exitYield (s := s) (p := .slot i) code
    cases found : (s.dying (.slot i) code).processGet ((s.dying (.slot i) code).procs (.slot i)).parentPid with
    | none =>
      rw [found] at yields
      exact .inr (stay yields)
    | some parent =>
      simp only [advance]
      split
      · next waits => exact .inr (stay (.exitWake code found waits))
      · next waits =>
        rw [found] at yields
        simp only [Sched.wakeParent, if_neg waits] at yields
        exact .inr (stay yields)
  | exitWake code found waits => exact .inr (stay (.exitClear code found waits))
  | exitClear code found waits =>
    simp only [advance, setState, modify_modify]
    exact .inr (stay (.exitReady code found waits))
  | exitReady code found waits =>
    have yields := Window.exitYield (s := s) (p := .slot i) code
    rw [found] at yields
    simp only [Sched.wakeParent, if_pos waits] at yields
    exact .inr (stay yields)
  | exitYield code => exact .inl (calm.exitYield isCurrent code)

theorem Calm.run {f : Fine} (calm : Calm f) (wakes : List Nat) (is : f.sched.current = some (.slot i)) :
    Calm (f.advance wakes (.slot i)) ∨ Inside (f.advance wakes (.slot i)) := by
  obtain ⟨s, pc⟩ := f
  have running := calm.running is
  have fits : Fits s (.slot i) (pc (.slot i)) := calm.fits (.slot i)
  have outside : (pc (.slot i)).critical = false := calm.outside (.slot i)
  have enter {next : Pc} {t : Sched} (window : Window s (.slot i) next t) : Inside ⟨t, update pc (.slot i) next⟩ := by
    refine ⟨s, i, is, ?_, ?_⟩
    · rw [update_idem]
      exact calm.goto is rfl trivial
    · show Window s (.slot i) (update pc (.slot i) next (.slot i)) t
      rw [update_self]
      exact window
  have back : Calm ⟨s, update pc (.slot i) .user⟩ := calm.goto is rfl trivial
  rw [Fine.advance]
  dsimp only
  generalize pc (.slot i) = at_ at fits outside ⊢
  cases at_ with
  | user => exact .inl back
  | waitFind pid =>
    rw [advance]
    split
    · exact .inl back
    · next child found =>
      obtain ⟨_, ⟨c, rfl⟩, used, isPid⟩ := processGet_some found
      exact .inl (calm.goto is rfl ⟨fits, c, rfl, fun own => ⟨used, isPid, own⟩⟩)
  | waitOwn pid child =>
    obtain ⟨live, c, rfl, known⟩ := fits
    rw [advance]
    split
    · exact .inl back
    · next own => exact .inl (calm.goto is rfl ⟨live, c, rfl, known (not_not.mp own)⟩)
  | waitDead pid child =>
    obtain ⟨live, c, rfl, known⟩ := fits
    rw [advance]
    split
    · next dead => exact .inl (calm.goto is rfl ⟨live, c, pid, rfl, known, dead⟩)
    · next alive => exact .inr (enter (.waitState known alive))
  | waitReap child =>
    obtain ⟨live, c, pid, rfl, known, dead⟩ := fits
    exact .inl (calm.reap is live known dead wakes)
  | wokenFind pid =>
    obtain ⟨live, c, known⟩ := fits
    rw [advance]
    split
    · exact .inl back
    · next child found =>
      obtain ⟨_, ⟨c', rfl⟩, used, isPid⟩ := processGet_some found
      obtain rfl := calm.distinct c' c used known.used (isPid.trans known.pid.symm)
      exact .inl (calm.goto is rfl ⟨live, c', pid, rfl, known⟩)
  | wokenDead child =>
    obtain ⟨live, c, pid, rfl, known⟩ := fits
    rw [advance]
    split
    · next dead => exact .inl (calm.goto is rfl ⟨live, c, pid, rfl, known, dead⟩)
    · exact .inl back
  | exitState code => exact .inr (enter (.exitCode code))
  | exitPanic => rcases fits with dead | gone <;> simp_all
  | _ => cases outside

/-! ## Runs -/

/-- Nobody is inside a call or waits for a child. -/
structure Fresh (f : Fine) : Prop where
  ok : ∃ xs ws, Ok f.sched xs ws
  active : f.sched.active = true
  distinct : ∀ i j, f.sched.Used i → f.sched.Used j →
    (f.sched.procs (.slot i)).pid = (f.sched.procs (.slot j)).pid → i = j
  user : ∀ p, f.pc p = .user
  nobody : ∀ p, (f.sched.procs p).waitForPid = 0

def Fine.Careful (f : Fine) (op : FineOp) : Prop := f.Possible op ∧ f.Masked op

theorem Fresh.calm {f : Fine} (fresh : Fresh f) : Calm f where
  ok := fresh.ok
  active := fresh.active
  distinct := fresh.distinct
  outside p := by rw [fresh.user p]; rfl
  waits p waiting := absurd (fresh.nobody p) waiting
  blocked p _ := .inl (fresh.user p)
  fits p := by rw [fresh.user p]; trivial

theorem Calm.begin {f : Fine} (calm : Calm f) (is : f.sched.current = some p) (outside : next.critical = false)
    (fits : Fits f.sched p next) :
    Calm { f with pc := fun p => if f.sched.current = some p then next else f.pc p } := by
  have pcs : (fun p => if f.sched.current = some p then next else f.pc p) = update f.pc p next := by
    funext p'
    rw [update_apply, is]
    simp only [Option.some.injEq, eq_comm]
  rw [pcs]
  exact calm.goto is outside fits

theorem Calm.step {f : Fine} (calm : Calm f) (careful : f.Careful op) :
    Calm (f.step op).2 ∨ Inside (f.step op).2 := by
  obtain ⟨possible, _⟩ := careful
  cases op with
  | waitpid pid =>
    obtain ⟨i, isCaller, _⟩ := possible
    have is := current_of_caller isCaller
    have running := calm.running is
    exact .inl (calm.begin is rfl ⟨i, rfl, by rw [Used, running]; simp, by rw [running]; simp⟩)
  | exit code =>
    obtain ⟨i, isCaller, _, child⟩ := possible
    exact .inl (calm.begin (current_of_caller isCaller) rfl child)
  | run wakes =>
    obtain ⟨i, isCaller⟩ := Option.ne_none_iff_exists'.mp possible
    have is := current_of_caller isCaller
    simp only [Fine.step, is]
    exact calm.run wakes is
  | tick =>
    obtain ⟨xs, ws, ok⟩ := calm.ok
    obtain ⟨⟨ys, ok'⟩, kept⟩ := ok.tick
    exact .inl (calm.kept kept (.tick f.sched) ⟨ys, ws, ok'⟩)

theorem Inside.step {f : Fine} (inside : Inside f) (careful : f.Careful op) :
    Calm (f.step op).2 ∨ Inside (f.step op).2 := by
  obtain ⟨possible, masked⟩ := careful
  obtain ⟨s, i, isCurrent, _, window⟩ := id inside
  have is := window.current.trans isCurrent
  have critical := window.critical
  -- the process is in the kernel, and the timer is kept out
  have notUser {j : Fin processMax} (isCaller : j ∈ f.sched.caller) (isUser : f.pc (.slot j) = .user) : False := by
    obtain rfl : i = j := Ref.slot.inj (Option.some.inj (is.symm.trans (current_of_caller isCaller)))
    rw [isUser] at critical
    cases critical
  cases op with
  | waitpid pid =>
    obtain ⟨j, isCaller, isUser⟩ := possible
    exact (notUser isCaller isUser).elim
  | exit code =>
    obtain ⟨j, isCaller, isUser, _⟩ := possible
    exact (notUser isCaller isUser).elim
  | run wakes =>
    simp only [Fine.step, is]
    exact inside.run wakes is
  | tick => exact absurd (critical.symm.trans (masked _ is)) nofun

theorem Pc.wokenFind_of_waitsFor {pc : Pc} (outside : pc.critical = false) (waits : pc.waitsFor = some pid) :
    pc = .wokenFind pid := by
  cases pc with
  | wokenFind pid' =>
    cases waits
    rfl
  | waitPid | waitRemove | waitYield => cases outside
  | _ => cases waits

theorem Inside.not_lost {f : Fine} {c : Ref} (inside : Inside f) : ¬ f.Lost p c := by
  rintro ⟨dead, offCpu, _, _, blocked, _, waits⟩
  obtain ⟨s, i, isCurrent, calm, window⟩ := inside
  have other : c ≠ .slot i := fun here => offCpu (here ▸ window.current.trans isCurrent)
  have sameChild := window.same other (by rw [dead]; simp)
  have dead' : (s.procs c).state = .zombie := sameChild ▸ dead
  by_cases here : p = .slot i
  · -- the process of the window waits for a child that has not exited
    subst here
    obtain ⟨xs, ws, ok⟩ := calm.ok
    obtain ⟨k, child, alive⟩ := window.child waits
    cases c with
    | idle => rcases (ok.legal .idle).idle rfl with is | is <;> exact absurd (is.symm.trans dead') (by simp)
    | slot c =>
      obtain rfl := calm.distinct k c child.used (by rw [Used]; exact dead' ▸ (by simp)) (child.pid.trans (by rw [sameChild]))
      exact alive dead'
  · have sameParent := window.same here (by rw [blocked]; simp)
    have outside : (f.pc p).critical = false := by
      have known := calm.outside p
      dsimp only at known
      rwa [update_of_ne here] at known
    refine calm.not_lost (p := p) c dead' (sameParent ▸ blocked) ?_
    show update f.pc (.slot i) .user p = .wokenFind (s.procs c).pid
    rw [update_of_ne here, Pc.wokenFind_of_waitsFor outside waits, sameChild]

theorem Calm.never_lost {f : Fine} {c : Ref} (calm : Calm f) : ¬ f.Lost p c := by
  rintro ⟨dead, _, _, _, blocked, _, waits⟩
  exact calm.not_lost c dead blocked (Pc.wokenFind_of_waitsFor (calm.outside p) waits)

/-- If the timer is kept out of the windows, exit and wait do not miss each other. -/
theorem exit_meets_wait {f₀ f : Fine} {trace : List (FineOp × Unit)} (fresh : Fresh f₀)
    (run : Run Fine.step Fine.Careful f₀ trace f) (p c : Ref) : ¬ f.Lost p c := by
  have known : Calm f ∨ Inside f := by
    refine run.invariant (I := fun f => Calm f ∨ Inside f) (fun known careful stepped => ?_) (.inl fresh.calm)
    have next := known.elim (fun calm => calm.step careful) fun inside => inside.step careful
    rwa [stepped] at next
  exact known.elim Calm.never_lost Inside.not_lost

instance Fine.decidablePossible (f : Fine) (op : FineOp) : Decidable (f.Possible op) := by
  cases op <;> dsimp only [Fine.Possible] <;> infer_instance

instance Fine.decidableMasked (f : Fine) (op : FineOp) : Decidable (f.Masked op) := by
  cases op <;> dsimp only [Fine.Masked] <;> infer_instance

instance Fine.decidableCareful (f : Fine) (op : FineOp) : Decidable (f.Careful op) := inferInstanceAs (Decidable (_ ∧ _))

/-- A process and its child, both in user mode. -/
def twoProcesses : Fine := ⟨firstChild, fun _ => .user⟩

/-- The parent waits; the child begins to exit. -/
def waitThenExit : List FineOp := .waitpid 2 :: List.replicate 7 (.run []) ++ [.tick, .exit 5, .run []]

theorem Fresh.twoProcesses : Fresh twoProcesses := by
  have started := Tree.exec .initial .initial (by decide) (.inl rfl) .loaded
  obtain ⟨tree, xs, ws, ok⟩ := started
  obtain ⟨tree, ok⟩ := tree.exec ok (by decide +kernel) (.inr ⟨⟨0, by decide⟩, by decide +kernel⟩) .loaded
  exact ⟨ok, by decide +kernel, tree.distinct, fun _ => rfl, by decide +kernel⟩

theorem exit_meets_wait_sample :
    ¬ (execute Fine.step twoProcesses (waitThenExit ++ List.replicate 9 (.run []))).2.Lost (.slot ⟨0, by decide⟩) (.slot ⟨1, by decide⟩) := by
  have careful : AllAllowed Fine.step Fine.Careful twoProcesses (waitThenExit ++ List.replicate 9 (.run [])) := by decide +kernel
  exact exit_meets_wait .twoProcesses (Run.of_execute _ careful) _ _

/-- The timer interrupts the child twice after it marked itself as a zombie. -/
def missed : Fine := (execute Fine.step twoProcesses (waitThenExit ++ [.tick, .tick])).2

/-- The processor idles with nobody to run, and the parent waits for the zombie. -/
theorem exit_misses_parent : ∃ trace, Run Fine.step Fine.Possible twoProcesses trace missed ∧
    missed.Lost (.slot ⟨0, by decide⟩) (.slot ⟨1, by decide⟩) ∧ missed.sched.current = some .idle ∧ missed.sched.ready.head = none := by
  have possible : AllAllowed Fine.step Fine.Possible twoProcesses (waitThenExit ++ [.tick, .tick]) := by decide +kernel
  exact ⟨_, Run.of_execute _ possible, by decide +kernel, by decide +kernel, by decide +kernel⟩

end GinnOS.Scheduler
