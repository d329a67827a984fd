import GinnOS.Kernel.PipeFifo

/-! # Who waits on a pipe

Two properties of the wait queues, both for runs in which a pipe call is interrupted
only inside `wait_queue_block`.

* Who waits has a peer: an end on which somebody waits has an open descriptor at the
  other end (`Peered`).  A zombie keeps its descriptors until it is reaped, so such a
  peer may be dead; if processes give up their pipe ends before they exit, it is alive.
* Who waits has to wait: a reader waits only at an empty ring and a writer only at a full
  one (`Served`).  A reader or writer wakes one process of the other end and none of its
  own, so this needs that no two processes wait on one queue.
-/

namespace GinnOS.Kernel

open Lib
open Kernel.System hiding closePipeEnd_fds modifyProc_procs_of_ne modifyProc_procs_self readStep setFd

variable {call : Call} {s s' : System} {b : PipeId} {d : PipeDir} {p : Slot} {count written : Nat}
  {pc : ReadPc} {rest : List UInt8} {op : Op} {ans : Answer} {pb : PipeBuf}

/-! ## Peers -/

/-- The end on whose queue a call is about to block. -/
def Call.blocksOn : Call → Option (PipeId × PipeDir)
  | .read b _ .block => some (b, .read)
  | .write b _ _ .block | .write b _ _ .full => some (b, .write)
  | _ => none

theorem Call.midway_of_blocksOn {place : PipeId × PipeDir} (here : call.blocksOn = some place) :
    call.midway = true := by
  cases call with
  | read b count pc => cases pc <;> first | rfl | cases here
  | write b rest written pc => cases pc <;> first | rfl | cases here
  | user | unstarted | waitpid _ => cases here

/-- Who waits, or is about to, has a peer at the other end. -/
structure Peered (s : System) : Prop where
  waiting (b : PipeId) (d : PipeDir) : (s.pool b).waiting d ≠ [] → 0 < (s.pool b).refs d.other
  blocking {p : Slot} {b : PipeId} {d : PipeDir} : (s.procs p).call.blocksOn = some (b, d) →
    0 < (s.pool b).refs d.other

theorem Sound.refs_pos (sound : Sound s)
    (waits : (s.pool b).waiting d ≠ []) : 0 < (s.pool b).refs d := by
  obtain ⟨p, member⟩ := List.exists_mem_of_ne_nil _ waits
  obtain ⟨fd, held⟩ := (sound.orderly.procs p).holds (sound.orderly.queued member).2
  have positive := tally_pos (t := s.table) (p, fd) held
  rw [sound.counted.refs]
  omega

theorem Sound.waiting_nil (sound : Sound s) (gone : (s.pool b).refCount = 0)
    (d : PipeDir) : (s.pool b).waiting d = [] := by
  by_contra waits
  have positive := sound.refs_pos waits
  have zero := sound.counted.refs_eq_zero gone.le (d := d)
  omega

/-- The call of one process changes while no other process is in the middle of one. -/
theorem Peered.next
    (alone : ∀ q, q ≠ p → (s.procs q).call.midway = false)
    (waiting : ∀ b d, (s.pool b).waiting d ≠ [] → 0 < (s.pool b).refs d.other)
    (blocking : ∀ b d, call.blocksOn = some (b, d) → 0 < (s.pool b).refs d.other) :
    Peered (s.setCall p call) where
  waiting := waiting
  blocking {q b d} here := by
    rcases eq_or_ne q p with rfl | different
    · exact blocking b d (by simpa [setCall] using here)
    · rw [setCall, System.modifyProc_procs_of_ne _ different] at here
      have midway := Call.midway_of_blocksOn here
      rw [alone q different] at midway
      cases midway

theorem Peered.tidies (peered : Peered s) (chain : Tidies s s') (sound : Sound s)
    (quiet : Quiet s) : Peered s' := by
  have result := chain.invariant (P := fun pb => ∀ d, pb.waiting d ≠ [] → 0 < pb.refs d.other)
    (fun pb fresh d waits => absurd (fresh.waiting d) waits)
    (fun pb pb' kept before d waits => by
      refine kept.peer d waits (before d ?_)
      rcases kept.waiting d with same | none
      · rwa [← same]
      · exact absurd none waits) sound quiet fun b _ => peered.waiting b
  refine ⟨fun b d waits => ?_, fun {p b d} here => ?_⟩
  · by_cases inUse : (s'.pool b).refCount = 0
    · exact absurd ((Tidies.sound chain sound).waiting_nil inUse d) waits
    · exact result.2 b inUse d waits
  · have midway := Call.midway_of_blocksOn here
    rw [result.1 p] at midway
    cases midway

section Steps

variable {s : System} {p : Slot} {b : PipeId}

theorem Peered.wake (peered : Peered s) (n : Nat) (c : PipeId) (e : PipeDir)
    (waits : ((s.wake b d n).pool c).waiting e ≠ []) : 0 < ((s.wake b d n).pool c).refs e.other := by
  rw [wake_refs]
  refine peered.waiting c e fun none => waits ?_
  rw [wake_waiting]
  split
  · next here =>
    obtain ⟨rfl, rfl⟩ := here
    rw [none, List.drop_nil]
  · exact none

theorem Peered.block (peered : Peered s) (peer : 0 < (s.pool b).refs d.other) (c : PipeId)
    (e : PipeDir) (waits : ((s.waitQueueBlock b d p).pool c).waiting e ≠ []) :
    0 < ((s.waitQueueBlock b d p).pool c).refs e.other := by
  rw [waitQueueBlock_refs]
  rw [waitQueueBlock_waiting] at waits
  split at waits
  · next here =>
    obtain ⟨rfl, rfl⟩ := here
    exact peer
  · exact peered.waiting c e (by simpa using waits)

theorem Peered.bytes (peered : Peered s) {f : PipeBuf → PipeBuf} (refs : (f (s.pool b)).refs = (s.pool b).refs)
    (same : (f (s.pool b)).waiting = (s.pool b).waiting) (c : PipeId) (d : PipeDir)
    (waits : ((s.modifyPipe b f).pool c).waiting d ≠ []) : 0 < ((s.modifyPipe b f).pool c).refs d.other := by
  rcases eq_or_ne c b with rfl | different
  · rw [modifyPipe_pool_self, same] at waits
    rw [modifyPipe_pool_self, refs]
    exact peered.waiting c d waits
  · rw [modifyPipe_pool_of_ne f different] at waits ⊢
    exact peered.waiting c d waits

theorem Peered.turn {t : System} {next : Call} (peered : Peered s)
    (alone : ∀ q, q ≠ p → (s.procs q).call.midway = false)
    (calling : (s.procs p).call = call) (turn : Turn s p b call t next) : Peered (t.setCall p next) := by
  have blocked (d : PipeDir) : ∀ q, q ≠ p → ((s.waitQueueBlock b d p).procs q).call.midway = false :=
    fun q different => by rw [waitQueueBlock_call, alone q different]
  have woken (d : PipeDir) : ∀ q, q ≠ p → ((s.wake b d 1).procs q).call.midway = false :=
    fun q different => by rw [wake_call, alone q different]
  have peer {d : PipeDir} (blocks : call.blocksOn = some (b, d)) : 0 < (s.pool b).refs d.other :=
    peered.blocking (calling ▸ blocks)
  cases turn with
  | eof | filled | stored | noReader => exact .next alone peered.waiting (by rintro _ _ ⟨⟩)
  | empty _ _ open_ | full open_ _ =>
    refine .next alone peered.waiting ?_
    rintro _ _ ⟨⟩
    exact open_
  | take | copied | put => exact .next alone (peered.bytes rfl rfl) (by rintro _ _ ⟨⟩)
  | readerSleeps => exact .next (blocked .read) (peered.block (d := .read) (peer rfl)) (by rintro _ _ ⟨⟩)
  | writerSleeps => exact .next (blocked .write) (peered.block (d := .write) (peer rfl)) (by rintro _ _ ⟨⟩)
  | returns | written => exact .next (woken _) (peered.wake 1) (by rintro _ _ ⟨⟩)
  | wakesReader =>
    refine .next (woken .read) (peered.wake 1) ?_
    rintro _ _ ⟨⟩
    rw [wake_refs]
    exact peer rfl

end Steps

theorem Peered.step (peered : Peered s) (sound : Sound s)
    (atomic : Atomic s op) (stepped : Stepped s op ans s') : Peered s' := by
  cases stepped with
  | still => exact peered
  | tidy idle chain => exact peered.tidies chain sound (atomic.quiet idle)
  | @exit p code _ ready user _ chain =>
    have quiet : Quiet s := atomic.quiet (by rintro _ ⟨⟩; rw [user]; rfl)
    have left : Peered (s.leave p code) :=
      ⟨peered.waiting, fun here => peered.blocking (leave_call (s := s) code ▸ here)⟩
    exact left.tidies chain (sound.leave ready user code) fun q => by rw [leave_call, quiet q]
  | startRead _ _ _ _ => exact .next (atomic.alone rfl) peered.waiting nofun
  | startWrite _ _ _ _ => exact .next (atomic.alone rfl) peered.waiting nofun
  | read _ calling => exact System.readStep_turn (peered.turn (atomic.alone rfl) calling)
  | write _ calling => exact System.writeStep_turn (peered.turn (atomic.alone rfl) calling)

theorem boot_peered : Peered boot := ⟨fun _ _ waits => absurd rfl waits, nofun⟩

/-! ## Zombies -/

def FdEntry.isPipe : FdEntry → Bool
  | .pipe _ _ => true
  | _ => false

def Op.exits : Op → Option Slot
  | .call p (.exit _) => some p
  | _ => none

def NoneHeldByZombies (s : System) : Prop :=
  ∀ p, (s.procs p).state = .zombie → ∀ fd b d, (s.procs p).fds fd ≠ .pipe b d

theorem Tidy.zombie (tidy : Tidy s s') {q : Slot} (zombie : (s'.procs q).state = .zombie) :
    (s.procs q).state = .zombie ∧
      ∀ fd b d, (s'.procs q).fds fd = .pipe b d → (s.procs q).fds fd = .pipe b d := by
  have setFd {s : System} {p : Slot} {fd : Fd} {e : FdEntry} :
      ((s.setFd p fd e).procs q).state = (s.procs q).state :=
    modifyProc_keeps Process.state rfl
  have others {s : System} {p : Slot} {fd : Fd} {e : FdEntry} (different : q ≠ p) :
      ((s.setFd p fd e).procs q).fds = (s.procs q).fds := by
    rw [System.setFd, System.modifyProc_procs_of_ne _ different]
  cases tidy with
  | @close p fd b d idle named =>
    rw [setFd] at zombie
    refine ⟨?_, fun other c e held => ?_⟩
    · have dropped (zombie : ((s.dropRef b d).procs q).state = .zombie) : (s.procs q).state = .zombie := by
        simp only [dropRef, modifyPipe_procs] at zombie
        split at zombie
        · exact wake_zombie (s := s.modifyPipe b _) _ zombie
        · exact zombie
      simp only [closePipeEnd] at zombie
      split at zombie
      · exact dropped zombie
      · exact dropped zombie
    · rcases eq_or_ne q p with rfl | different
      · simp only [System.setFd, System.modifyProc_procs_self, System.closePipeEnd_fds] at held
        rcases eq_or_ne other fd with rfl | otherFd
        · simp at held
        · rwa [Function.update_of_ne otherFd] at held
      · rw [others different, System.closePipeEnd_fds] at held
        exact held
  | @copy p fd b d idle ready before source =>
    have was : ((s.setFd p fd (.pipe b d)).procs q).state = .zombie := zombie
    rw [setFd] at was
    have different : q ≠ p := by
      rintro rfl
      rw [ready] at was
      cases was
    refine ⟨was, fun other c e held => ?_⟩
    have held : ((s.setFd p fd (.pipe b d)).procs q).fds other = .pipe c e := held
    rwa [others different] at held
  | @make p b readFd writeFd idle ready unnamed readFree writeFree distinct =>
    rw [setFd, setFd] at zombie
    have was : (s.procs q).state = .zombie := zombie
    have different : q ≠ p := by
      rintro rfl
      rw [ready] at was
      cases was
    refine ⟨was, fun other c e held => ?_⟩
    rwa [others different, others different] at held
  | undo unnamed => exact ⟨zombie, fun _ _ _ held => held⟩
  | @create p unused =>
    rcases eq_or_ne q p with rfl | different
    · simp [processInit] at zombie
    · rw [processInit, System.modifyProc_procs_of_ne _ different] at zombie ⊢
      exact ⟨zombie, fun _ _ _ held => held⟩
  | @proc p f idle idleAfter same old ok =>
    rcases eq_or_ne q p with rfl | different
    · rw [System.modifyProc_procs_self] at zombie ⊢
      exact ⟨old zombie, fun fd b d held => (same fd b d).mpr held⟩
    · rw [System.modifyProc_procs_of_ne _ different] at zombie ⊢
      exact ⟨zombie, fun _ _ _ held => held⟩

theorem NoneHeldByZombies.tidies (none : NoneHeldByZombies s) (chain : Tidies s s') :
    NoneHeldByZombies s' := by
  induction chain with
  | refl => exact none
  | tail _ tidy ih =>
    intro p zombie fd b d held
    obtain ⟨before, sameEnds⟩ := tidy.zombie zombie
    exact ih p before fd b d (sameEnds fd b d held)

theorem NoneHeldByZombies.step (none : NoneHeldByZombies s)
    (gaveUp : ∀ p, op.exits = some p → (s.procs p).parentPid ≠ pidNone →
      ∀ fd, ((s.procs p).fds fd).isPipe = false)
    (stepped : Stepped s op ans s') : NoneHeldByZombies s' := by
  -- a zombie of `s'` that was one in `s`, with the same descriptors
  have same {s' : System} (before : ∀ q, (s'.procs q).state = .zombie →
      (s.procs q).state = .zombie ∧ (s'.procs q).fds = (s.procs q).fds) : NoneHeldByZombies s' := by
    intro q zombie fd b d
    obtain ⟨was, fds⟩ := before q zombie
    rw [fds]
    exact none q was fd b d
  have setCall {s' : System} (p : Slot) (call : Call) (kept : ∀ q, (s'.procs q).state = .zombie →
      (s.procs q).state = .zombie ∧ (s'.procs q).fds = (s.procs q).fds) :
      NoneHeldByZombies (s'.setCall p call) := by
    refine same fun q zombie => ?_
    rcases eq_or_ne q p with rfl | different
    · simp only [setCall, System.modifyProc_procs_self] at zombie ⊢
      exact kept q zombie
    · rw [setCall, System.modifyProc_procs_of_ne _ different] at zombie ⊢
      exact kept q zombie
  have unchanged : ∀ q, (s.procs q).state = .zombie →
      (s.procs q).state = .zombie ∧ (s.procs q).fds = (s.procs q).fds := fun _ zombie => ⟨zombie, rfl⟩
  have woken (b : PipeId) (d : PipeDir) (n : Nat) : ∀ q, ((s.wake b d n).procs q).state = .zombie →
      (s.procs q).state = .zombie ∧ ((s.wake b d n).procs q).fds = (s.procs q).fds :=
    fun q zombie => ⟨wake_zombie n zombie, wake_fds n⟩
  have blocked (b : PipeId) (d : PipeDir) (p : Slot) : ∀ q,
      ((s.waitQueueBlock b d p).procs q).state = .zombie →
      (s.procs q).state = .zombie ∧ ((s.waitQueueBlock b d p).procs q).fds = (s.procs q).fds := by
    intro q zombie
    rcases eq_or_ne q p with rfl | different
    · simp [waitQueueBlock] at zombie
    · simpa [waitQueueBlock, System.modifyProc_procs_of_ne _ different] using zombie
  have turned {p : Slot} {b : PipeId} {call next : Call} {t : System} (turn : Turn s p b call t next) :
      NoneHeldByZombies (t.setCall p next) := by
    cases turn with
    | readerSleeps | writerSleeps => exact setCall _ _ (blocked b _ p)
    | returns | wakesReader | written => exact setCall _ _ (woken b _ 1)
    | _ => exact setCall _ _ unchanged
  cases stepped with
  | still => exact none
  | tidy _ chain => exact none.tidies chain
  | @exit p code _ ready user child chain =>
    refine NoneHeldByZombies.tidies (fun q zombie fd b d => ?_) chain
    rcases eq_or_ne q p with rfl | different
    · simp only [leave, System.modifyProc_procs_self]
      intro held
      have noEnd := gaveUp q rfl child fd
      rw [held] at noEnd
      cases noEnd
    · rw [leave, System.modifyProc_procs_of_ne _ different] at zombie ⊢
      exact none q zombie fd b d
  | startRead _ _ _ _ => exact setCall _ _ unchanged
  | startWrite _ _ _ _ => exact setCall _ _ unchanged
  | read => exact System.readStep_turn turned
  | write => exact System.writeStep_turn turned

/-- Every descriptor of this end belongs to a zombie. -/
def DeadEnd (s : System) (b : PipeId) (d : PipeDir) : Prop :=
  ∀ q fd, (s.procs q).state ≠ .unused → (s.procs q).fds fd = .pipe b d → (s.procs q).state = .zombie
  deriving Decidable

/-- No other process is in the middle of a pipe call, and a process that becomes a zombie has
given up its pipe ends. -/
def LeavesNoEnds (s : System) (op : Op) : Prop :=
  Atomic s op ∧ ∀ p, op.exits = some p → (s.procs p).parentPid ≠ pidNone →
    ∀ fd, ((s.procs p).fds fd).isPipe = false
  deriving Decidable

/-- If exiting processes have given up their pipe ends, nobody is ever blocked on a pipe whose
other end is held by zombies only. -/
theorem no_waiting_for_zombies {s : System} {trace : List (Op × Answer)}
    (run : Run System.step LeavesNoEnds boot trace s) :
    (∀ b p, p ∈ (s.pool b).waiting .write → ¬ DeadEnd s b .read) ∧
    ∀ b p, p ∈ (s.pool b).waiting .read → (s.pool b).count = 0 → ¬ DeadEnd s b .write := by
  have known := run.invariant (I := fun s => Sound s ∧ Peered s ∧ NoneHeldByZombies s)
    (fun known allowed stepped =>
      have cases := step_cases known.1 stepped
      ⟨cases.sound known.1, known.2.1.step known.1 allowed.1 cases, known.2.2.step allowed.2 cases⟩)
    ⟨boot_sound, boot_peered, nofun⟩
  obtain ⟨sound, peered, none⟩ := known
  have alive {b : PipeId} {d : PipeDir} {p : Slot} (member : p ∈ (s.pool b).waiting d) :
      ¬ DeadEnd s b d.other := by
    intro dead
    have peer := peered.waiting b d (List.ne_nil_of_mem member)
    rw [sound.counted.refs] at peer
    obtain ⟨⟨q, fd⟩, held⟩ := tally_pos_iff.mp (by omega : 0 < tally s.table (.pipe b d.other))
    have used : (s.procs q).state ≠ .unused :=
      fun unused => (sound.orderly.procs q).unused unused fd b d.other held
    exact none q (dead q fd used held) fd b d.other held
  exact ⟨fun b p member => alive member, fun b p member _ => alive member⟩

/-- A child reads from an empty pipe; another child gives up its ends and exits. -/
def politeOps : List Op :=
  [.shell .loaded, .call 0 .pipe, .call 0 (.dup2 3 0), .call 0 (.exec .loaded), .call 0 (.exec .loaded),
    .call 1 (.read 0 1), .run 1, .run 1, .call 2 (.dup2 1 0), .call 2 (.exit 0)]

theorem no_waiting_for_zombies_sample :
    (1 : Slot) ∈ ((execute System.step boot politeOps).2.pool 0).waiting .read ∧
    ¬ DeadEnd (execute System.step boot politeOps).2 0 .write := by
  have allowed : AllAllowed step LeavesNoEnds boot politeOps := by decide +kernel
  have waits : (1 : Slot) ∈ ((execute step boot politeOps).2.pool 0).waiting .read := by
    decide +kernel
  exact ⟨waits, (no_waiting_for_zombies (.of_execute _ allowed)).2 0 1 waits (by decide +kernel)⟩

/-- A parent starts a reader and a writer on a pipe, closes its own ends and reaps nobody; the
writer exits and the reader reads. -/
def unreapedOps : List Op :=
  [.shell .loaded, .call 0 .pipe, .call 0 (.dup2 3 0), .call 0 (.exec .loaded),
    .call 0 (.dup2 2 0), .call 0 (.dup2 4 1), .call 0 (.exec .loaded), .call 0 (.dup2 2 1),
    .call 0 (.close 3), .call 0 (.close 4), .call 2 (.exit 0), .call 1 (.read 0 1), .run 1, .run 1]

/-- The reader sleeps on an empty pipe whose only writer is a zombie. -/
theorem reader_waits_for_zombie :
    AllAllowed System.step Atomic boot unreapedOps ∧
      (1 : Slot) ∈ ((execute System.step boot unreapedOps).2.pool 0).waiting .read ∧
      ((execute System.step boot unreapedOps).2.pool 0).count = 0 ∧
      DeadEnd (execute System.step boot unreapedOps).2 0 .write := by
  decide +kernel

/-! ## Waiters that have to wait -/

/-- A call that will wake a process of this queue before it returns or sleeps. -/
def Call.owes (b : PipeId) : PipeDir → Call → Bool
  | .read, .write c _ _ .test | .read, .write c _ _ .full | .read, .write c _ _ .wake => c = b
  | .write, .read c _ (.copy _ _) | .write, .read c _ (.wake _) => c = b
  | _, _ => false

theorem Call.owes_midway (owes : call.owes b d = true) :
    call.midway = true := by
  cases call with
  | read c count pc => cases pc <;> cases d <;> first | rfl | cases owes
  | write c rest written pc => cases pc <;> cases d <;> first | rfl | cases owes
  | user | unstarted | waitpid _ => cases d <;> cases owes

theorem Call.onEnd_of_owes (owes : call.owes b d = true) :
    ∃ e, call.onEnd = some (b, e) := by
  cases call with
  | read c count pc =>
    obtain rfl : c = b := by cases pc <;> cases d <;> simp_all [Call.owes]
    exact ⟨.read, rfl⟩
  | write c rest written pc =>
    obtain rfl : c = b := by cases pc <;> cases d <;> simp_all [Call.owes]
    exact ⟨.write, rfl⟩
  | user | unstarted | waitpid _ => cases d <;> cases owes

/-- There is a reason to wait: a reader waits for bytes, a writer for room. -/
def PipeBuf.Blocks (pb : PipeBuf) : PipeDir → Prop
  | .read => pb.count = 0
  | .write => pipeBufSize ≤ pb.count

theorem SameBytes.blocks (same : SameBytes pb pb') (blocks : pb.Blocks d) : pb'.Blocks d := by
  cases d with
  | read => exact same.count.trans blocks
  | write => exact le_of_le_of_eq blocks same.count.symm

/-- What a buffer keeps between pipe calls. -/
def PipeBuf.Served (pb : PipeBuf) : Prop :=
  ∀ d, (pb.waiting d).length ≤ 1 ∧ (pb.waiting d ≠ [] → pb.Blocks d)

/-- The stages of a call by a process that is the only one in the middle of a call. -/
structure Serving (pb : PipeBuf) (b : PipeId) (call : Call) : Prop where
  one (d : PipeDir) : (pb.waiting d).length ≤ 1
  reason (d : PipeDir) : pb.waiting d ≠ [] → call.owes b d = false → pb.Blocks d
  reading : ∀ {count}, call = .read b count .block → pb.count = 0
  copying : call.owes b .write = true → pb.waiting .read = []
  full : ∀ {rest written}, call = .write b rest written .full → pipeBufSize ≤ pb.count
  writing : ∀ {rest written}, call = .write b rest written .block →
    pipeBufSize ≤ pb.count ∧ pb.waiting .read = []

/-- A call that is not on this pipe, or is asleep on it, leaves the buffer served. -/
theorem Serving.of_served (served : pb.Served)
    (off : (∀ d, call.onEnd ≠ some (b, d)) ∨ call.midway = false) : Serving pb b call := by
  have owesNot (d : PipeDir) : call.owes b d = false := by
    by_contra owes
    have owes : call.owes b d = true := by simpa using owes
    have midway := Call.owes_midway owes
    rcases off with off | still
    · obtain ⟨e, here⟩ := Call.onEnd_of_owes owes
      exact off e here
    · rw [still] at midway
      cases midway
  refine ⟨fun d => (served d).1, fun d waits _ => (served d).2 waits, ?_, ?_, ?_, ?_⟩
  · rintro count rfl
    exact off.elim (fun off => absurd rfl (off .read)) nofun
  · intro owes
    rw [owesNot] at owes
    cases owes
  · rintro rest written rfl
    exact off.elim (fun off => absurd rfl (off .write)) nofun
  · rintro rest written rfl
    exact off.elim (fun off => absurd rfl (off .write)) nofun

theorem Serving.served (serving : Serving pb b call)
    (still : ∀ d, call.owes b d = false) : pb.Served :=
  fun d => ⟨serving.one d, fun waits => serving.reason d waits (still d)⟩

/-- All buffers are served, but for what the one process in the middle of a call still has to do. -/
def Served (s : System) : Prop :=
  ∃ p, (∀ q, q ≠ p → (s.procs q).call.midway = false) ∧ ∀ b, Serving (s.pool b) b (s.procs p).call

theorem Served.of_quiet (quiet : Quiet s) (served : ∀ b, (s.pool b).Served) : Served s :=
  ⟨0, fun q _ => quiet q, fun b => .of_served (served b) (.inr (quiet 0))⟩

theorem Served.quiet (served : Served s) (quiet : Quiet s) (b : PipeId) : (s.pool b).Served := by
  obtain ⟨p, _, serving⟩ := served
  refine (serving b).served fun d => ?_
  by_contra owes
  have midway := Call.owes_midway (by simpa using owes)
  rw [quiet p] at midway
  cases midway

/-- Whoever takes a step may be taken for the one process in the middle of a call. -/
theorem Served.serving (served : Served s)
    (alone : ∀ q, q ≠ p → (s.procs q).call.midway = false) (b : PipeId) :
    Serving (s.pool b) b (s.procs p).call := by
  obtain ⟨busy, others, serving⟩ := served
  rcases eq_or_ne busy p with rfl | different
  · exact serving b
  · have quiet : Quiet s := fun q => by
      rcases eq_or_ne q p with rfl | other
      · exact others q different.symm
      · exact alone q other
    exact .of_served (Served.quiet ⟨busy, others, serving⟩ quiet b) (.inr (quiet p))

theorem Served.tidies (served : Served s) (chain : Tidies s s') (sound : Sound s)
    (quiet : Quiet s) : Served s' := by
  have result := chain.invariant (P := PipeBuf.Served)
    (fun pb fresh d => by simp [fresh.waiting])
    (fun pb pb' kept before d => by
      rcases kept.waiting d with same | none
      · rw [same]
        exact ⟨(before d).1, fun waits => kept.toSameBytes.blocks ((before d).2 waits)⟩
      · simp [none]) sound quiet fun b _ => served.quiet quiet b
  refine .of_quiet result.1 fun b => ?_
  by_cases inUse : (s'.pool b).refCount = 0
  · intro d
    simp [(Tidies.sound chain sound).waiting_nil inUse d]
  · exact result.2 b inUse

/-- The end on whose queue the next step of a call goes to sleep. -/
def Call.sleepsOn : Call → Option (PipeId × PipeDir)
  | .read b _ .block => some (b, .read)
  | .write b _ _ .block => some (b, .write)
  | _ => none

/-- No other process is in the middle of a pipe call, and a process goes to sleep only on a queue
on which nobody else waits. -/
def WaitsAlone (s : System) (op : Op) : Prop :=
  Atomic s op ∧ ∀ p, op = .run p → ∀ place, (s.procs p).call.sleepsOn = some place →
    (s.pool place.1).waiting place.2 = []
  deriving Decidable

theorem Served.start (served : Served s) (quiet : Quiet s)
    (starts : ∀ b (pb : PipeBuf), pb.Served → Serving pb b call) : Served (s.setCall p call) := by
  refine ⟨p, fun q different => ?_, fun b => ?_⟩
  · rw [setCall, System.modifyProc_procs_of_ne _ different]
    exact quiet q
  · simp only [setCall, System.modifyProc_procs_self]
    exact starts b _ (served.quiet quiet b)

section Steps

variable {s : System} {p : Slot} {b : PipeId}

/-- A step of the one process in the middle of a call, on buffer `b`. -/
theorem Served.next (served : Served s)
    (alone : ∀ q, q ≠ p → (s.procs q).call.midway = false)
    (calls : ∀ q, q ≠ p → (s'.procs q).call = (s.procs q).call)
    (pools : ∀ c, c ≠ b → s'.pool c = s.pool c)
    (here : (s.procs p).call.onEnd = some (b, d)) (stays : call.onEnd = none ∨ call.onEnd = some (b, d))
    (serving : Serving (s'.pool b) b call) : Served (s'.setCall p call) := by
  have self : ((s'.setCall p call).procs p).call = call := by simp [setCall]
  refine ⟨p, fun q different => ?_, fun c => ?_⟩
  · rw [setCall, System.modifyProc_procs_of_ne _ different, calls q different]
    exact alone q different
  · rw [self]
    show Serving (s'.pool c) c call
    rcases eq_or_ne c b with rfl | different
    · exact serving
    · rw [pools c different]
      have off (call : Call) (on : call.onEnd = none ∨ call.onEnd = some (b, d)) (e : PipeDir) :
          call.onEnd ≠ some (c, e) := by
        intro same
        rcases on with none | on
        · rw [none] at same
          cases same
        · rw [on] at same
          cases same
          exact different rfl
      refine .of_served ((served.serving alone c).served fun e => ?_) (.inl (off call stays))
      by_contra owes
      obtain ⟨_, there⟩ := Call.onEnd_of_owes (by simpa using owes)
      exact off _ (.inr here) _ there

theorem Serving.woken (serving : Serving (s.pool b) b call) (e : PipeDir) :
    ((s.wake b d 1).pool b).waiting e = if e = d then [] else (s.pool b).waiting e := by
  rw [wake_waiting]
  by_cases same : e = d
  · subst same
    simpa using List.drop_eq_nil_of_le (serving.one e)
  · simp [same]

/-- Whoever goes to sleep alone on a queue, with a reason to wait, leaves the buffer served. -/
theorem Serving.asleep (serving : Serving (s.pool b) b call) (first : (s.pool b).waiting d = [])
    (reason : (s.pool b).Blocks d) (still : ∀ e, call.owes b e = false) : ((s.waitQueueBlock b d p).pool b).Served := by
  intro e
  have blocks := (s.waitQueueBlock_sameBytes b d p b).blocks (d := e)
  rw [waitQueueBlock_waiting]
  by_cases same : e = d
  · subst same
    simpa [first] using blocks reason
  · simpa [same] using ⟨serving.one e, fun waits => blocks (serving.reason e waits (still e))⟩

theorem Serving.awake (serving : Serving (s.pool b) b call)
    (others : ∀ e, e ≠ d → (s.pool b).waiting e ≠ [] → (s.pool b).Blocks e) : ((s.wake b d 1).pool b).Served := by
  intro e
  rw [serving.woken]
  split
  · simp
  · next other => exact ⟨serving.one e, fun waits => (s.wake_sameBytes b d 1 b).blocks (others e other waits)⟩

theorem Served.turn {t : System} {next : Call} (served : Served s) (sound : Sound s)
    (alone : ∀ q, q ≠ p → (s.procs q).call.midway = false) (calling : (s.procs p).call = call)
    (first : ∀ place, call.sleepsOn = some place → (s.pool place.1).waiting place.2 = [])
    (turn : Turn s p b call t next) : Served (t.setCall p next) := by
  have serving := served.serving alone b
  have moved {t : System} {next : Call} {d : PipeDir} (here : call.onEnd = some (b, d))
      (calls : ∀ q, q ≠ p → (t.procs q).call = (s.procs q).call)
      (pools : ∀ c, c ≠ b → t.pool c = s.pool c) (stays : next.onEnd = none ∨ next.onEnd = some (b, d))
      (serving : Serving (t.pool b) b next) : Served (t.setCall p next) :=
    served.next alone calls pools (calling ▸ here) stays serving
  have elsewhere {d : PipeDir} (c : PipeId) (other : c ≠ b) : (s.wake b d 1).pool c = s.pool c := by
    simp [wake, other]
  rw [calling] at serving
  -- the next stage is not the one that goes to sleep
  have goesOn {pb : PipeBuf} {next : Call} (same : pb.waiting = (s.pool b).waiting)
      (reason : ∀ e, (s.pool b).waiting e ≠ [] → next.owes b e = false → pb.Blocks e)
      (copying : next.owes b .write = true → (s.pool b).waiting .read = [])
      (full : ∀ {rest written}, next = .write b rest written .full → pipeBufSize ≤ pb.count)
      (awake : next.sleepsOn = none) : Serving pb b next := by
    refine ⟨fun d => same ▸ serving.one d, fun d waits => reason d (same ▸ waits), ?_,
      fun owes => same ▸ copying owes, full, ?_⟩
    · rintro _ rfl
      cases awake
    · rintro _ _ rfl
      cases awake
  have quiet {count : Nat} {pc : ReadPc} (isCall : call = .read b count pc) (top : pc = .test ∨ pc = .asleep) :
      (s.pool b).Served :=
    serving.served fun d => by rcases top with rfl | rfl <;> cases d <;> rw [isCall] <;> rfl
  have writers {rest : List UInt8} {written : Nat} {pc : WritePc} (isCall : call = .write b rest written pc)
      (e : PipeDir) (other : e ≠ .read) (waits : (s.pool b).waiting e ≠ []) : (s.pool b).Blocks e := by
    cases e with
    | read => exact absurd rfl other
    | write => exact serving.reason .write waits (by rw [isCall]; cases pc <;> rfl)
  cases turn with
  | eof top => exact moved rfl (fun _ _ => rfl) (fun _ _ => rfl) (.inl rfl) (.of_served (quiet rfl top) (.inr rfl))
  | empty top empty =>
    refine moved rfl (fun _ _ => rfl) (fun _ _ => rfl) (.inr rfl)
      ⟨serving.one, fun d waits _ => (quiet rfl top d).2 waits, fun _ => empty, ?_, ?_, ?_⟩
    · exact fun owes => by cases owes
    · exact fun same => by cases same
    · exact fun same => by cases same
  | filled top filled =>
    refine moved rfl (fun _ _ => rfl) (fun _ _ => rfl) (.inr rfl)
      (goesOn rfl (fun d waits _ => (quiet rfl top d).2 waits) (fun _ => ?_) (by simp) rfl)
    -- nobody waits for bytes while there are some
    by_contra waits
    exact filled ((quiet rfl top .read).2 waits)
  | readerSleeps =>
    refine moved rfl (fun _ _ => waitQueueBlock_call) (fun _ => modifyPipe_pool_of_ne _) (.inr rfl) (.of_served ?_ (.inr rfl))
    exact serving.asleep (first (b, .read) rfl) (serving.reading rfl) fun e => by cases e <;> rfl
  | take | copied =>
    have empty : (s.pool b).waiting .read = [] := serving.copying (by simp [Call.owes])
    refine moved rfl (fun _ _ => rfl) (fun _ => modifyPipe_pool_of_ne _) (.inr rfl) (goesOn ?_ (fun e waits pays => ?_) (fun _ => empty) (by simp) rfl)
    · simp [takeByte, shrink]
    · cases e with
      | read => exact absurd empty waits
      | write => simp [Call.owes] at pays
  | returns =>
    refine moved rfl (fun _ _ => wake_call 1) elsewhere (.inl rfl)
      (.of_served (serving.awake fun e other waits => ?_) (.inr rfl))
    cases e with
    | read => exact absurd (serving.copying (by simp [Call.owes])) waits
    | write => exact absurd rfl other
  | stored =>
    refine moved rfl (fun _ _ => rfl) (fun _ _ => rfl) (.inr rfl)
      (goesOn rfl (fun e waits pays => writers rfl e ?_ waits) (by simp [Call.owes]) (by simp) rfl)
    rintro rfl
    simp [Call.owes] at pays
  | noReader noReader =>
    refine moved rfl (fun _ _ => rfl) (fun _ _ => rfl) (.inl rfl)
      (.of_served (fun d => ⟨serving.one d, fun waits => ?_⟩) (.inr rfl))
    cases d with
    | read =>
      -- a reader on the queue would hold a read end
      exact absurd (sound.refs_pos waits) (not_lt.mpr noReader)
    | write => exact writers rfl .write (by simp) waits
  | full _ full =>
    refine moved rfl (fun _ _ => rfl) (fun _ _ => rfl) (.inr rfl)
      (goesOn rfl (fun e waits pays => writers rfl e ?_ waits) (by simp [Call.owes]) (fun _ => full) rfl)
    rintro rfl
    simp [Call.owes] at pays
  | put room =>
    refine moved rfl (fun _ _ => rfl) (fun _ => modifyPipe_pool_of_ne _) (.inr rfl)
      (goesOn (by simp [putByte]) (fun e waits pays => ?_) (by simp [Call.owes]) (by simp) rfl)
    cases e with
    | read => simp [Call.owes] at pays
    | write => exact absurd (writers rfl .write (by simp) waits) (not_le.mpr room)
  | wakesReader =>
    have woken := serving.awake (writers rfl)
    refine moved rfl (fun _ _ => wake_call 1) elsewhere (.inr rfl)
      ⟨fun d => (woken d).1, fun d waits _ => (woken d).2 waits, ?_, ?_, ?_, fun _ => ⟨?_, serving.woken .read⟩⟩
    · exact fun same => by cases same
    · exact fun same => by cases same
    · exact fun same => by cases same
    · exact (s.wake_sameBytes b .read 1 b).blocks (d := .write) (serving.full rfl)
  | writerSleeps =>
    obtain ⟨filled, empty⟩ := serving.writing rfl
    refine moved rfl (fun _ _ => waitQueueBlock_call) (fun _ => modifyPipe_pool_of_ne _) (.inr rfl) (.of_served ?_ (.inr rfl))
    exact serving.asleep (first (b, .write) rfl) filled fun e => by cases e <;> rfl
  | written =>
    exact moved rfl (fun _ _ => wake_call 1) elsewhere (.inl rfl) (.of_served (serving.awake (writers rfl)) (.inr rfl))

end Steps

theorem Served.step (served : Served s) (sound : Sound s)
    (allowed : WaitsAlone s op) (stepped : Stepped s op ans s') : Served s' := by
  obtain ⟨atomic, first⟩ := allowed
  cases stepped with
  | still => exact served
  | tidy idle chain => exact served.tidies chain sound (atomic.quiet idle)
  | @exit p code _ ready user _ chain =>
    have quiet : Quiet s := atomic.quiet (by rintro _ ⟨⟩; rw [user]; rfl)
    have still : Quiet (s.leave p code) := fun q => by rw [leave_call, quiet q]
    exact (Served.of_quiet still (served.quiet quiet)).tidies chain (sound.leave ready user code) still
  | @startRead p _ b _ count _ user _ _ =>
    have quiet : Quiet s := atomic.quiet (by rintro _ ⟨⟩; rw [user]; rfl)
    refine served.start quiet fun c pb served => ⟨fun d => (served d).1, fun d waits _ => (served d).2 waits,
      nofun, nofun, nofun, nofun⟩
  | @startWrite p _ b _ bytes _ user _ _ =>
    have quiet : Quiet s := atomic.quiet (by rintro _ ⟨⟩; rw [user]; rfl)
    refine served.start quiet fun c pb served => ⟨fun d => (served d).1, fun d waits _ => (served d).2 waits,
      nofun, nofun, nofun, nofun⟩
  | @read p b count pc _ calling =>
    exact System.readStep_turn (served.turn sound (atomic.alone rfl) calling (calling ▸ first p rfl))
  | @write p b rest written pc _ calling =>
    exact System.writeStep_turn (served.turn sound (atomic.alone rfl) calling (calling ▸ first p rfl))

theorem boot_served : Served boot := .of_quiet (fun _ => rfl) fun _ _ => ⟨Nat.zero_le 1, fun waits => absurd rfl waits⟩

/-- Every process in a call on this pipe is asleep, so that all that were woken are done, and
still a reader sleeps with bytes to read or no writer left, or a writer sleeps with room or no
reader left. -/
def Stuck (s : System) (b : PipeId) : Prop :=
  (∀ p d, (s.procs p).call.onEnd = some (b, d) → (s.procs p).state = .blocked) ∧
    ((s.pool b).waiting .read ≠ [] ∧ (0 < (s.pool b).count ∨ s.ends b .write = 0) ∨
      (s.pool b).waiting .write ≠ [] ∧ ((s.pool b).count < pipeBufSize ∨ s.ends b .read = 0))
  deriving Decidable

/-- If processes are switched only at blocking points and nobody goes to sleep behind another
waiter, no waiter is ever left behind. -/
theorem no_stuck_waiter {s : System} {trace : List (Op × Answer)}
    (run : Run System.step WaitsAlone boot trace s) (b : PipeId) : ¬ Stuck s b := by
  have known := run.invariant (I := fun s => Sound s ∧ Peered s ∧ Served s)
    (fun known allowed stepped =>
      have cases := step_cases known.1 stepped
      ⟨cases.sound known.1, known.2.1.step known.1 allowed.1 cases, known.2.2.step known.1 allowed cases⟩)
    ⟨boot_sound, boot_peered, boot_served⟩
  obtain ⟨sound, peered, served⟩ := known
  rintro ⟨asleep, waits⟩
  -- who owes a wake-up on this pipe would be awake in a call on it
  obtain ⟨p, _, serving⟩ := served
  have paid (d : PipeDir) : (s.procs p).call.owes b d = false := by
    by_contra owes
    have owes : (s.procs p).call.owes b d = true := by simpa using owes
    have midway := Call.owes_midway owes
    obtain ⟨e, here⟩ := Call.onEnd_of_owes owes
    rw [(sound.orderly.procs p).asleep (asleep p e here)] at midway
    cases midway
  have quiet : (s.pool b).Served := (serving b).served paid
  have peer {d : PipeDir} (waits : (s.pool b).waiting d ≠ []) : s.ends b d.other ≠ 0 := by
    have positive := peered.waiting b d waits
    rw [sound.counted.refs, ← sound.ends_eq] at positive
    omega
  rcases waits with ⟨waits, reason⟩ | ⟨waits, reason⟩
  · have empty : (s.pool b).count = 0 := (quiet .read).2 waits
    rcases reason with bytes | noWriter
    · omega
    · exact peer waits noWriter
  · have full : pipeBufSize ≤ (s.pool b).count := (quiet .write).2 waits
    rcases reason with room | noReader
    · omega
    · exact peer waits noReader

/-- A parent with two children on the read end of a pipe, both asleep in a read of one byte. -/
def twoReaders : List Op :=
  [.shell .loaded, .call 0 .pipe, .call 0 (.dup2 3 0), .call 0 (.exec .loaded), .call 0 (.exec .loaded),
    .call 1 (.read 0 1), .run 1, .run 1, .call 2 (.read 0 1), .run 2, .run 2]

/-- The parent writes two bytes and wakes the first reader, which takes one of them. -/
def secondReaderForgotten : List Op :=
  twoReaders ++ [.call 0 (.write 4 [1, 2])] ++ List.replicate 4 (.run 0) ++ List.replicate 4 (.run 1)

/-- A timer tick stops a reader between its test and `wait_queue_block`, and a write falls between. -/
def wakeUpLost : List Op :=
  [.shell .loaded, .call 0 .pipe, .call 0 (.dup2 3 0), .call 0 (.exec .loaded), .call 1 (.read 0 1), .run 1,
    .call 0 (.write 4 [1])] ++ List.replicate 3 (.run 0) ++ [.run 1]

/-- A reader sleeps for ever in front of a byte: because a wake-up is not passed on, even when
processes are switched only at blocking points, or because it comes too early. -/
theorem reader_stuck_at_byte :
    (AllAllowed System.step Atomic boot secondReaderForgotten ∧
      Stuck (execute System.step boot secondReaderForgotten).2 0) ∧
    Stuck (execute System.step boot wakeUpLost).2 0 := by
  decide +kernel

/-- One reader sleeps alone and is woken by the write. -/
def oneReader : List Op :=
  [.shell .loaded, .call 0 .pipe, .call 0 (.dup2 3 0), .call 0 (.exec .loaded), .call 1 (.read 0 1), .run 1,
    .run 1, .call 0 (.write 4 [1, 2])] ++ List.replicate 4 (.run 0)

theorem no_stuck_waiter_sample :
    ((execute System.step boot oneReader).2.procs 1).state = .ready ∧
      ¬ Stuck (execute System.step boot oneReader).2 0 := by
  have allowed : AllAllowed step WaitsAlone boot oneReader := by decide +kernel
  exact ⟨by decide +kernel, no_stuck_waiter (.of_execute _ allowed) 0⟩

end GinnOS.Kernel
