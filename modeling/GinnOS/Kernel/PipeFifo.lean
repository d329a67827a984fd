import GinnOS.Kernel.PipeRefs
import GinnOS.Lib.Ring

/-! # Pipes are FIFO byte channels

A run is `Atomic` when a pipe call is interrupted only inside `wait_queue_block`: while a
process is in the middle of a call, nobody else takes a step.  Then the bytes that
readers took are a first part of the bytes that writers stored, and the rest is what the
ring holds from `read_pos` on (`pipes_are_fifo`).
-/

namespace GinnOS.Kernel

open Lib List Function
open Kernel.System hiding readStep resume step writeStep

variable {b : PipeId} {s s' : System} {pb : PipeBuf} {p : Slot} {count : Nat} {pc : ReadPc} {op : Op}
  {ans : Answer}

/-- In the copy loop of a read of this pipe. -/
def Call.copies (b : PipeId) : Call → Bool
  | .read c _ (.copy _ _) => c = b
  | _ => false

/-- No other process than the one that takes the step is in the middle of a pipe call. -/
def Atomic (s : System) (op : Op) : Prop :=
  ∀ q, op.slot ≠ some q → (s.procs q).call.midway = false
  deriving Decidable

/-- Nobody is in the middle of a pipe call. -/
def Quiet (s : System) : Prop := ∀ q, (s.procs q).call.midway = false

theorem Call.onEnd_of_midway {call : Call} (midway : call.midway = true) : ∃ place, call.onEnd = some place := by
  cases call with
  | read b count pc => exact ⟨_, rfl⟩
  | write b rest written pc => exact ⟨_, rfl⟩
  | user | unstarted | waitpid _ => cases midway

theorem Call.copies_midway {call : Call} (copies : call.copies b = true) :
    call.midway = true := by
  cases call with
  | read c count pc =>
    cases pc with
    | copy toRead got => rfl
    | test | block | asleep | wake _ => cases copies
  | write _ _ _ _ | user | unstarted | waitpid _ => cases copies

/-! ## What happens to a buffer outside pipe calls -/

structure SameBytes (pb pb' : PipeBuf) : Prop where
  data : pb'.data = pb.data
  readPos : pb'.readPos = pb.readPos
  writePos : pb'.writePos = pb.writePos
  count : pb'.count = pb.count
  accepted : pb'.accepted = pb.accepted
  delivered : pb'.delivered = pb.delivered

/-- The bytes of a buffer stay, and its queues stay or are emptied. -/
structure Kept (pb pb' : PipeBuf) : Prop extends SameBytes pb pb' where
  waiting (d : PipeDir) : pb'.waiting d = pb.waiting d ∨ pb'.waiting d = []
  /-- who still waits has not lost the other end -/
  peer (d : PipeDir) : pb'.waiting d ≠ [] → 0 < pb.refs d.other → 0 < pb'.refs d.other

/-- A buffer nobody has used yet. -/
structure Fresh (pb : PipeBuf) : Prop where
  readPos : pb.readPos = 0
  writePos : pb.writePos = 0
  count : pb.count = 0
  accepted : pb.accepted = []
  delivered : pb.delivered = []
  waiting (d : PipeDir) : pb.waiting d = []

theorem SameBytes.refl (pb : PipeBuf) : SameBytes pb pb := ⟨rfl, rfl, rfl, rfl, rfl, rfl⟩

theorem Kept.refl (pb : PipeBuf) : Kept pb pb :=
  ⟨.refl pb, fun _ => .inl rfl, fun _ _ positive => positive⟩

theorem System.dropRef_kept (s : System) (b : PipeId) (d : PipeDir) :
    Kept (s.pool b) ((s.dropRef b d).pool b) := by
  simp only [dropRef, modifyPipe_pool_self, update_self]
  split
  · next last =>
    refine ⟨⟨?_, ?_, ?_, ?_, ?_, ?_⟩, fun e => ?_, fun e waits positive => ?_⟩
    all_goals simp only [waitQueueWakeAll, wake, modifyPipe_pool_self,
      update_self, drop_length] at *
    · rcases eq_or_ne e d.other with rfl | other
      · exact .inr (update_self ..)
      · exact .inl (update_of_ne other ..)
    · -- the queue of the other end was emptied, so who waits does so on the closed end
      have same : e = d := by
        by_contra other
        have : e = d.other := by
          revert other
          cases e <;> cases d <;> simp [PipeDir.other]
        rw [this, update_self] at waits
        exact waits rfl
      subst same
      rw [update_of_ne (by cases e <;> simp [PipeDir.other])]
      exact positive
  · next more =>
    refine ⟨⟨by simp, by simp, by simp, by simp, by simp, by simp⟩, fun _ => .inl (by simp),
      fun e _ positive => ?_⟩
    simp only [modifyPipe_pool_self]
    rcases eq_or_ne e.other d with same | other
    · rw [same, update_self]
      omega
    · rw [update_of_ne other]
      exact positive

/-- A buffer in use after a change outside pipe calls is fresh or was in use before. -/
theorem Tidy.pool (tidy : Tidy s s') (sound : Sound s)
    (inUse : (s'.pool b).refCount ≠ 0) :
    Fresh (s'.pool b) ∨ ((s.pool b).refCount ≠ 0 ∧ Kept (s.pool b) (s'.pool b)) := by
  have named {x : Slot × Fd} {d : PipeDir} (here : s.table x = .pipe b d) : (s.pool b).refCount ≠ 0 :=
    fun zero => sound.counted.unnamed zero.le here
  cases tidy with
  | @close p fd c d idle held =>
    rcases eq_or_ne b c with rfl | other
    · refine .inr ⟨named (x := (p, fd)) held, ?_⟩
      have kept := s.dropRef_kept b d
      simp only [setFd, modifyProc_pool, closePipeEnd] at inUse ⊢
      split at inUse
      · simp [pipeRelease] at inUse
      · next more =>
        rw [if_neg more]
        exact kept
    · have same : ((s.closePipeEnd c d).setFd p fd .none).pool b = s.pool b := by
        simp only [setFd, modifyProc_pool, closePipeEnd, dropRef]
        split <;> split <;> simp [pipeRelease, modifyPipe_pool_of_ne _ other,
          waitQueueWakeAll, wake, other]
      rw [same] at inUse ⊢
      exact .inr ⟨inUse, .refl _⟩
  | @copy p fd c d idle ready before source =>
    rcases eq_or_ne b c with rfl | other
    · obtain ⟨x, here⟩ := source
      refine .inr ⟨named here, ?_⟩
      simp only [addRef, modifyPipe_pool_self, setFd, modifyProc_pool]
      refine ⟨⟨rfl, rfl, rfl, rfl, rfl, rfl⟩, fun _ => .inl rfl, fun e _ positive => ?_⟩
      rcases eq_or_ne e.other d with rfl | otherEnd
      · simp only [update_self]
        omega
      · simpa [otherEnd] using positive
    · rw [addRef, modifyPipe_pool_of_ne _ other] at inUse ⊢
      exact .inr ⟨inUse, .refl _⟩
  | @make p c readFd writeFd idle ready unnamed readFree writeFree different =>
    rcases eq_or_ne b c with rfl | other
    · exact .inl (by constructor <;> simp [setFd, pipeInit])
    · have same : (((s.pipeInit c).setFd p readFd (.pipe c .read)).setFd p writeFd
          (.pipe c .write)).pool b = s.pool b := by
        simp [setFd, pipeInit, modifyPipe_pool_of_ne _ other]
      rw [same] at inUse ⊢
      exact .inr ⟨inUse, .refl _⟩
  | @undo c unnamed =>
    rcases eq_or_ne b c with rfl | other
    · simp [pipeRelease] at inUse
    · have same : ((s.pipeInit c).pipeRelease c).pool b = s.pool b := by
        simp [pipeRelease, pipeInit, modifyPipe_pool_of_ne _ other]
      rw [same] at inUse ⊢
      exact .inr ⟨inUse, .refl _⟩
  | create unused => exact .inr ⟨inUse, .refl _⟩
  | proc _ _ _ _ _ => exact .inr ⟨inUse, .refl _⟩

theorem Tidy.call (tidy : Tidy s s') {q : Slot} {place : PipeId × PipeDir}
    (here : (s'.procs q).call.onEnd = some place) : (s'.procs q).call = (s.procs q).call := by
  cases tidy with
  | close idle named => rw [setFd_call, closePipeEnd_call]
  | copy idle ready before source => exact setFd_call _
  | make idle ready unnamed readFree writeFree different =>
    rw [setFd_call, setFd_call]
    rfl
  | undo unnamed => rfl
  | @create p unused =>
    rcases eq_or_ne q p with rfl | other
    · simp [processInit, Call.onEnd] at here
    · rw [processInit, modifyProc_procs_of_ne _ other]
  | @proc p f idle idleAfter same zombie ok =>
    rcases eq_or_ne q p with rfl | other
    · rw [modifyProc_procs_self, idleAfter] at here
      cases here
    · rw [modifyProc_procs_of_ne _ other]

theorem Tidy.quiet (tidy : Tidy s s') (quiet : Quiet s) : Quiet s' := by
  intro q
  by_contra midway
  have midway : (s'.procs q).call.midway = true := by simpa using midway
  obtain ⟨place, here⟩ := Call.onEnd_of_midway midway
  rw [tidy.call here, quiet q] at midway
  cases midway

/-- What a fresh buffer has, and a buffer keeps outside pipe calls, every buffer keeps along a
chain of such changes. -/
theorem Tidies.invariant {P : PipeBuf → Prop} (fresh : ∀ pb, Fresh pb → P pb)
    (kept : ∀ pb pb', Kept pb pb' → P pb → P pb') (chain : Tidies s s')
    (sound : Sound s) (quiet : Quiet s) (start : ∀ b, (s.pool b).refCount ≠ 0 → P (s.pool b)) :
    Quiet s' ∧ ∀ b, (s'.pool b).refCount ≠ 0 → P (s'.pool b) := by
  induction chain with
  | refl => exact ⟨quiet, start⟩
  | tail before tidy ih =>
    refine ⟨tidy.quiet ih.1, fun b inUse => ?_⟩
    rcases tidy.pool (Tidies.sound before sound) inUse with new | ⟨wasInUse, same⟩
    · exact fresh _ new
    · exact kept _ _ same (ih.2 b wasInUse)

/-! ## The ring -/

/-- `taken` bytes were copied out of the ring and not yet subtracted from `count`. -/
structure FifoAt (pb : PipeBuf) (taken : Nat) : Prop where
  inside : pb.readPos < pipeBufSize
  held : taken ≤ pb.count
  fits : pb.count ≤ pipeBufSize
  tail : pb.writePos = (pb.readPos + (pb.count - taken)) % pipeBufSize
  flow : pb.accepted = pb.delivered ++ ring pipeBufSize pb.data pb.readPos (pb.count - taken)

theorem FifoAt.fresh (fresh : Fresh pb) : FifoAt pb 0 := by
  refine ⟨?_, Nat.zero_le _, ?_, ?_, ?_⟩ <;>
    simp [fresh.readPos, fresh.writePos, fresh.count, fresh.accepted, fresh.delivered, pipeBufSize]

theorem FifoAt.same {pb' : PipeBuf} {taken : Nat} (fifo : FifoAt pb taken) (same : SameBytes pb pb') :
    FifoAt pb' taken := by
  refine ⟨?_, ?_, ?_, ?_, ?_⟩
  all_goals simp only [same.readPos, same.count, same.writePos, same.accepted, same.delivered, same.data]
  · exact fifo.inside
  · exact fifo.held
  · exact fifo.fits
  · exact fifo.tail
  · exact fifo.flow

variable {pb : PipeBuf} {taken : Nat}

theorem FifoAt.take (fifo : FifoAt pb taken) (more : taken < pb.count) :
    FifoAt { pb with
      readPos := (pb.readPos + 1) % pipeBufSize
      delivered := pb.delivered ++ [pb.data pb.readPos] } (taken + 1) where
  inside := Nat.mod_lt _ (by decide)
  held := more
  fits := fifo.fits
  tail := by
    have rest : pb.count - taken = pb.count - (taken + 1) + 1 := by omega
    show pb.writePos = ((pb.readPos + 1) % pipeBufSize + (pb.count - (taken + 1))) % pipeBufSize
    rw [fifo.tail, rest, Nat.mod_add_mod]
    congr 1
    omega
  flow := by
    have rest : pb.count - taken = pb.count - (taken + 1) + 1 := by omega
    have flow := fifo.flow
    rw [rest, ring_take _ fifo.inside] at flow
    simpa using flow

theorem FifoAt.shrink (fifo : FifoAt pb taken) :
    FifoAt { pb with count := (pb.count + 4294967296 - taken) % 4294967296 } 0 := by
  have held := fifo.held
  have fits := fifo.fits
  simp only [pipeBufSize] at fits
  have count : (pb.count + 4294967296 - taken) % 4294967296 = pb.count - taken := by omega
  rw [count]
  exact
    { inside := fifo.inside
      held := Nat.zero_le _
      fits := by simp only [pipeBufSize]; omega
      tail := fifo.tail
      flow := fifo.flow }

theorem FifoAt.put (fifo : FifoAt pb 0) (room : pb.count < pipeBufSize) (byte : UInt8) :
    FifoAt { pb with
      data := update pb.data pb.writePos byte
      writePos := (pb.writePos + 1) % pipeBufSize
      count := pb.count + 1
      accepted := pb.accepted ++ [byte] } 0 where
  inside := fifo.inside
  held := Nat.zero_le _
  fits := room
  tail := by
    rw [fifo.tail, Nat.mod_add_mod]
    rfl
  flow := by
    have flow := fifo.flow
    have tail := fifo.tail
    rw [Nat.sub_zero] at flow tail
    rw [Nat.sub_zero, tail, ring_put _ room, flow, append_assoc]

/-! ## The machine -/

/-- The rings of all buffers in use, and how far each reader is. -/
structure Flows (s : System) : Prop where
  ring (b : PipeId) : (s.pool b).refCount ≠ 0 → (∀ p, (s.procs p).call.copies b = false) →
    FifoAt (s.pool b) 0
  request {p : Slot} {b : PipeId} {count : Nat} {pc : ReadPc} :
    (s.procs p).call = .read b count pc → count ≠ 0
  copying {p : Slot} {b : PipeId} {count toRead : Nat} {got : List UInt8} :
    (s.procs p).call = .read b count (.copy toRead got) →
      FifoAt (s.pool b) got.length ∧ got.length ≤ toRead ∧ toRead ≤ (s.pool b).count ∧ 0 < toRead ∧
        got <:+ (s.pool b).delivered
  copied {p : Slot} {b : PipeId} {count : Nat} {got : List UInt8} :
    (s.procs p).call = .read b count (.wake got) → got ≠ [] ∧ got <:+ (s.pool b).delivered

theorem Call.not_copies {call : Call} (still : call.midway = false) (b : PipeId) : call.copies b = false := by
  by_contra copies
  rw [Call.copies_midway (by simpa using copies)] at still
  cases still

/-- Nobody but `p` is in the middle of a call, and `p` goes on with another call. -/
theorem Flows.next {call : Call}
    (alone : ∀ q, q ≠ p → (s.procs q).call.midway = false)
    (request : ∀ q, q ≠ p → ∀ {b count pc}, (s.procs q).call = .read b count pc → count ≠ 0)
    (ring : ∀ b, (s.pool b).refCount ≠ 0 → call.copies b = false → FifoAt (s.pool b) 0)
    (reading : ∀ b count pc, call = .read b count pc → count ≠ 0 ∧
      (∀ toRead got, pc = .copy toRead got → FifoAt (s.pool b) got.length ∧ got.length ≤ toRead ∧
        toRead ≤ (s.pool b).count ∧ 0 < toRead ∧ got <:+ (s.pool b).delivered) ∧
      (∀ got, pc = .wake got → got ≠ [] ∧ got <:+ (s.pool b).delivered)) :
    Flows (s.setCall p call) := by
  have self : ((s.setCall p call).procs p).call = call := by simp [setCall]
  have other {q : Slot} (different : q ≠ p) : ((s.setCall p call).procs q).call = (s.procs q).call := by
    rw [setCall, modifyProc_procs_of_ne _ different]
  refine ⟨fun b inUse still => ring b inUse ?_, fun {q b count pc} here => ?_,
    fun {q b count toRead got} here => ?_, fun {q b count got} here => ?_⟩
  · rw [← self]
    exact still p
  · rcases eq_or_ne q p with rfl | different
    · exact (reading b count pc (self ▸ here)).1
    · rw [other different] at here
      exact request q different here
  · rcases eq_or_ne q p with rfl | different
    · exact (reading b count _ (self ▸ here)).2.1 toRead got rfl
    · have still := alone q different
      rw [← other different, here] at still
      cases still
  · rcases eq_or_ne q p with rfl | different
    · exact (reading b count _ (self ▸ here)).2.2 got rfl
    · have still := alone q different
      rw [← other different, here] at still
      cases still

theorem Flows.tidies (flows : Flows s) (chain : Tidies s s') (sound : Sound s)
    (quiet : Quiet s) : Flows s' := by
  have rings := chain.invariant (P := fun pb => FifoAt pb 0) (fun _ => .fresh)
    (fun _ _ kept fifo => fifo.same kept.toSameBytes) sound quiet
    fun b inUse => flows.ring b inUse fun p => Call.not_copies (quiet p) b
  have still {p : Slot} {b : PipeId} {count : Nat} {pc : ReadPc} (here : (s'.procs p).call = .read b count pc) :
      (s.procs p).call = .read b count pc := by
    clear rings
    induction chain with
    | refl => exact here
    | tail _ tidy ih =>
      have reads := congrArg Call.onEnd here
      exact ih (tidy.call reads ▸ here)
  refine ⟨fun b inUse _ => rings.2 b inUse, fun here => flows.request (still here), fun {p _ _ _ _} here => ?_,
    fun {p _ _ _} here => ?_⟩
  · have midway := rings.1 p
    rw [here] at midway
    cases midway
  · have midway := rings.1 p
    rw [here] at midway
    cases midway

theorem System.wake_sameBytes (s : System) (b : PipeId) (d : PipeDir) (n : Nat) (c : PipeId) :
    SameBytes (s.pool c) ((s.wake b d n).pool c) := by
  rcases eq_or_ne c b with rfl | other
  · constructor <;> simp [wake]
  · simp only [wake, update_of_ne other]
    exact .refl _

theorem System.waitQueueBlock_sameBytes (s : System) (b : PipeId) (d : PipeDir) (p : Slot) (c : PipeId) :
    SameBytes (s.pool c) ((s.waitQueueBlock b d p).pool c) := by
  rcases eq_or_ne c b with rfl | other
  · constructor <;> simp [waitQueueBlock]
  · simp only [waitQueueBlock, modifyPipe_pool_of_ne _ other]
    exact .refl _

section Steps

variable {s : System} {p : Slot} {b : PipeId}

theorem Sound.inUse (sound : Sound s) {d : PipeDir} (here : (s.procs p).call.onEnd = some (b, d)) :
    (s.pool b).refCount ≠ 0 := by
  obtain ⟨fd, held⟩ := (sound.orderly.procs p).holds here
  exact fun zero => sound.counted.unnamed zero.le (x := (p, fd)) held

theorem Flows.whole (flows : Flows s) (alone : ∀ q, q ≠ p → (s.procs q).call.midway = false) {c : PipeId}
    (inUse : (s.pool c).refCount ≠ 0) (still : (s.procs p).call.copies c = false) : FifoAt (s.pool c) 0 := by
  refine flows.ring c inUse fun q => ?_
  rcases eq_or_ne q p with rfl | different
  · exact still
  · exact Call.not_copies (alone q different) c

theorem Flows.turn {t : System} {call next : Call} (flows : Flows s) (sound : Sound s)
    (alone : ∀ q, q ≠ p → (s.procs q).call.midway = false)
    (calling : (s.procs p).call = call) (turn : Turn s p b call t next) : Flows (t.setCall p next) := by
  have others : ∀ q, q ≠ p → ∀ {b count pc}, (s.procs q).call = .read b count pc → count ≠ 0 :=
    fun q _ _ _ _ here => flows.request here
  have whole (still : ∀ c, call.copies c = false) {c : PipeId} (inUse : (s.pool c).refCount ≠ 0) : FifoAt (s.pool c) 0 :=
    flows.whole alone inUse (by rw [calling, still])
  have unmoved {t : System} (next : Call) (still : ∀ c, call.copies c = false)
      (calls : ∀ q, (t.procs q).call = (s.procs q).call) (refCount : ∀ c, (t.pool c).refCount = (s.pool c).refCount)
      (same : ∀ c, SameBytes (s.pool c) (t.pool c))
      (reading : ∀ b count pc, next = .read b count pc →
        count ≠ 0 ∧ (∀ toRead got, pc ≠ .copy toRead got) ∧ ∀ got, pc ≠ .wake got) : Flows (t.setCall p next) := by
    refine .next (fun q different => by rw [calls, alone q different]) (fun q different _ _ _ here => ?_)
      (fun c inUse _ => ?_) fun b count pc here => ?_
    · exact others q different (calls q ▸ here)
    · exact (whole still (refCount c ▸ inUse)).same (same c)
    · obtain ⟨positive, noCopy, noWake⟩ := reading b count pc here
      exact ⟨positive, fun _ _ copy => absurd copy (noCopy _ _), fun _ wake => absurd wake (noWake _)⟩
  have inPlace {next : Call} (still : ∀ c, call.copies c = false) := unmoved next still (fun _ => rfl)
    (fun _ => rfl) fun c => .refl (s.pool c)
  have woken {next : Call} (d : PipeDir) (still : ∀ c, call.copies c = false) := unmoved next still
    (fun _ => wake_call 1) (fun _ => wake_refCount 1) (s.wake_sameBytes b d 1)
  have asleep {next : Call} (d : PipeDir) (still : ∀ c, call.copies c = false) := unmoved next still
    (fun _ => waitQueueBlock_call) (fun _ => waitQueueBlock_refCount) (s.waitQueueBlock_sameBytes b d p)
  have top {count : Nat} {pc : ReadPc} (top : pc = .test ∨ pc = .asleep) (c : PipeId) :
      (Call.read b count pc).copies c = false := by
    rcases top with rfl | rfl <;> rfl
  cases turn with
  | eof isTop => exact inPlace (top isTop) (by simp)
  | empty isTop =>
    refine inPlace (top isTop) ?_
    rintro _ _ _ ⟨⟩
    exact ⟨flows.request calling, by simp, by simp⟩
  | filled isTop _ available some =>
    refine .next alone others (fun c inUse _ => whole (top isTop) inUse) ?_
    rintro _ _ _ ⟨⟩
    refine ⟨flows.request calling, ?_, by simp⟩
    rintro _ _ ⟨⟩
    exact ⟨whole (top isTop) (sound.inUse (congrArg Call.onEnd calling)), Nat.zero_le _, available, some (flows.request calling), nil_suffix⟩
  | readerSleeps =>
    refine asleep .read (fun _ => rfl) ?_
    rintro _ _ _ ⟨⟩
    exact ⟨flows.request calling, by simp, by simp⟩
  | @take count toRead got more =>
    obtain ⟨fifo, behind, available, some, earlier, delivered⟩ := flows.copying calling
    refine .next alone others (fun c inUse still => ?_) ?_
    · have different : b ≠ c := by simpa [Call.copies] using still
      have same : (s.takeByte b).pool c = s.pool c := modifyPipe_pool_of_ne _ different.symm
      rw [same] at inUse ⊢
      exact flows.whole alone inUse (by simpa [calling, Call.copies] using different)
    · rintro _ _ _ ⟨⟩
      refine ⟨flows.request calling, ?_, by simp⟩
      rintro _ _ ⟨⟩
      simp only [takeByte, modifyPipe_pool_self, length_append, length_singleton]
      exact ⟨fifo.take (Nat.lt_of_lt_of_le more available), more, available, some, earlier,
        by rw [← delivered, append_assoc]⟩
  | @copied count toRead got done =>
    obtain ⟨fifo, behind, available, some, taken⟩ := flows.copying calling
    have all : got.length = toRead := Nat.le_antisymm behind done
    refine .next alone others (fun c inUse _ => ?_) ?_
    · rcases eq_or_ne c b with rfl | different
      · rw [shrink, modifyPipe_pool_self, ← all]
        exact fifo.shrink
      · have same : (s.shrink b toRead).pool c = s.pool c := modifyPipe_pool_of_ne _ different
        rw [same] at inUse ⊢
        exact flows.whole alone inUse (by simpa [calling, Call.copies] using different.symm)
    · rintro _ _ _ ⟨⟩
      refine ⟨flows.request calling, by simp, ?_⟩
      rintro _ ⟨⟩
      simp only [shrink, modifyPipe_pool_self]
      exact ⟨ne_nil_of_length_pos (by omega), taken⟩
  | returns => exact woken .write (fun _ => rfl) (by simp)
  | stored | noReader | full => exact inPlace (fun _ => rfl) (by simp)
  | @put byte _ _ _ room =>
    refine .next alone others (fun c inUse _ => ?_) (by simp)
    rcases eq_or_ne c b with rfl | different
    · rw [putByte, modifyPipe_pool_self]
      exact (whole (fun _ => rfl) (sound.inUse (congrArg Call.onEnd calling))).put room byte
    · have same : (s.putByte b byte).pool c = s.pool c := modifyPipe_pool_of_ne _ different
      rw [same] at inUse ⊢
      exact whole (fun _ => rfl) inUse
  | wakesReader | written => exact woken .read (fun _ => rfl) (by simp)
  | writerSleeps => exact asleep .write (fun _ => rfl) (by simp)

end Steps

theorem Atomic.quiet (atomic : Atomic s op)
    (idle : ∀ p, op.slot = some p → (s.procs p).call.onEnd = none) : Quiet s := by
  intro q
  by_cases here : op.slot = some q
  · exact Call.midway_of_onEnd (idle q here)
  · exact atomic q here

theorem Atomic.alone (atomic : Atomic s op) (self : op.slot = some p) :
    ∀ q, q ≠ p → (s.procs q).call.midway = false :=
  fun q different => atomic q fun same => different (Option.some.inj (same.symm.trans self))

theorem Flows.step (flows : Flows s) (sound : Sound s)
    (atomic : Atomic s op) (stepped : Stepped s op ans s') : Flows s' := by
  have others {p : Slot} : ∀ q, q ≠ p → ∀ {b count pc}, (s.procs q).call = .read b count pc → count ≠ 0 :=
    fun q _ _ _ _ here => flows.request here
  cases stepped with
  | still => exact flows
  | tidy idle chain => exact flows.tidies chain sound (atomic.quiet idle)
  | @exit p code _ ready user _ chain =>
    have quiet : Quiet s := atomic.quiet (by rintro _ ⟨⟩; rw [user]; rfl)
    refine Flows.tidies ?_ chain (sound.leave ready user code) fun q => by rw [leave_call, quiet q]
    refine ⟨fun b inUse still => flows.ring b inUse fun q => ?_, fun here => ?_, fun here => ?_, fun here => ?_⟩
    · rw [← leave_call]
      exact still q
    · exact flows.request ((leave_call _).symm.trans here)
    · exact flows.copying ((leave_call _).symm.trans here)
    · exact flows.copied ((leave_call _).symm.trans here)
  | @startRead p _ b _ count _ user _ positive =>
    refine .next (atomic.alone rfl) others (fun c inUse _ => ?_) ?_
    · exact flows.whole (atomic.alone rfl) inUse (by rw [user]; rfl)
    · rintro _ _ _ ⟨⟩
      exact ⟨positive, nofun, nofun⟩
  | startWrite _ user _ _ =>
    refine .next (atomic.alone rfl) others (fun c inUse _ => ?_) nofun
    exact flows.whole (atomic.alone rfl) inUse (by rw [user]; rfl)
  | read _ calling => exact System.readStep_turn (flows.turn sound (atomic.alone rfl) calling)
  | write _ calling => exact System.writeStep_turn (flows.turn sound (atomic.alone rfl) calling)

theorem boot_flows : Flows boot := ⟨fun _ inUse => absurd rfl inUse, nofun, nofun, nofun⟩

/-- What a read returns: nothing only at the end of the stream, and otherwise what it copied. -/
def System.Answers (s : System) (b : PipeId) (ans : Answer) : Prop :=
  (ans = .ret 0 ∨ ans = .data [] → (s.pool b).count = 0 ∧ s.ends b .write = 0) ∧
    ∀ bytes, ans = .data bytes → bytes <:+ (s.pool b).delivered

theorem Flows.answer
    (flows : Flows s) (sound : Sound s) (calling : (s.procs p).call = .read b count pc)
    (stepped : s.step (.run p) = (ans, s')) : s.Answers b ans := by
  have busy (result : ans = .busy) : s.Answers b ans := by
    subst result
    exact ⟨by simp, (by simp)⟩
  have looped (result : (s.readStep p b count .test).1 = ans) : s.Answers b ans := by
    simp only [System.readStep] at result
    split at result
    · next empty =>
      split at result
      · next noWriter =>
        subst result
        refine ⟨fun _ => ⟨empty, ?_⟩, (by simp)⟩
        rw [sound.counted.refs, ← sound.ends_eq] at noWriter
        omega
      · exact busy result.symm
    · exact busy result.symm
  simp only [System.step, System.resume, calling] at stepped
  split at stepped
  · cases pc with
    | test => exact looped (congrArg Prod.fst stepped)
    | asleep => exact looped (congrArg Prod.fst stepped)
    | block => exact busy (congrArg Prod.fst stepped).symm
    | copy toRead got =>
      refine busy (Eq.trans (congrArg Prod.fst stepped).symm ?_)
      simp only [System.readStep]
      split <;> rfl
    | wake got =>
      obtain ⟨some, taken⟩ := flows.copied calling
      obtain rfl := (congrArg Prod.fst stepped)
      exact ⟨by simp [System.readStep, some], fun bytes same => by cases same; exact taken⟩
  · exact busy (congrArg Prod.fst stepped).symm

/-- The bytes that reads of a pipe have copied are a first part of the bytes that writes have
stored in it, the ring holds the others from `read_pos` on, `count` never exceeds the size of
the ring, and a read comes back with nothing only when the ring is empty and no descriptor
names the write end.  While a read is copying, `count` still has the bytes it took. -/
theorem pipes_are_fifo {s : System} {trace : List (Op × Answer)}
    (run : Run System.step Atomic boot trace s) :
    (∀ b, (s.pool b).refCount ≠ 0 →
      (s.pool b).delivered <+: (s.pool b).accepted ∧ (s.pool b).count ≤ pipeBufSize ∧
      ((∀ p, (s.procs p).call.copies b = false) → (s.pool b).accepted = (s.pool b).delivered ++
        ring pipeBufSize (s.pool b).data (s.pool b).readPos (s.pool b).count)) ∧
    ∀ p b count pc ans s', (s.procs p).call = .read b count pc → s.step (.run p) = (ans, s') →
      (ans = .ret 0 ∨ ans = .data [] → (s.pool b).count = 0 ∧ s.ends b .write = 0) ∧
      ∀ bytes, ans = .data bytes → bytes <:+ (s.pool b).delivered := by
  have both := run.invariant (I := fun s => Sound s ∧ Flows s)
    (fun known atomic stepped => ⟨known.1.step stepped,
      known.2.step known.1 atomic (step_cases known.1 stepped)⟩) ⟨boot_sound, boot_flows⟩
  obtain ⟨sound, flows⟩ := both
  refine ⟨fun b inUse => ?_, fun p b count pc ans s' calling stepped => ?_⟩
  · have fifo : ∃ taken, FifoAt (s.pool b) taken := by
      by_cases still : ∀ p, (s.procs p).call.copies b = false
      · exact ⟨0, flows.ring b inUse still⟩
      · obtain ⟨p, copies⟩ := not_forall.mp still
        cases calling : (s.procs p).call with
        | read c count pc =>
          cases pc with
          | copy toRead got =>
            obtain rfl : c = b := by simpa [calling, Call.copies] using copies
            exact ⟨_, (flows.copying calling).1⟩
          | test | block | asleep | wake _ => simp [calling, Call.copies] at copies
        | write _ _ _ _ | user | unstarted | waitpid _ => simp [calling, Call.copies] at copies
    obtain ⟨taken, fifo⟩ := fifo
    refine ⟨⟨_, fifo.flow.symm⟩, fifo.fits, fun still => ?_⟩
    exact (flows.ring b inUse still).flow
  · exact flows.answer sound calling stepped

/-- A program writes three bytes to a pipe and reads two of them. -/
def threeInTwoOut : List Op :=
  [.shell .loaded, .call 0 .pipe, .call 0 (.write 4 [7, 8, 9])] ++ List.replicate 5 (.run 0) ++
    [.call 0 (.read 3 2)] ++ List.replicate 5 (.run 0)

theorem pipes_are_fifo_sample :
    ((execute System.step boot threeInTwoOut).2.pool 0).delivered = [7, 8] ∧
    ((execute System.step boot threeInTwoOut).2.pool 0).delivered <+:
      ((execute System.step boot threeInTwoOut).2.pool 0).accepted := by
  have allowed : AllAllowed System.step Atomic boot threeInTwoOut := by decide +kernel
  exact ⟨by decide +kernel,
    ((pipes_are_fifo (.of_execute _ allowed)).1 0 (by decide +kernel)).1⟩

end GinnOS.Kernel
