import GinnOS.Kernel.PipeRefs

/-! # A descriptor table belongs to its process

No step of another process changes the descriptors of a process that is alive (`Keeps.step`), and of
the process's own calls only those on descriptors do.
-/

namespace GinnOS.Kernel

open Lib

def Alive (p : Slot) (s : System) : Prop := (s.procs p).state = .ready ∨ (s.procs p).state = .blocked

/-- A living process stays alive and keeps its descriptors. -/
structure Keeps (p : Slot) (s s' : System) : Prop where
  keep : Alive p s → Alive p s' ∧ (s'.procs p).fds = (s.procs p).fds

variable {s s' s'' : System} {p q : Slot} {b : PipeId} {d : PipeDir} {fd : Fd}

theorem Alive.used (alive : Alive p s) : (s.procs p).state ≠ .unused := by
  rcases alive with ready | blocked
  · rw [ready]
    decide
  · rw [blocked]
    decide

theorem Alive.not_zombie (alive : Alive p s) : (s.procs p).state ≠ .zombie := by
  rcases alive with ready | blocked
  · rw [ready]
    decide
  · rw [blocked]
    decide

namespace Keeps

theorem refl : Keeps p s s := ⟨fun alive => ⟨alive, rfl⟩⟩

theorem trans (first : Keeps p s s') (second : Keeps p s' s'') : Keeps p s s'' := by
  refine ⟨fun alive => ?_⟩
  obtain ⟨alive', same⟩ := first.keep alive
  obtain ⟨alive'', same'⟩ := second.keep alive'
  exact ⟨alive'', same'.trans same⟩

theorem of_eq (same : s'.procs p = s.procs p) : Keeps p s s' := by
  refine ⟨fun alive => ?_⟩
  rw [Alive, same]
  exact ⟨alive, rfl⟩

theorem modifyProc_other (f : Process → Process) (different : p ≠ q) : Keeps p s (s.modifyProc q f) :=
  of_eq (System.modifyProc_procs_of_ne f different)

theorem modifyProc (f : Process → Process) (alive : (f (s.procs q)).state = .ready ∨ (f (s.procs q)).state = .blocked)
    (same : (f (s.procs q)).fds = (s.procs q).fds) : Keeps p s (s.modifyProc q f) := by
  by_cases here : p = q
  · subst here
    refine ⟨fun _ => ?_⟩
    rw [Alive, System.modifyProc_procs_self]
    exact ⟨alive, same⟩
  · exact modifyProc_other f here

theorem setCall (call : Call) : Keeps p s (s.setCall q call) := by
  by_cases here : p = q
  · subst here
    refine ⟨fun alive => ?_⟩
    rw [Alive, System.setCall, System.modifyProc_procs_self]
    exact ⟨alive, rfl⟩
  · exact modifyProc_other _ here

theorem setFd (entry : FdEntry) (different : p ≠ q) : Keeps p s (s.setFd q fd entry) := modifyProc_other _ different

theorem modifyPipe (f : PipeBuf → PipeBuf) : Keeps p s (s.modifyPipe b f) := of_eq rfl

theorem wake (n : Nat) : Keeps p s (s.wake b d n) := by
  refine ⟨fun alive => ⟨?_, System.wake_fds n⟩⟩
  rw [Alive, System.wake_procs]
  split
  · exact .inl rfl
  · exact alive

theorem waitQueueBlock : Keeps p s (s.waitQueueBlock b d q) := (modifyProc _ (.inr rfl) rfl).trans (modifyPipe _)

theorem dropRef : Keeps p s (s.dropRef b d) := by
  rw [System.dropRef]
  refine (modifyPipe (b := b) fun pb => { pb with refs := Function.update pb.refs d (pb.refs d - 1) }).trans ?_
  split
  · exact (wake _).trans (modifyPipe _)
  · exact modifyPipe _

theorem closePipeEnd : Keeps p s (s.closePipeEnd b d) := by
  rw [System.closePipeEnd]
  split
  · exact dropRef.trans (of_eq rfl)
  · exact dropRef

theorem closeEntry (different : p ≠ q) : Keeps p s (s.closeEntry q fd) := by
  rw [System.closeEntry]
  split
  · exact closePipeEnd.trans (setFd _ different)
  · exact setFd _ different

theorem copyEntry (entry : FdEntry) (different : p ≠ q) : Keeps p s (s.copyEntry q fd entry) := by
  unfold System.copyEntry
  split
  · exact (setFd _ different).trans (modifyPipe _)
  · exact setFd _ different

theorem foldl {f : System → Fd → System} (each : ∀ s fd, Keeps p s (f s fd)) (fds : List Fd) : Keeps p s (fds.foldl f s) := by
  induction fds generalizing s with
  | nil => exact refl
  | cons fd fds ih => exact (each s fd).trans ih

theorem processDestroy (different : p ≠ q) : Keeps p s (s.processDestroy q) := by
  refine (foldl (fun s fd => ?_) (List.finRange 16)).trans (modifyProc_other _ different)
  rw [System.destroyFd]
  split
  · exact closeEntry different
  · exact closeEntry different
  · exact refl

theorem processInit (different : p ≠ q) : Keeps p s (s.processInit q) := by
  have same : ((s.processInit q).procs p) = s.procs p := System.modifyProc_procs_of_ne _ different
  exact of_eq same

theorem processCreate {memory : Bool} {child : Option Slot} (alive : Alive p s) (created : s.processCreate memory = (child, s')) :
    Keeps p s s' ∧ ∀ q, child = some q → p ≠ q := by
  rw [System.processCreate] at created
  split at created
  · cases created
    exact ⟨refl, (by simp)⟩
  · next q found =>
    have unused := List.find?_some found
    rw [decide_eq_true_eq] at unused
    have different : p ≠ q := by
      rintro rfl
      exact alive.used unused
    split at created
    · cases created
      refine ⟨(processInit different).trans (modifyProc_other _ different), fun q' same => ?_⟩
      cases same
      exact different
    · cases created
      exact ⟨processInit different, (by simp)⟩

theorem inheritFd {parent child : Slot} (different : p ≠ child) (s : System) (fd : Fd) :
    Keeps p s (System.inheritFd parent child s fd) := by
  rw [System.inheritFd]
  split
  · exact copyEntry _ different
  · split
    · exact setFd _ different
    · exact setFd _ different

theorem execProgram (parent : Option Slot) (outcome : System.Loading) : Keeps p s (s.execProgram parent outcome).2 := by
  refine ⟨fun alive => ?_⟩
  rw [System.execProgram]
  split
  · next s' created => exact (processCreate alive created).1.keep alive
  · next child s' created =>
    obtain ⟨kept, others⟩ := processCreate alive created
    have different := others child rfl
    split
    · exact (kept.trans (processDestroy different)).keep alive
    · split
      · next parent =>
        have named := modifyProc_other (s := s') (fun proc => { proc with parentPid := (s'.procs parent).pid }) different
        exact (kept.trans (named.trans ((foldl (inheritFd different) _).trans (setCall _)))).keep alive
      · exact (kept.trans (setCall _)).keep alive

theorem wakeParent (parentPid pid : Nat) : Keeps p s (s.wakeParent parentPid pid) := by
  rw [System.wakeParent]
  split
  · exact refl
  · split
    · exact modifyProc _ (.inl rfl) rfl
    · exact refl

theorem usermodeExit (code : Int) (different : p ≠ q) : Keeps p s (s.usermodeExit q code) := by
  rw [System.usermodeExit]
  split
  · exact (modifyProc_other _ different).trans (wakeParent ..)
  · exact processDestroy different

theorem reap {child : Slot} (zombie : (s.procs child).state = .zombie) : Keeps p s (s.processDestroy child) := by
  refine ⟨fun alive => (processDestroy ?_).keep alive⟩
  rintro rfl
  exact alive.not_zombie zombie

theorem sysWaitpid (pid : Nat) : Keeps p s (s.sysWaitpid q pid).2 := by
  rw [System.sysWaitpid]
  split
  · exact refl
  · split
    · exact refl
    · split
      · next zombie => exact reap zombie
      · exact modifyProc (fun proc => { proc with state := .blocked, waitForPid := pid, call := .waitpid pid }) (.inr rfl) rfl

theorem waitpidResume (pid : Nat) : Keeps p s (s.waitpidResume q pid).2 := by
  refine (setCall (q := q) .user).trans ?_
  rw [System.waitpidResume]
  split
  · exact refl
  · split
    · next zombie => exact reap zombie
    · exact refl

theorem sysRead (fd : Int) (count : Nat) : Keeps p s (s.sysRead q fd count).2 := by
  rw [System.sysRead]
  split
  · exact refl
  · split
    all_goals first | exact setCall _ | exact refl

theorem sysWrite (fd : Int) (bytes : List UInt8) : Keeps p s (s.sysWrite q fd bytes).2 := by
  rw [System.sysWrite]
  split
  · exact refl
  · split
    all_goals first | exact setCall _ | exact refl

theorem turn {t : System} {call next : Call} (turn : Turn s q b call t next) : Keeps p s (t.setCall q next) := by
  cases turn with
  | eof | empty | filled | stored | noReader | full => exact setCall _
  | take | copied | put => exact (modifyPipe _).trans (setCall _)
  | readerSleeps | writerSleeps => exact waitQueueBlock.trans (setCall _)
  | returns | wakesReader | written => exact (wake _).trans (setCall _)

theorem resume : Keeps p s (s.resume q).2 := by
  rw [System.resume]
  split
  · exact refl
  · exact refl
  · exact waitpidResume _
  · exact System.readStep_turn turn
  · exact System.writeStep_turn turn

theorem sysPipe (different : p ≠ q) : Keeps p s (s.sysPipe q).2 := by
  rw [System.sysPipe]
  split
  · exact refl
  · next b s' allocated =>
    have made : Keeps p s s' := by
      rw [System.pipeAlloc] at allocated
      split at allocated
      · cases allocated
      · cases allocated
        exact modifyPipe _
    split
    · exact made.trans ((setFd _ different).trans (setFd _ different))
    · exact made.trans (of_eq rfl)

theorem sysDup2 (old new : Int) (different : p ≠ q) : Keeps p s (s.sysDup2 q old new).2 := by
  rw [System.sysDup2]
  split
  · split
    · exact refl
    · split
      · exact refl
      · split
        · exact copyEntry _ different
        · exact (closeEntry different).trans (copyEntry _ different)
  · exact refl

theorem sysClose (fd : Int) (different : p ≠ q) : Keeps p s (s.sysClose q fd).2 := by
  have freed : Keeps p s (s.fdFree q fd).2 := by
    rw [System.fdFree]
    split
    · exact refl
    · split
      · exact refl
      · exact closeEntry different
  rw [System.sysClose]
  split
  · exact refl
  · split
    · next s' isFree => rwa [isFree] at freed
    · next s' _ isFree => rwa [isFree] at freed

theorem sysOpen (different : p ≠ q) : Keeps p s (s.sysOpen q).2 := by
  have allocated : Keeps p s (s.fdAlloc q).2 := by
    rw [System.fdAlloc]
    split
    · exact refl
    · exact setFd _ different
  rw [System.sysOpen]
  dsimp only
  split
  · exact allocated
  · exact allocated

theorem sysExec (outcome : System.Loading) : Keeps p s (s.sysExec q outcome).2 := by
  rw [System.sysExec]
  dsimp only
  split
  · exact execProgram ..
  · exact execProgram ..

theorem sysCall (call : SysCall) (different : p ≠ q) : Keeps p s (s.sysCall q call).2 := by
  cases call with
  | pipe => exact sysPipe different
  | dup2 old new => exact sysDup2 old new different
  | close fd => exact sysClose fd different
  | «open» => exact sysOpen different
  | exec outcome => exact sysExec outcome
  | exit code => exact usermodeExit code different
  | waitpid pid => exact sysWaitpid pid
  | read fd count => exact sysRead fd count
  | write fd bytes => exact sysWrite fd bytes

end Keeps

/-- A step that is not one of the process `p`. -/
def Foreign (p : Slot) : Op → Prop
  | .call q _ | .run q => p ≠ q
  | .shell _ => True

theorem Keeps.step {op : Op} (foreign : Foreign p op) : Keeps p s (s.step op).2 := by
  cases op with
  | call q call =>
    rw [System.step]
    split
    · exact sysCall call foreign
    · exact refl
  | run q =>
    rw [System.step]
    split
    · exact resume
    · exact refl
  | shell outcome => exact execProgram none outcome

end GinnOS.Kernel
