import GinnOS.Lib.Buffer
import GinnOS.Lib.Tally

/-! # Processes, descriptors and pipe buffers

The part of the kernel state that pipes live in: the process table with its
descriptor tables (`process.c`), the pool of pipe buffers (`fd_table.c`) and the
wait queues of a buffer (`wait_queue.c`), with the functions that change them.

* A pair of fields that exists once per end of a pipe (`read_refs` and `write_refs`,
  `readers` and `writers`) is one function of the end.
* A wait queue is the list of the slots linked through `wait_next`.
* `ready` stands for `PROC_STATE_READY` and `PROC_STATE_RUNNING`: which of the runnable
  processes has the CPU is up to the schedule.
* Pids are natural numbers: `next_pid` counts up and is taken not to wrap.
* `accepted`, `delivered` and `releases` record history and are read by no function.
-/

namespace GinnOS.Kernel

open Lib Function

/-- An index into `proc_table` (`PROCESS_MAX`). -/
abbrev Slot := Fin 64

instance slots_nonzero : NeZero 64 := ⟨by decide⟩

/-- A descriptor number (`FD_MAX`). -/
abbrev Fd := Fin 16

/-- An index into `pipe_pool` (`PIPE_MAX`). -/
abbrev PipeId := Fin 16

def pipeBufSize : Nat := 4096
def fdStdioCount : Nat := 3
def pidNone : Nat := 0

/-- `pipe_dir_t`. -/
inductive PipeDir where
  | read | write
  deriving DecidableEq, Repr

instance : Fintype PipeDir := ⟨{.read, .write}, fun d => by cases d <;> decide⟩

def PipeDir.other : PipeDir → PipeDir
  | .read => .write
  | .write => .read

/-- `fd_entry_t`; the open file of a file descriptor is left out. -/
inductive FdEntry where
  | none | console | file
  | pipe (buf : PipeId) (dir : PipeDir)
  deriving DecidableEq, Repr

/-- `pipe_buf_t`. -/
structure PipeBuf where
  data : Buf := fun _ => 0
  readPos : Nat := 0
  writePos : Nat := 0
  count : Nat := 0
  /-- `read_refs` and `write_refs` -/
  refs : PipeDir → Int := fun _ => 0
  refCount : Int := 0
  /-- `readers` and `writers` -/
  waiting : PipeDir → List Slot := fun _ => []
  /-- every byte stored since `pipe_alloc` -/
  accepted : List UInt8 := []
  /-- every byte copied to a reader since `pipe_alloc` -/
  delivered : List UInt8 := []

/-- `process_state_t`. -/
inductive ProcState where
  | unused | ready | blocked | zombie
  deriving DecidableEq, Repr

/-- Where a process is in the pipe part of `sys_read`. -/
inductive ReadPc where
  /-- at the loop test -/
  | test
  /-- before `wait_queue_block` -/
  | block
  /-- inside `wait_queue_block` -/
  | asleep
  /-- in the copy loop, with the bytes copied so far -/
  | copy (toRead : Nat) (got : List UInt8)
  /-- before `wait_queue_wake_one` -/
  | wake (got : List UInt8)
  deriving DecidableEq, Repr

/-- Where a process is in the pipe part of `sys_write`. -/
inductive WritePc where
  /-- at the loop test -/
  | test
  /-- the buffer was full: before `wait_queue_wake_one` -/
  | full
  /-- before `wait_queue_block` -/
  | block
  /-- inside `wait_queue_block` -/
  | asleep
  /-- behind the loop -/
  | wake
  deriving DecidableEq, Repr

/-- What a process is doing in the kernel. -/
inductive Call where
  /-- it runs its program -/
  | user
  /-- a slot that `process_create` gave up on and nobody runs -/
  | unstarted
  /-- in `sys_waitpid`, behind `scheduler_yield` -/
  | waitpid (pid : Nat)
  | read (buf : PipeId) (count : Nat) (pc : ReadPc)
  | write (buf : PipeId) (rest : List UInt8) (written : Nat) (pc : WritePc)
  deriving DecidableEq, Repr

/-- The end of a pipe a call works on. -/
def Call.onEnd : Call → Option (PipeId × PipeDir)
  | .read b _ _ => some (b, .read)
  | .write b _ _ _ => some (b, .write)
  | _ => none

/-- In a pipe call and not asleep in it. -/
def Call.midway : Call → Bool
  | .read _ _ .asleep | .write _ _ _ .asleep => false
  | .read _ _ _ | .write _ _ _ _ => true
  | _ => false

theorem Call.midway_of_onEnd {call : Call} (idle : call.onEnd = none) : call.midway = false := by
  cases call with
  | read b count pc => cases idle
  | write b rest written pc => cases idle
  | user | unstarted | waitpid _ => rfl

/-- `process_t`. -/
structure Process where
  pid : Nat := pidNone
  parentPid : Nat := pidNone
  state : ProcState := .unused
  exitCode : Int := 0
  waitForPid : Nat := pidNone
  fds : Fd → FdEntry := fun _ => .none
  call : Call := .user

structure System where
  procs : Slot → Process := fun _ => {}
  pool : PipeId → PipeBuf := fun _ => {}
  nextPid : Nat := 1
  /-- the buffers `pipe_release` was applied to, as it found them -/
  releases : List PipeBuf := []

/-- The state `process_init` and `fd_table_init` leave. -/
def boot : System := {}

namespace System

variable (s : System)

def modifyProc (p : Slot) (f : Process → Process) : System :=
  { s with procs := update s.procs p (f (s.procs p)) }

def modifyPipe (b : PipeId) (f : PipeBuf → PipeBuf) : System :=
  { s with pool := update s.pool b (f (s.pool b)) }

def setFd (p : Slot) (fd : Fd) (e : FdEntry) : System :=
  s.modifyProc p fun proc => { proc with fds := update proc.fds fd e }

def setCall (p : Slot) (call : Call) : System :=
  s.modifyProc p fun proc => { proc with call := call }

/-! ## Wait queues (`kernel/sync/wait_queue.c`) -/

/-- `wait_queue_block`, up to the switch to another process. -/
def waitQueueBlock (b : PipeId) (d : PipeDir) (p : Slot) : System :=
  (s.modifyProc p fun proc => { proc with state := .blocked }).modifyPipe b fun pb =>
    { pb with waiting := update pb.waiting d (pb.waiting d ++ [p]) }

/-- Make the first `n` processes of a queue ready and take them off it. -/
def wake (b : PipeId) (d : PipeDir) (n : Nat) : System :=
  { s with
    procs := fun p =>
      if p ∈ ((s.pool b).waiting d).take n then { s.procs p with state := .ready } else s.procs p
    pool := update s.pool b
      { s.pool b with
        waiting := update (s.pool b).waiting d (((s.pool b).waiting d).drop n) } }

def waitQueueWakeOne (b : PipeId) (d : PipeDir) : System := s.wake b d 1

def waitQueueWakeAll (b : PipeId) (d : PipeDir) : System :=
  s.wake b d ((s.pool b).waiting d).length

/-! ## Pipe buffers and descriptors (`kernel/syscall/fd_table.c`) -/

/-- A buffer as `pipe_alloc` hands it out: both ends are referenced once. -/
def pipeInit (b : PipeId) : System :=
  s.modifyPipe b fun pb => { data := pb.data, refs := fun _ => 1, refCount := 2 }

def pipeAlloc : Option (PipeId × System) :=
  match (List.finRange 16).find? fun b => (s.pool b).refCount = 0 with
  | none => none
  | some b => some (b, s.pipeInit b)

def pipeRelease (b : PipeId) : System :=
  { s with releases := s.pool b :: s.releases }.modifyPipe b fun pb =>
    { pb with refCount := 0, refs := fun _ => 0, count := 0, readPos := 0, writePos := 0 }

/-- The references `dup2` and descriptor inheritance add. -/
def addRef (b : PipeId) (d : PipeDir) : System :=
  s.modifyPipe b fun pb =>
    { pb with refCount := pb.refCount + 1, refs := update pb.refs d (pb.refs d + 1) }

/-- One reference less, and the other end is woken if it was the last one of its end. -/
def dropRef (b : PipeId) (d : PipeDir) : System :=
  let s := s.modifyPipe b fun pb => { pb with refs := update pb.refs d (pb.refs d - 1) }
  let s := if (s.pool b).refs d ≤ 0 then s.waitQueueWakeAll b d.other else s
  s.modifyPipe b fun pb => { pb with refCount := pb.refCount - 1 }

/-- The close logic of `fd_free`, which `process_destroy` repeats. -/
def closePipeEnd (b : PipeId) (d : PipeDir) : System :=
  let s := s.dropRef b d
  if (s.pool b).refCount ≤ 0 then s.pipeRelease b else s

/-- Close what a descriptor names and free the descriptor. -/
def closeEntry (p : Slot) (fd : Fd) : System :=
  match (s.procs p).fds fd with
  | .pipe b d => (s.closePipeEnd b d).setFd p fd .none
  | _ => s.setFd p fd .none

end System

def fdOf (fd : Int) : Option Fd :=
  if h : 0 ≤ fd ∧ fd < 16 then some ⟨fd.toNat, by omega⟩ else none

namespace System

variable (s : System)

def fdGet (p : Slot) (fd : Int) : Option FdEntry :=
  match fdOf fd with
  | none => none
  | some fd => if (s.procs p).fds fd = .none then none else some ((s.procs p).fds fd)

def fdFree (p : Slot) (fd : Int) : Int × System :=
  match fdOf fd with
  | none => (-1, s)
  | some fd => if (s.procs p).fds fd = .none then (-1, s) else (0, s.closeEntry p fd)

/-- The slots from `FD_STDIO_COUNT` on that hold no descriptor. -/
def freeFds (p : Slot) : List Fd :=
  (List.finRange 16).filter fun fd => fdStdioCount ≤ fd.val ∧ (s.procs p).fds fd = .none

def fdAlloc (p : Slot) : Int × System :=
  match s.freeFds p with
  | [] => (-1, s)
  | fd :: _ => ((fd.val : Int), s.setFd p fd .file)

/-! ## The process table (`kernel/process/process.c`) -/

/-- How far `process_create` and `elf_load` get with the memory and the file there are. -/
inductive Loading where
  /-- no page for the kernel stack or the page directory -/
  | noMemory
  /-- `elf_load` fails -/
  | badImage
  | loaded
  deriving DecidableEq, Repr

/-- The slot as `process_create` fills it before it asks for memory. -/
def processInit (p : Slot) : System :=
  { s with nextPid := s.nextPid + 1 }.modifyProc p fun _ =>
    { pid := s.nextPid, state := .ready, call := .unstarted }

/-- `process_create`.  When memory runs out the slot stays taken: its state was set before. -/
def processCreate (memory : Bool) : Option Slot × System :=
  match (List.finRange 64).find? fun p => (s.procs p).state = .unused with
  | none => (none, s)
  | some p =>
    if memory then
      (some p, (s.processInit p).modifyProc p fun proc =>
        { proc with fds := fun fd => if fd.val < fdStdioCount then .console else .none })
    else (none, s.processInit p)

/-- The descriptor part of `process_destroy`: console entries are left alone. -/
def destroyFd (p : Slot) (s : System) (fd : Fd) : System :=
  match (s.procs p).fds fd with
  | .file | .pipe _ _ => s.closeEntry p fd
  | _ => s

def processDestroy (p : Slot) : System :=
  ((List.finRange 16).foldl (destroyFd p) s).modifyProc p fun proc =>
    { proc with state := .unused, pid := pidNone, call := .user }

def processGet (pid : Nat) : Option Slot :=
  if pid = pidNone then none
  else (List.finRange 64).find? fun p => (s.procs p).state ≠ .unused ∧ (s.procs p).pid = pid

def table : Slot × Fd → FdEntry := fun x => (s.procs x.1).fds x.2

/-- The descriptors of processes not yet destroyed that name an end of a pipe. -/
def ends (b : PipeId) (d : PipeDir) : Nat :=
  tally (fun x : Slot × Fd =>
    if (s.procs x.1).state = .unused then FdEntry.none else (s.procs x.1).fds x.2) (.pipe b d)

end System

end GinnOS.Kernel
