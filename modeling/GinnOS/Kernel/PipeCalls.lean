import GinnOS.Kernel.Descriptors
import GinnOS.Lib.Run

/-! # System calls on pipes as a step machine

`sys_pipe`, `sys_dup2`, `sys_close`, `sys_read`, `sys_write` (`sys_io.c`), `sys_exec`,
`sys_exit`, `sys_waitpid` (`sys_proc.c`, `exec.c`).  A step is a system call of a process
that runs its program, or one iteration of the loop of a pipe read or write (`Op.run`).
The timer may switch processes between any two steps: the gate of `int 0x80` leaves
interrupts enabled, and only the wait-queue functions mask them.
-/

namespace GinnOS.Kernel

open Lib

inductive SysCall where
  | pipe
  | dup2 (old new : Int)
  | close (fd : Int)
  | open
  | exec (outcome : System.Loading)
  | exit (code : Int)
  | waitpid (pid : Nat)
  | read (fd : Int) (count : Nat)
  | write (fd : Int) (bytes : List UInt8)
  deriving DecidableEq, Repr

inductive Op where
  /-- the process makes a system call -/
  | call (p : Slot) (c : SysCall)
  /-- the process goes on with the call it is in -/
  | run (p : Slot)
  /-- the kernel shell starts a program -/
  | shell (outcome : System.Loading)
  deriving DecidableEq, Repr

inductive Answer where
  /-- the call has not returned, or the step was not possible -/
  | busy
  | ret (code : Int)
  /-- a read returns with these bytes -/
  | data (bytes : List UInt8)
  /-- `sys_pipe` returns 0 and stores the two numbers -/
  | ends (readFd writeFd : Fd)
  /-- the console or a file system answers -/
  | elsewhere
  deriving DecidableEq, Repr

namespace System

variable (s : System)

/-! ## Descriptors -/

/-- `sys_pipe`, with a valid pointer. -/
def sysPipe (p : Slot) : Answer × System :=
  match s.pipeAlloc with
  | none => (.ret (-21), s)
  | some (b, s) =>
    match s.freeFds p with
    | readFd :: writeFd :: _ =>
      (.ends readFd writeFd, (s.setFd p readFd (.pipe b .read)).setFd p writeFd (.pipe b .write))
    | _ => (.ret (-12), s.pipeRelease b)

/-- Copy an entry to a descriptor that is free, and count the reference. -/
def copyEntry (p : Slot) (fd : Fd) (e : FdEntry) : System :=
  match e with
  | .pipe b d => (s.setFd p fd e).addRef b d
  | _ => s.setFd p fd e

def sysDup2 (p : Slot) (old new : Int) : Answer × System :=
  match fdOf old, fdOf new with
  | some oldFd, some newFd =>
    if (s.procs p).fds oldFd = .none then (.ret (-2), s)
    else if oldFd = newFd then (.ret new, s)
    else
      let s := if (s.procs p).fds newFd = .none then s else s.closeEntry p newFd
      (.ret new, s.copyEntry p newFd ((s.procs p).fds oldFd))
  | _, _ => (.ret (-2), s)

def sysClose (p : Slot) (fd : Int) : Answer × System :=
  if fd < fdStdioCount then (.ret (-3), s)
  else
    match s.fdFree p fd with
    | (0, s) => (.ret 0, s)
    | (_, s) => (.ret (-2), s)

/-- The end of `sys_open`, after `vfs_open`. -/
def sysOpen (p : Slot) : Answer × System :=
  match s.fdAlloc p with
  | (fd, s) => if fd < 0 then (.ret (-12), s) else (.ret fd, s)

/-! ## Processes -/

/-- One iteration of the inheritance loop of `exec_program`. -/
def inheritFd (parent child : Slot) (s : System) (fd : Fd) : System :=
  if fd.val < fdStdioCount then s.copyEntry child fd ((s.procs parent).fds fd)
  else
    match (s.procs parent).fds fd with
    -- pipe ends beyond the standard ones are closed on exec
    | .pipe _ _ => s.setFd child fd .none
    | e => s.setFd child fd e

def execProgram (parent : Option Slot) (outcome : Loading) : Int × System :=
  match s.processCreate (outcome ≠ .noMemory) with
  | (none, s) => (-1, s)
  | (some child, s) =>
    if outcome = .badImage then (-1, s.processDestroy child)
    else
      match parent with
      | some p =>
        let s := s.modifyProc child fun proc => { proc with parentPid := (s.procs p).pid }
        let s := (List.finRange 16).foldl (inheritFd p child) s
        ((s.procs child).pid, s.setCall child .user)
      | none => ((s.procs child).pid, s.setCall child .user)

def sysExec (p : Slot) (outcome : Loading) : Answer × System :=
  match s.execProgram (some p) outcome with
  | (ret, s) => if ret < 0 then (.ret (-5), s) else (.ret ret, s)

/-- A parent that waits for this process in `sys_waitpid` is made ready. -/
def wakeParent (parentPid pid : Nat) : System :=
  match s.processGet parentPid with
  | none => s
  | some parent =>
    if (s.procs parent).state = .blocked ∧ (s.procs parent).waitForPid = pid then
      s.modifyProc parent fun proc => { proc with state := .ready, waitForPid := pidNone }
    else s

/-- The process is a zombie: it keeps its slot and its descriptors. -/
def leave (p : Slot) (code : Int) : System :=
  s.modifyProc p fun proc => { proc with state := .zombie, exitCode := code }

def usermodeExit (p : Slot) (code : Int) : System :=
  if (s.procs p).parentPid ≠ pidNone then
    (s.leave p code).wakeParent (s.procs p).parentPid (s.procs p).pid
  -- started by the kernel shell, which destroys it
  else s.processDestroy p

/-- `sys_waitpid`, up to `scheduler_yield`. -/
def sysWaitpid (p : Slot) (pid : Nat) : Answer × System :=
  match s.processGet pid with
  | none => (.ret (-19), s)
  | some child =>
    if (s.procs child).parentPid ≠ (s.procs p).pid then (.ret (-20), s)
    else if (s.procs child).state = .zombie then
      (.ret (s.procs child).exitCode, s.processDestroy child)
    else
      (.busy, s.modifyProc p fun proc =>
        { proc with state := .blocked, waitForPid := pid, call := .waitpid pid })

/-- `sys_waitpid`, behind `scheduler_yield`. -/
def waitpidResume (p : Slot) (pid : Nat) : Answer × System :=
  let s := s.setCall p .user
  match s.processGet pid with
  | none => (.ret (-19), s)
  | some child =>
    if (s.procs child).state = .zombie then
      (.ret (s.procs child).exitCode, s.processDestroy child)
    else (.ret (-19), s)

/-! ## Reading and writing -/

/-- `sys_read`, up to the pipe's loop. -/
def sysRead (p : Slot) (fd : Int) (count : Nat) : Answer × System :=
  if count = 0 then (.ret 0, s)
  else
    match s.fdGet p fd with
    | some (.pipe b .read) => (.busy, s.setCall p (.read b count .test))
    | some (.pipe _ .write) | some .none | none => (.ret (-2), s)
    | some .console | some .file => (.elsewhere, s)

/-- `sys_write`, up to the pipe's loop. -/
def sysWrite (p : Slot) (fd : Int) (bytes : List UInt8) : Answer × System :=
  if bytes = [] then (.ret 0, s)
  else
    match s.fdGet p fd with
    | some (.pipe b .write) => (.busy, s.setCall p (.write b bytes 0 .test))
    | some (.pipe _ .read) => (.ret (-3), s)
    | some .none | none => (.ret (-2), s)
    | some .console | some .file => (.elsewhere, s)

/-- Copy the byte at `read_pos` out of the ring. -/
def takeByte (b : PipeId) : System :=
  s.modifyPipe b fun pb =>
    { pb with
      readPos := (pb.readPos + 1) % pipeBufSize
      delivered := pb.delivered ++ [pb.data pb.readPos] }

/-- `pb->count -= to_read`. -/
def shrink (b : PipeId) (toRead : Nat) : System :=
  s.modifyPipe b fun pb => { pb with count := (pb.count + 4294967296 - toRead) % 4294967296 }

/-- Store a byte at `write_pos`. -/
def putByte (b : PipeId) (byte : UInt8) : System :=
  s.modifyPipe b fun pb =>
    { pb with
      data := Function.update pb.data pb.writePos byte
      writePos := (pb.writePos + 1) % pipeBufSize
      count := pb.count + 1
      accepted := pb.accepted ++ [byte] }

def readStep (p : Slot) (b : PipeId) (count : Nat) : ReadPc → Answer × System
  | .test | .asleep =>
    if (s.pool b).count = 0 then
      if (s.pool b).refs .write ≤ 0 then (.ret 0, s.setCall p .user)
      else (.busy, s.setCall p (.read b count .block))
    else
      let toRead := if (s.pool b).count < count then (s.pool b).count else count
      (.busy, s.setCall p (.read b count (.copy toRead [])))
  | .block => (.busy, (s.waitQueueBlock b .read p).setCall p (.read b count .asleep))
  | .copy toRead got =>
    if got.length < toRead then
      let byte := (s.pool b).data (s.pool b).readPos
      (.busy, (s.takeByte b).setCall p (.read b count (.copy toRead (got ++ [byte]))))
    else (.busy, (s.shrink b toRead).setCall p (.read b count (.wake got)))
  | .wake got => (.data got, (s.waitQueueWakeOne b .write).setCall p .user)

/-- The next step of a pipe write; `rest` is what is left of the bytes. -/
def writeStep (p : Slot) (b : PipeId) (rest : List UInt8) (written : Nat) : WritePc → Answer × System
  | .test | .asleep =>
    match rest with
    | [] => (.busy, s.setCall p (.write b [] written .wake))
    | byte :: rest =>
      if (s.pool b).refs .read ≤ 0 then
        (.ret (if written > 0 then written else -7), s.setCall p .user)
      else if (s.pool b).count ≥ pipeBufSize then
        (.busy, s.setCall p (.write b (byte :: rest) written .full))
      else (.busy, (s.putByte b byte).setCall p (.write b rest (written + 1) .test))
  | .full => (.busy, (s.waitQueueWakeOne b .read).setCall p (.write b rest written .block))
  | .block => (.busy, (s.waitQueueBlock b .write p).setCall p (.write b rest written .asleep))
  | .wake => (.ret written, (s.waitQueueWakeOne b .read).setCall p .user)

/-! ## Steps -/

/-- A system call of a process that runs its program. -/
def sysCall (p : Slot) : SysCall → Answer × System
  | .pipe => s.sysPipe p
  | .dup2 old new => s.sysDup2 p old new
  | .close fd => s.sysClose p fd
  | .open => s.sysOpen p
  | .exec outcome => s.sysExec p outcome
  | .exit code => (.busy, s.usermodeExit p code)
  | .waitpid pid => s.sysWaitpid p pid
  | .read fd count => s.sysRead p fd count
  | .write fd bytes => s.sysWrite p fd bytes

/-- The next step of a process that is in a call. -/
def resume (p : Slot) : Answer × System :=
  match (s.procs p).call with
  | .user | .unstarted => (.busy, s)
  | .waitpid pid => s.waitpidResume p pid
  | .read b count pc => s.readStep p b count pc
  | .write b rest written pc => s.writeStep p b rest written pc

/-- Only a runnable process takes a step, and only one in its program makes a call. -/
def step (s : System) : Op → Answer × System
  | .call p c =>
    if (s.procs p).state = .ready ∧ (s.procs p).call = .user then s.sysCall p c else (.busy, s)
  | .run p => if (s.procs p).state = .ready then s.resume p else (.busy, s)
  | .shell outcome =>
    match s.execProgram none outcome with
    | (code, s) => (.ret code, s)

end System

end GinnOS.Kernel
