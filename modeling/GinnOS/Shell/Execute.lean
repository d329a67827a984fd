import GinnOS.Kernel.PipeCalls
import GinnOS.Lib.Program
import GinnOS.Shell.Pipeline

/-! # Executing a pipeline (`user/sh/execute.c`)

The functions of the shell are programs that make system calls; a negative result is -1, as the
wrappers of `libc/src/unistd.c` return it.  `machine` executes such a program as the process `p` of the
kernel, one step at a time and among the steps of all other processes; what the file system and
the loader answer comes from outside.
-/

namespace GinnOS.Shell

open Lib Kernel

inductive Request where
  | open (path : List UInt8)
  | create (path : List UInt8)
  | ftruncate (fd : Int)
  | lseek (fd offset whence : Int)
  | dup2 (old new : Int)
  | close (fd : Int)
  | pipe
  | exec (path : List UInt8) (argv : List (List UInt8))
  | waitpid (pid : Int)
  | write (fd : Int) (text : List UInt8)

abbrev Sh := Program Request Answer

/-- What a wrapper of the C library returns. -/
def result : Answer → Int
  | .ret code => if code < 0 then -1 else code
  | _ => 0

def ask (req : Request) : Sh Int := do return result (← Program.request req)

def ascii (text : List Char) : List UInt8 := text.map Char.toUInt8

/-- The pieces that `printf` writes to the standard output. -/
def printf : List (List UInt8) → Sh Unit
  | [] => pure ()
  | piece :: rest => do
    let _ ← ask (.write 1 piece)
    printf rest

/-! ## Finding a command -/

def pathBufSize : Nat := 256

/-- The files that `resolve_path` tries for a command, one for each directory of `PATH`. -/
def candidates (cmd : List UInt8) : (rounds : Nat) → (p : List UInt8) → List (List UInt8)
  | 0, _ => []
  | _ + 1, [] => []
  | rounds + 1, p =>
    let dir := (p.takeWhile (· != 58)).take (pathBufSize - 2)
    let rest := p.drop dir.length
    let rest := if rest.head? = some 58 then rest.tail else rest
    let dir := if dir ≠ [] ∧ dir.getLast? ≠ some 47 then dir ++ [47] else dir
    if pathBufSize ≤ dir.length + cmd.length then candidates cmd rounds rest else (dir ++ cmd) :: candidates cmd rounds rest

def tryPaths : List (List UInt8) → Sh (Option (List UInt8))
  | [] => pure none
  | path :: rest => do
    let fd ← ask (.open path)
    if 0 ≤ fd then
      let _ ← ask (.close fd)
      pure (some path)
    else tryPaths rest

/-- `resolve_path`; `path` is the value of `PATH`. -/
def resolvePath (path : Option (List UInt8)) (cmd : List UInt8) : Sh (Option (List UInt8)) :=
  if 47 ∈ cmd then pure (some (cmd.take (pathBufSize - 1)))
  else
    let dirs := match path with
      | none | some [] => ascii ['/', 'b', 'i', 'n']
      | some dirs => dirs
    tryPaths (candidates cmd dirs.length dirs)

/-! ## Redirections and stages -/

def redirectInput : Option Redir → Sh Bool
  | none => pure true
  | some redir => do
    let fd ← ask (.open redir.filename)
    if fd < 0 then
      printf [ascii "skl: cannot open '".toList, redir.filename, ascii "' for input\n".toList]
      pure false
    else
      let _ ← ask (.dup2 fd 0)
      let _ ← ask (.close fd)
      pure true

/-- The new output is cut, or continued at its end. -/
def positionOutput (type : RedirType) (fd : Int) : Sh Unit :=
  match type with
  | .out => do
    let _ ← ask (.ftruncate fd)
  | .append => do
    let _ ← ask (.lseek fd 0 2)
  | .input => pure ()

def redirectOutput : Option Redir → Sh Bool
  | none => pure true
  | some redir => do
    let _ ← ask (.create redir.filename)
    let fd ← ask (.open redir.filename)
    if fd < 0 then
      printf [ascii "skl: cannot open '".toList, redir.filename, ascii "' for output\n".toList]
      pure false
    else
      positionOutput redir.type fd
      let _ ← ask (.dup2 fd 1)
      let _ ← ask (.close fd)
      pure true

/-- `apply_redirections`, and whether it succeeds. -/
def applyRedirections (stage : Stage) : Sh Bool := do
  if ← redirectInput stage.redirIn then redirectOutput stage.redirOut else pure false

def restoreStdio : Sh Unit := do
  let _ ← ask (.dup2 2 0)
  let _ ← ask (.dup2 2 1)

def execStage (path : Option (List UInt8)) (stage : Stage) : Sh Int :=
  match stage.tokens with
  | [] => pure (-1)
  | cmd :: _ => do
    match ← resolvePath path cmd with
    | none =>
      printf [cmd, ascii ": command not found\n".toList]
      pure (-1)
    | some file => ask (.exec file stage.tokens)

/-! ## Pipelines -/

def Stage.hasRedir (stage : Stage) : Bool := stage.redirIn.isSome || stage.redirOut.isSome

/-- A pipeline of one command; the result is the exit code that `$?` shows. -/
def executeSingle (path : Option (List UInt8)) (stage : Stage) : Sh Int := do
  let applied ← if stage.hasRedir then applyRedirections stage else pure true
  if applied then
    let child ← execStage path stage
    if stage.hasRedir then restoreStdio
    if child < 0 then pure 127 else ask (.waitpid child)
  else
    restoreStdio
    pure 1

/-- The loop that creates the pipes. -/
def createPipes : (count : Nat) → (made : List (Int × Int)) → Sh (Option (List (Int × Int)))
  | 0, made => pure (some made)
  | count + 1, made => do
    match ← Program.request Request.pipe with
    | .ends readFd writeFd => createPipes count (made ++ [((readFd.val : Int), (writeFd.val : Int))])
    | _ => pure none

/-- A redirection in a pipeline; a file that cannot be opened is passed over. -/
def override (redir : Option Redir) (create : Bool) (target : Int) : Sh Unit :=
  match redir with
  | none => pure ()
  | some redir => do
    if create then
      let _ ← ask (.create redir.filename)
    let fd ← ask (.open redir.filename)
    if 0 ≤ fd then
      let _ ← ask (.dup2 fd target)
      let _ ← ask (.close fd)

/-- A pipe end over a standard descriptor. -/
def connect (fd : Option Int) (target : Int) : Sh Unit :=
  match fd with
  | none => pure ()
  | some fd => do
    let _ ← ask (.dup2 fd target)

/-- The loop that spawns the stages: `previous` is the read end of the pipe from the stage before, `pipes` begins with
the pipe to the next one. -/
def spawnStages (path : Option (List UInt8)) : (previous : Option Int) → List (Int × Int) → List Stage → Sh (List Int)
  | _, _, [] => pure []
  | previous, pipes, stage :: stages => do
    connect previous 0
    connect (pipes.head?.map Prod.snd) 1
    override stage.redirIn false 0
    override stage.redirOut true 1
    let child ← execStage path stage
    restoreStdio
    let children ← spawnStages path (pipes.head?.map Prod.fst) pipes.tail stages
    pure (child :: children)

def closePipes : List (Int × Int) → Sh Unit
  | [] => pure ()
  | (readFd, writeFd) :: rest => do
    let _ ← ask (.close readFd)
    let _ ← ask (.close writeFd)
    closePipes rest

def waitChildren : (children : List Int) → (lastExit : Int) → Sh Int
  | [], lastExit => pure lastExit
  | child :: rest, lastExit => do
    if 0 ≤ child then
      let code ← ask (.waitpid child)
      waitChildren rest code
    else waitChildren rest lastExit

/-- `execute_pipeline`; the result is the new exit code, if there is one. -/
def executePipeline (path : Option (List UInt8)) : List Stage → Sh (Option Int)
  | [] => pure none
  | [stage] => do return some (← executeSingle path stage)
  | stages => do
    match ← createPipes (stages.length - 1) [] with
    | none =>
      printf [ascii "skl: failed to create pipe\n".toList]
      pure (some 1)
    | some pipes =>
      let children ← spawnStages path none pipes stages
      closePipes pipes
      return some (← waitChildren children 0)

/-! ## The shell as a process -/

/-- What answers from outside of the process table: the file system, and the loader. -/
structure Outside where
  code : Int
  loading : System.Loading

/-- The start of a system call of the process `p`. -/
def issue (p : Slot) (s : System) (req : Request) (out : Outside) : Answer × System :=
  match req with
  | .open _ => if out.code < 0 then (.ret out.code, s) else s.sysOpen p
  | .create _ | .ftruncate _ | .lseek _ _ _ => (.ret out.code, s)
  | .dup2 old new => s.sysDup2 p old new
  | .close fd => s.sysClose p fd
  | .pipe => s.sysPipe p
  | .exec _ _ => if out.code < 0 then (.ret out.code, s) else s.sysExec p out.loading
  | .waitpid pid => s.sysWaitpid p pid.toNat
  | .write fd text => s.sysWrite p fd text

/-- A step of the process `p` in a system call: it begins the call, or goes on with it. -/
def perform (p : Slot) (s : System) (req : Request) (begun : Bool) (out : Outside) : Program.Progress Answer × System :=
  if (s.procs p).state = .ready then
    match (if begun then s.resume p else issue p s req out) with
    | (.busy, s) => (.pending, s)
    | (ans, s) => (.answer ans, s)
  else (.stalled, s)

/-- A step of the kernel while the process `p` executes a program of the shell. -/
def machine {α : Type} (p : Slot) :
    System × Program.Thread Request Answer α → Program.Move Outside Op → Unit × (System × Program.Thread Request Answer α) :=
  Program.step (perform p) fun s op => (s.step op).2

end GinnOS.Shell
