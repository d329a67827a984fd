import GinnOS.Kernel.OwnTables
import GinnOS.Shell.Execute

/-! # The shell's descriptors after a pipeline

`Effect` says what a call does to the descriptor table of the process that makes it, and the kernel
does just that (`refines`).  The pipeline's loops then leave the table as it was, but for one exit: when
a call of `pipe` fails after an earlier one has succeeded, the shell returns and the descriptors of
the earlier ones stay open (`failed_pipe_leaks`).
-/

namespace GinnOS.Shell

open Lib Kernel List Function Kernel.System

variable {fd f r w : Fd} {req : Request} {target : Int} {pipes : List (Int × Int)}

abbrev Descriptors := Fd → FdEntry

/-- The console on 0, 1 and 2, and nothing else. -/
def consoleOnly : Descriptors := fun fd => if fd.val < fdStdioCount then .console else .none

/-- Nothing is open beyond the standard descriptors. -/
def NoOthers (t : Descriptors) : Prop := ∀ fd : Fd, fdStdioCount ≤ fd.val → t fd = .none
  deriving Decidable

/-- The table after `sys_dup2`. -/
def dup2Table (t : Descriptors) (old new : Int) : Descriptors :=
  match fdOf old, fdOf new with
  | some old, some new => if t old = .none then t else update t new (t old)
  | _, _ => t

/-- The table after `sys_close`. -/
def closeTable (t : Descriptors) (fd : Int) : Descriptors :=
  match fdOf fd with
  | some fd => if fd.val < fdStdioCount then t else update t fd .none
  | none => t

/-- A descriptor that a call may take. -/
def Free (t : Descriptors) (fd : Fd) : Prop := fdStdioCount ≤ fd.val ∧ t fd = .none

/-- What a call does to the table of its process, if `pipe` does not fail with other descriptors open. -/
def Effect : Request → Descriptors → Answer → Descriptors → Prop
  | .open _, t, ans, t' => (∃ code, ans = .ret code ∧ code < 0 ∧ t' = t) ∨
      ∃ fd : Fd, ans = .ret fd.val ∧ Free t fd ∧ t' = update t fd .file
  | .pipe, t, ans, t' => ((∀ r w, ans ≠ .ends r w) ∧ NoOthers t ∧ t' = t) ∨ ∃ r w b, ans = .ends r w ∧ Free t r ∧ Free t w ∧
      t' = update (update t r (.pipe b .read)) w (.pipe b .write)
  | .dup2 old new, t, _, t' => t' = dup2Table t old new
  | .close fd, t, _, t' => t' = closeTable t fd
  | _, t, _, t' => t' = t

/-- Before a call of `pipe`: it will succeed, or nothing else is open. -/
def PipeReady (p : Slot) (s : System) : Request → Prop
  | .pipe => NoOthers (s.procs p).fds ∨ (∃ b, (s.pool b).refCount = 0) ∧ 2 ≤ (s.freeFds p).length
  | _ => True

/-! ## The kernel does what the effect says -/

variable {s s' : System} {p : Slot} {t t' : Descriptors}

theorem fds_setFd (fd : Fd) (entry : FdEntry) : ((s.setFd p fd entry).procs p).fds = update (s.procs p).fds fd entry := by
  rw [setFd, modifyProc_procs_self]

theorem fds_copyEntry (fd : Fd) (entry : FdEntry) :
    ((s.copyEntry p fd entry).procs p).fds = update (s.procs p).fds fd entry := by
  cases entry <;> exact fds_setFd fd _

theorem fds_pipeInit (b : PipeId) : ((s.pipeInit b).procs p).fds = (s.procs p).fds := rfl

theorem free_of_mem (member : fd ∈ s.freeFds p) : Free (s.procs p).fds fd := by
  have known := (mem_filter.mp member).2
  rwa [decide_eq_true_eq] at known

theorem sysDup2_effect (old new : Int) : ((s.sysDup2 p old new).2.procs p).fds = dup2Table (s.procs p).fds old new := by
  rw [sysDup2, dup2Table]
  cases fdOf old with
  | none => rfl
  | some oldFd =>
    cases fdOf new with
    | none => rfl
    | some newFd =>
      dsimp only
      by_cases closed : (s.procs p).fds oldFd = .none
      · rw [if_pos closed, if_pos closed]
      · rw [if_neg closed, if_neg closed]
        split
        · next same =>
          subst same
          rw [update_eq_self]
        · next different =>
          split
          · rw [fds_copyEntry]
          · rw [fds_copyEntry, closeEntry_fds, update_of_ne different, update_idem]

theorem fdOf_some {fd : Int} (isFd : fdOf fd = some f) : (f.val : Int) = fd := by
  rw [fdOf] at isFd
  split at isFd
  · cases isFd
    show (fd.toNat : Int) = fd
    omega
  · cases isFd

theorem sysClose_effect (fd : Int) : ((s.sysClose p fd).2.procs p).fds = closeTable (s.procs p).fds fd := by
  rw [sysClose, closeTable, fdFree]
  cases isFd : fdOf fd with
  | none =>
    split <;> rfl
  | some f =>
    have same := fdOf_some isFd
    dsimp only
    by_cases standard : fd < fdStdioCount
    · rw [if_pos standard, if_pos (show f.val < fdStdioCount by omega)]
    · rw [if_neg standard, if_neg (show ¬ f.val < fdStdioCount by omega)]
      by_cases isFree : (s.procs p).fds f = .none
      · rw [if_pos isFree, ← isFree, update_eq_self]
        rfl
      · rw [if_neg isFree]
        exact closeEntry_fds

section

variable (alive : Alive p s)

include alive

theorem alive_setFd (fd : Fd) (entry : FdEntry) : Alive p (s.setFd p fd entry) := by
  rw [Alive, setFd, modifyProc_procs_self]
  exact alive

theorem alive_copyEntry (fd : Fd) (entry : FdEntry) : Alive p (s.copyEntry p fd entry) := by
  cases entry with
  | none | console | file => exact alive_setFd alive fd _
  | pipe b d => exact alive_setFd alive fd _

theorem alive_closeEntry (fd : Fd) : Alive p (s.closeEntry p fd) := by
  rw [closeEntry]
  split
  · exact alive_setFd (Keeps.closePipeEnd.keep alive).1 fd _
  · exact alive_setFd alive fd _

theorem alive_sysDup2 (old new : Int) : Alive p (s.sysDup2 p old new).2 := by
  rw [sysDup2]
  split
  · split
    · exact alive
    · split
      · exact alive
      · split
        · exact alive_copyEntry alive _ _
        · exact alive_copyEntry (alive_closeEntry alive _) _ _
  · exact alive

theorem alive_sysClose (fd : Int) : Alive p (s.sysClose p fd).2 := by
  have freed : Alive p (s.fdFree p fd).2 := by
    rw [fdFree]
    split
    · exact alive
    · split
      · exact alive
      · exact alive_closeEntry alive _
  rw [sysClose]
  split
  · exact alive
  · split
    · next s' isFree => rwa [isFree] at freed
    · next s' _ isFree => rwa [isFree] at freed

/-- `sys_open`, when `vfs_open` has succeeded. -/
theorem sysOpen_effect (path : List UInt8) :
    Alive p (s.sysOpen p).2 ∧ (s.sysOpen p).1 ≠ .busy ∧ Effect (.open path) (s.procs p).fds (s.sysOpen p).1 ((s.sysOpen p).2.procs p).fds := by
  rw [sysOpen, fdAlloc]
  cases isFree : s.freeFds p with
  | nil => exact ⟨alive, (by simp), .inl ⟨-12, rfl, by decide, rfl⟩⟩
  | cons fd rest =>
    have free : Free (s.procs p).fds fd := free_of_mem (by rw [isFree]; exact mem_cons_self)
    dsimp only
    rw [if_neg (show ¬ (fd.val : Int) < 0 by omega)]
    exact ⟨alive_setFd alive fd _, (by simp), .inr ⟨fd, rfl, free, fds_setFd fd _⟩⟩

theorem sysPipe_effect (ready : PipeReady p s .pipe) :
    Alive p (s.sysPipe p).2 ∧ (s.sysPipe p).1 ≠ .busy ∧ Effect .pipe (s.procs p).fds (s.sysPipe p).1 ((s.sysPipe p).2.procs p).fds := by
  rw [sysPipe, pipeAlloc]
  cases found : (finRange 16).find? fun b => decide ((s.pool b).refCount = 0) with
  | none =>
    refine ⟨alive, (by simp), .inl ⟨(by simp), ?_, rfl⟩⟩
    rcases ready with nothing | ⟨⟨b, isFree⟩, -⟩
    · exact nothing
    · exact absurd (decide_eq_true isFree) (find?_eq_none.mp found b (mem_finRange b))
  | some b =>
    have alive' : Alive p (s.pipeInit b) := alive
    dsimp only
    split
    · next r w rest isFree =>
      have freeR : Free (s.procs p).fds r := free_of_mem (s := s.pipeInit b) (by rw [isFree]; exact mem_cons_self)
      have freeW : Free (s.procs p).fds w := free_of_mem (s := s.pipeInit b) (by
        rw [isFree]
        exact mem_cons_of_mem _ mem_cons_self)
      refine ⟨alive_setFd (alive_setFd alive' r _) w _, (by simp), .inr ⟨r, w, b, rfl, freeR, freeW, ?_⟩⟩
      rw [fds_setFd, fds_setFd, fds_pipeInit]
    · next few =>
      refine ⟨alive', (by simp), .inl ⟨(by simp), ?_, rfl⟩⟩
      rcases ready with nothing | ⟨-, enough⟩
      · exact nothing
      · rcases isFree : s.freeFds p with _ | ⟨r, _ | ⟨w, rest⟩⟩
        · rw [isFree] at enough
          cases enough
        · rw [isFree] at enough
          exact absurd enough (by simp)
        · exact absurd isFree (few r w rest)

end

/-- The calls that may be left pending. -/
def Slow : Request → Prop
  | .waitpid _ | .write _ _ => True
  | _ => False

theorem effect_of_eq {ans : Answer} (slow : Slow req) (same : t' = t) : Effect req t ans t' := by
  cases req with
  | waitpid pid => exact same
  | write fd text => exact same
  | _ => cases slow

theorem issue_effect (alive : Alive p s) (ready : PipeReady p s req) (out : Outside) :
    Alive p (issue p s req out).2 ∧
      (Slow req ∧ ((issue p s req out).2.procs p).fds = (s.procs p).fds ∨
        (issue p s req out).1 ≠ .busy ∧ Effect req (s.procs p).fds (issue p s req out).1 ((issue p s req out).2.procs p).fds) := by
  cases req with
  | «open» path =>
    rw [issue]
    split
    · next failed => exact ⟨alive, .inr ⟨(by simp), .inl ⟨_, rfl, failed, rfl⟩⟩⟩
    · obtain ⟨alive', returned, effect⟩ := sysOpen_effect alive path
      exact ⟨alive', .inr ⟨returned, effect⟩⟩
  | create path => exact ⟨alive, .inr ⟨(fun same => by cases same), rfl⟩⟩
  | ftruncate fd => exact ⟨alive, .inr ⟨(fun same => by cases same), rfl⟩⟩
  | lseek fd offset whence => exact ⟨alive, .inr ⟨(fun same => by cases same), rfl⟩⟩
  | dup2 old new =>
    refine ⟨alive_sysDup2 alive old new, .inr ⟨?_, sysDup2_effect old new⟩⟩
    rw [issue, sysDup2]
    split
    · split
      · simp
      · split
        · simp
        · simp
    · simp
  | close fd =>
    refine ⟨alive_sysClose alive fd, .inr ⟨?_, sysClose_effect fd⟩⟩
    rw [issue, sysClose]
    split
    · simp
    · split
      · simp
      · simp
  | pipe =>
    obtain ⟨alive', returned, effect⟩ := sysPipe_effect alive ready
    exact ⟨alive', .inr ⟨returned, effect⟩⟩
  | exec path argv =>
    rw [issue]
    split
    · exact ⟨alive, .inr ⟨(by simp), rfl⟩⟩
    · obtain ⟨alive', same⟩ := (Keeps.sysExec (p := p) (q := p) out.loading).keep alive
      refine ⟨alive', .inr ⟨?_, same⟩⟩
      rw [sysExec]
      dsimp only
      split
      · simp
      · simp
  | waitpid pid =>
    obtain ⟨alive', same⟩ := (Keeps.sysWaitpid (p := p) (q := p) pid.toNat).keep alive
    exact ⟨alive', .inl ⟨trivial, same⟩⟩
  | write fd text =>
    obtain ⟨alive', same⟩ := (Keeps.sysWrite (p := p) (q := p) fd text).keep alive
    exact ⟨alive', .inl ⟨trivial, same⟩⟩

/-- The kernel, with any steps of other processes, does to the table what the effect says. -/
theorem refines (p : Slot) : Program.Refines (perform p) (fun s op => (s.step op).2) (PipeReady p) (Foreign p) Slow Effect
    (fun s => (s.procs p).fds) (Alive p) where
  stalled s req begun out s' performed := by
    rw [perform] at performed
    split at performed
    · split at performed
      · cases performed
      · cases performed
    · cases performed
      rfl
  pending s req begun out s' alive slow ready performed := by
    rw [perform] at performed
    split at performed
    · split at performed
      · next isBusy =>
        cases performed
        cases begun with
        | true =>
          have kept := (Keeps.resume (p := p) (q := p)).keep alive
          rw [if_pos rfl] at isBusy
          rw [isBusy] at kept
          exact ⟨kept.1, slow rfl, kept.2⟩
        | false =>
          have known := issue_effect alive ready out
          rw [if_neg Bool.false_ne_true] at isBusy
          rw [isBusy] at known
          rcases known with ⟨alive', ⟨isSlow, same⟩ | ⟨returned, -⟩⟩
          · exact ⟨alive', isSlow, same⟩
          · exact absurd rfl returned
      · cases performed
    · cases performed
  answered s req begun out ans s' alive slow ready performed := by
    rw [perform] at performed
    split at performed
    · split at performed
      · cases performed
      · next isAnswer =>
        cases performed
        cases begun with
        | true =>
          have kept := (Keeps.resume (p := p) (q := p)).keep alive
          rw [if_pos rfl] at isAnswer
          rw [isAnswer] at kept
          exact ⟨kept.1, effect_of_eq (slow rfl) kept.2⟩
        | false =>
          have known := issue_effect alive ready out
          rw [if_neg Bool.false_ne_true] at isAnswer
          rw [isAnswer] at known
          rcases known with ⟨alive', ⟨isSlow, same⟩ | ⟨-, effect⟩⟩
          · exact ⟨alive', effect_of_eq isSlow same⟩
          · exact ⟨alive', effect⟩
    · cases performed
  others s op alive foreign := (Keeps.step foreign).keep alive

/-! ## The programs of the shell -/

/-- The program leaves the table as `Post` says. -/
abbrev Leaves {α : Type} (prog : Sh α) (Post : α → Descriptors → Prop) (t : Descriptors) : Prop := prog.Ensures Effect Post t

variable {α β : Type} {t₀ : Descriptors}

theorem leaves_bind {prog : Sh α} {f : α → Sh β} {Mid : α → Descriptors → Prop} {Post : β → Descriptors → Prop}
    (first : Leaves prog Mid t) (second : ∀ a t, Mid a t → Leaves (f a) Post t) : Leaves (prog >>= f) Post t :=
  Program.ensures_bind first second

theorem leaves_ask {Post : Int → Descriptors → Prop} (known : ∀ ans t', Effect req t ans t' → Post (result ans) t') :
    Leaves (ask req) Post t :=
  known

/-- A call that touches no descriptor. -/
def Harmless (req : Request) : Prop := ∀ t ans t', Effect req t ans t' → t' = t

theorem leaves_harmless (harmless : Harmless req) : Leaves (ask req) (fun _ t' => t' = t) t :=
  leaves_ask fun ans t' effect => harmless t ans t' effect

theorem printf_leaves (pieces : List (List UInt8)) : Leaves (printf pieces) (fun _ t' => t' = t) t := by
  induction pieces with
  | nil => exact rfl
  | cons piece rest ih =>
    refine leaves_bind (leaves_harmless fun _ _ _ effect => effect) fun _ t' same => ?_
    rw [same]
    exact ih

/-- What `open` leaves: an error, or a new descriptor. -/
def AfterOpen (t : Descriptors) (code : Int) (t' : Descriptors) : Prop :=
  (code < 0 ∧ t' = t) ∨ ∃ fd : Fd, code = fd.val ∧ Free t fd ∧ t' = update t fd .file

theorem open_leaves (path : List UInt8) : Leaves (ask (.open path)) (AfterOpen t) t := by
  refine leaves_ask fun ans t' effect => ?_
  rcases effect with ⟨code, rfl, failed, same⟩ | ⟨fd, rfl, free, isOpen⟩
  · refine .inl ⟨?_, same⟩
    rw [result, if_pos failed]
    decide
  · refine .inr ⟨fd, ?_, free, isOpen⟩
    rw [result, if_neg (show ¬ (fd.val : Int) < 0 by omega)]

theorem fdOf_val (fd : Fd) : fdOf fd.val = some fd := by
  rw [fdOf, dif_pos ⟨by omega, by have := fd.isLt; omega⟩]
  rfl

theorem closeTable_apply (t : Descriptors) (fd : Int) (f : Fd) :
    closeTable t fd f = if (f.val : Int) = fd ∧ fdStdioCount ≤ f.val then .none else t f := by
  rw [closeTable]
  cases isFd : fdOf fd with
  | none =>
    have other : (f.val : Int) ≠ fd := by
      rintro rfl
      rw [fdOf_val] at isFd
      cases isFd
    rw [if_neg fun known => other known.1]
  | some g =>
    have same := fdOf_some isFd
    dsimp only
    by_cases here : f = g
    · subst here
      by_cases standard : f.val < fdStdioCount
      · rw [if_pos standard, if_neg fun known => Nat.not_le_of_lt standard known.2]
      · rw [if_neg standard, update_self, if_pos ⟨same, Nat.le_of_not_lt standard⟩]
    · have other : (f.val : Int) ≠ fd := by
        intro isF
        exact here (Fin.ext (by omega))
      have apart : ¬ ((f.val : Int) = fd ∧ fdStdioCount ≤ f.val) := fun known => other known.1
      rw [if_neg apart]
      split
      · rfl
      · rw [update_of_ne here]

theorem closeTable_opened (free : Free t fd) : closeTable (update t fd .file) fd.val = t := by
  funext f
  rw [closeTable_apply]
  split
  · next here =>
    rw [Fin.ext (show f.val = fd.val by omega)]
    exact free.2.symm
  · next other =>
    refine update_of_ne ?_ ..
    rintro rfl
    exact other ⟨rfl, free.1⟩

theorem tryPaths_leaves (paths : List (List UInt8)) : Leaves (tryPaths paths) (fun _ t' => t' = t) t := by
  induction paths with
  | nil => exact rfl
  | cons path rest ih =>
    refine leaves_bind (open_leaves path) fun fd t' opened => ?_
    rcases opened with ⟨failed, rfl⟩ | ⟨f, rfl, free, rfl⟩
    · rw [if_neg (show ¬ 0 ≤ fd by omega)]
      exact ih
    · rw [if_pos (show 0 ≤ (f.val : Int) by omega)]
      have closed : Leaves (ask (.close f.val)) (fun _ t' => t' = t) (update t f .file) :=
        leaves_ask fun ans t' effect => (show t' = closeTable _ _ from effect).trans (closeTable_opened free)
      exact leaves_bind closed fun _ t' same => same

theorem resolvePath_leaves (path : Option (List UInt8)) (cmd : List UInt8) :
    Leaves (resolvePath path cmd) (fun _ t' => t' = t) t := by
  unfold resolvePath
  split
  · exact rfl
  · exact tryPaths_leaves _

theorem execStage_leaves (path : Option (List UInt8)) (stage : Stage) : Leaves (execStage path stage) (fun _ t' => t' = t) t := by
  rw [execStage]
  split
  · exact rfl
  · next cmd _ _ =>
    refine leaves_bind (resolvePath_leaves path cmd) fun file t' same => ?_
    subst same
    cases file with
    | none => exact leaves_bind (printf_leaves _) fun _ t' same => same
    | some file => exact leaves_harmless fun _ _ _ effect => effect

/-! ## Standard descriptors -/

/-- Only the standard input and output differ. -/
def SameAbove (t₀ t : Descriptors) : Prop := ∀ fd : Fd, 2 ≤ fd.val → t fd = t₀ fd

structure Console (t : Descriptors) : Prop where
  input : t 0 = .console
  output : t 1 = .console
  error : t 2 = .console

theorem dup2Table_other {old : Int} (other : (f.val : Int) ≠ target) : dup2Table t old target f = t f := by
  rw [dup2Table]
  cases fdOf old with
  | none => rfl
  | some o =>
    cases isNew : fdOf target with
    | none => rfl
    | some n =>
      have isTarget := fdOf_some isNew
      dsimp only
      split
      · rfl
      · refine update_of_ne ?_ ..
        rintro rfl
        exact other isTarget

theorem SameAbove.leaves_dup2 (known : SameAbove t₀ t) (old : Int) (standard : target = 0 ∨ target = 1) :
    Leaves (ask (.dup2 old target)) (fun _ t' => SameAbove t₀ t') t := by
  refine leaves_ask fun ans t' effect f above => ?_
  rw [show t' = dup2Table t old target from effect, dup2Table_other (by omega)]
  exact known f above

/-- A file is open on `fd`, and otherwise only the standard input and output differ. -/
structure Holding (t₀ : Descriptors) (fd : Fd) (t : Descriptors) : Prop where
  free : Free t₀ fd
  rest : ∀ f : Fd, 2 ≤ f.val → f ≠ fd → t f = t₀ f

theorem SameAbove.opened (known : SameAbove t₀ t) (free : Free t fd) : Holding t₀ fd (update t fd .file) := by
  refine ⟨⟨free.1, ?_⟩, fun f above other => ?_⟩
  · rw [← known fd (Nat.le_of_succ_le free.1)]
    exact free.2
  · rw [update_of_ne other]
    exact known f above

theorem Holding.leaves_dup2 (known : Holding t₀ fd t) (old : Int) (standard : target = 0 ∨ target = 1) :
    Leaves (ask (.dup2 old target)) (fun _ t' => Holding t₀ fd t') t := by
  refine leaves_ask fun ans t' effect => ⟨known.free, fun f above other => ?_⟩
  rw [show t' = dup2Table t old target from effect, dup2Table_other (by omega)]
  exact known.rest f above other

theorem Holding.leaves_close (known : Holding t₀ fd t) : Leaves (ask (.close fd.val)) (fun _ t' => SameAbove t₀ t') t := by
  refine leaves_ask fun ans t' effect f above => ?_
  rw [show t' = closeTable t fd.val from effect, closeTable_apply]
  split
  · next here =>
    rw [Fin.ext (show f.val = fd.val by omega)]
    exact known.free.2.symm
  · next other =>
    refine known.rest f above ?_
    rintro rfl
    exact other ⟨rfl, known.free.1⟩

theorem redirectInput_leaves (redir : Option Redir) (known : SameAbove t₀ t) :
    Leaves (redirectInput redir) (fun _ t' => SameAbove t₀ t') t := by
  cases redir with
  | none => exact known
  | some redir =>
    refine leaves_bind (open_leaves redir.filename) fun fd t' opened => ?_
    rcases opened with ⟨failed, rfl⟩ | ⟨f, rfl, free, rfl⟩
    · rw [if_pos failed]
      refine leaves_bind (printf_leaves _) fun _ t' same => ?_
      rw [same]
      exact known
    · rw [if_neg (show ¬ (f.val : Int) < 0 by omega)]
      refine leaves_bind ((known.opened free).leaves_dup2 _ (.inl rfl)) fun _ t' holding => ?_
      exact leaves_bind holding.leaves_close fun _ t' same => same

theorem positionOutput_leaves (type : RedirType) (fd : Int) : Leaves (positionOutput type fd) (fun _ t' => t' = t) t := by
  cases type with
  | out => exact leaves_bind (leaves_harmless fun _ _ _ effect => effect) fun _ t' same => same
  | append => exact leaves_bind (leaves_harmless fun _ _ _ effect => effect) fun _ t' same => same
  | input => exact rfl

theorem redirectOutput_leaves (redir : Option Redir) (known : SameAbove t₀ t) :
    Leaves (redirectOutput redir) (fun _ t' => SameAbove t₀ t') t := by
  cases redir with
  | none => exact known
  | some redir =>
    refine leaves_bind (leaves_harmless fun _ _ _ effect => effect) fun _ t' same => ?_
    subst same
    refine leaves_bind (open_leaves redir.filename) fun fd t' opened => ?_
    rcases opened with ⟨failed, rfl⟩ | ⟨f, rfl, free, rfl⟩
    · rw [if_pos failed]
      refine leaves_bind (printf_leaves _) fun _ t' same => ?_
      rw [same]
      exact known
    · rw [if_neg (show ¬ (f.val : Int) < 0 by omega)]
      refine leaves_bind (positionOutput_leaves redir.type f.val) fun _ t' same => ?_
      subst same
      refine leaves_bind ((known.opened free).leaves_dup2 _ (.inr rfl)) fun _ t' holding => ?_
      exact leaves_bind holding.leaves_close fun _ t' same => same

theorem applyRedirections_leaves (stage : Stage) (known : SameAbove t₀ t) :
    Leaves (applyRedirections stage) (fun _ t' => SameAbove t₀ t') t := by
  refine leaves_bind (redirectInput_leaves stage.redirIn known) fun applied t' known => ?_
  cases applied with
  | true => exact redirectOutput_leaves stage.redirOut known
  | false => exact known

/-- `dup2` from the standard error. -/
theorem dup2Table_console {n : Fd} (isNew : fdOf target = some n) (error : t 2 = .console) :
    dup2Table t 2 target = update t n .console := by
  have isOld : fdOf 2 = some 2 := rfl
  rw [dup2Table, isOld, isNew]
  dsimp only
  rw [error, if_neg nofun]

theorem restoreStdio_leaves (console : Console t₀) (known : SameAbove t₀ t) : Leaves restoreStdio (fun _ t' => t' = t₀) t := by
  have error : t 2 = .console := (known 2 (Nat.le_refl 2)).trans console.error
  have input : Leaves (ask (.dup2 2 0)) (fun _ t' => t' = update t 0 .console) t :=
    leaves_ask fun ans t' effect => (show t' = dup2Table t 2 0 from effect).trans (dup2Table_console rfl error)
  have error' : update t 0 .console 2 = .console := by
    rw [update_of_ne (by decide)]
    exact error
  have both : update (update t 0 .console) 1 .console = t₀ := by
    funext f
    by_cases isOutput : f = 1
    · rw [isOutput, update_self, console.output]
    · rw [update_of_ne isOutput]
      by_cases isInput : f = 0
      · rw [isInput, update_self, console.input]
      · rw [update_of_ne isInput]
        refine known f ?_
        have notZero : f.val ≠ 0 := fun zero => isInput (Fin.ext zero)
        have notOne : f.val ≠ 1 := fun one => isOutput (Fin.ext one)
        omega
  have output : Leaves (ask (.dup2 2 1)) (fun _ t' => t' = t₀) (update t 0 .console) :=
    leaves_ask fun ans t' effect => (show t' = dup2Table _ 2 1 from effect).trans ((dup2Table_console rfl error').trans both)
  refine leaves_bind input fun _ t' isInput => ?_
  subst isInput
  exact leaves_bind output fun _ t' same => same

/-! ## Pipelines -/

theorem executeSingle_leaves (path : Option (List UInt8)) (stage : Stage) (console : Console t) :
    Leaves (executeSingle path stage) (fun _ t' => t' = t) t := by
  have start : SameAbove t t := fun _ _ => rfl
  rw [executeSingle]
  cases stage.hasRedir with
  | true =>
    refine leaves_bind (applyRedirections_leaves stage start) fun applied t₁ known => ?_
    cases applied with
    | true =>
      refine leaves_bind (execStage_leaves path stage) fun child t₂ same => ?_
      subst same
      refine leaves_bind (restoreStdio_leaves console known) fun _ t₃ same => ?_
      subst same
      split
      · exact rfl
      · exact leaves_harmless fun _ _ _ effect => effect
    | false => exact leaves_bind (restoreStdio_leaves console known) fun _ t' same => same
  | false =>
    have first : Leaves (pure true) (fun applied t' => applied = true ∧ t' = t) t := ⟨rfl, rfl⟩
    refine leaves_bind first fun applied t₁ known => ?_
    obtain ⟨rfl, rfl⟩ := known
    refine leaves_bind (execStage_leaves path stage) fun child t₂ same => ?_
    subst same
    split
    · exact rfl
    · exact leaves_harmless fun _ _ _ effect => effect

/-- A descriptor of one of the pipes. -/
def OfPipe (pipes : List (Int × Int)) (fd : Fd) : Prop := ∃ pair ∈ pipes, (fd.val : Int) = pair.1 ∨ (fd.val : Int) = pair.2

/-- The pipes are open, and were free before. -/
structure Opened (t₀ : Descriptors) (pipes : List (Int × Int)) (t : Descriptors) : Prop where
  free : ∀ fd, OfPipe pipes fd → Free t₀ fd
  rest : ∀ fd, ¬ OfPipe pipes fd → t fd = t₀ fd

theorem ofPipe_concat :
    OfPipe (pipes ++ [((r.val : Int), (w.val : Int))]) fd ↔ OfPipe pipes fd ∨ fd = r ∨ fd = w := by
  constructor
  · rintro ⟨pair, member, isEnd⟩
    rcases mem_append.mp member with old | new
    · exact .inl ⟨pair, old, isEnd⟩
    · rw [mem_singleton.mp new] at isEnd
      rcases isEnd with isRead | isWrite
      · exact .inr (.inl (Fin.ext (by omega)))
      · exact .inr (.inr (Fin.ext (by omega)))
  · rintro (⟨pair, member, isEnd⟩ | rfl | rfl)
    · exact ⟨pair, mem_append_left _ member, isEnd⟩
    · exact ⟨_, mem_append_right _ mem_cons_self, .inl rfl⟩
    · exact ⟨_, mem_append_right _ mem_cons_self, .inr rfl⟩

theorem Opened.free_before (known : Opened t₀ pipes t) (free : Free t fd) : Free t₀ fd := by
  by_cases member : OfPipe pipes fd
  · exact known.free fd member
  · exact ⟨free.1, (known.rest fd member).symm.trans free.2⟩

theorem Opened.pipe (known : Opened t₀ pipes t) (b : PipeId) (freeR : Free t r) (freeW : Free t w) :
    Opened t₀ (pipes ++ [((r.val : Int), (w.val : Int))])
      (update (update t r (.pipe b .read)) w (.pipe b .write)) := by
  refine ⟨fun fd member => ?_, fun fd apart => ?_⟩
  · rcases ofPipe_concat.mp member with old | rfl | rfl
    · exact known.free fd old
    · exact known.free_before freeR
    · exact known.free_before freeW
  · rw [ofPipe_concat, not_or, not_or] at apart
    rw [update_of_ne apart.2.2, update_of_ne apart.2.1]
    exact known.rest fd apart.1

theorem createPipes_leaves (count : Nat) (made : List (Int × Int)) (known : Opened t₀ made t) :
    Leaves (createPipes count made)
      (fun pipes t' => (∃ pairs, pipes = some pairs ∧ Opened t₀ pairs t') ∨ pipes = none ∧ t' = t₀) t := by
  induction count generalizing made t with
  | zero => exact .inl ⟨made, rfl, known⟩
  | succ count ih =>
    intro ans t' effect
    rcases effect with ⟨failed, nothing, rfl⟩ | ⟨r, w, b, rfl, freeR, freeW, rfl⟩
    · have same : t' = t₀ := by
        funext fd
        by_cases member : OfPipe made fd
        · rw [nothing fd (known.free fd member).1, (known.free fd member).2]
        · exact known.rest fd member
      cases ans with
      | ends r w => exact absurd rfl (failed r w)
      | _ => exact .inr ⟨rfl, same⟩
    · exact ih _ (known.pipe b freeR freeW)

theorem connect_leaves (fd : Option Int) (standard : target = 0 ∨ target = 1) (known : SameAbove t₀ t) :
    Leaves (connect fd target) (fun _ t' => SameAbove t₀ t') t := by
  cases fd with
  | none => exact known
  | some fd => exact leaves_bind (known.leaves_dup2 fd standard) fun _ t' same => same

theorem override_leaves (redir : Option Redir) (create : Bool) (standard : target = 0 ∨ target = 1) (known : SameAbove t₀ t) :
    Leaves (override redir create target) (fun _ t' => SameAbove t₀ t') t := by
  cases redir with
  | none => exact known
  | some redir =>
    have opening : Leaves (do
        let fd ← ask (.open redir.filename)
        if 0 ≤ fd then
          let _ ← ask (.dup2 fd target)
          let _ ← ask (.close fd)) (fun _ t' => SameAbove t₀ t') t := by
      refine leaves_bind (open_leaves redir.filename) fun fd t' opened => ?_
      rcases opened with ⟨failed, rfl⟩ | ⟨f, rfl, free, rfl⟩
      · rw [if_neg (show ¬ 0 ≤ fd by omega)]
        exact known
      · rw [if_pos (show 0 ≤ (f.val : Int) by omega)]
        refine leaves_bind ((known.opened free).leaves_dup2 _ standard) fun _ t' holding => ?_
        exact leaves_bind holding.leaves_close fun _ t' same => same
    cases create with
    | true =>
      refine leaves_bind (leaves_harmless fun _ _ _ effect => effect) fun _ t' same => ?_
      subst same
      exact opening
    | false => exact opening

theorem spawnStages_leaves (path : Option (List UInt8)) (previous : Option Int) (pipes : List (Int × Int)) (stages : List Stage)
    (console : Console t) : Leaves (spawnStages path previous pipes stages) (fun _ t' => t' = t) t := by
  induction stages generalizing previous pipes with
  | nil => exact rfl
  | cons stage stages ih =>
    have start : SameAbove t t := fun _ _ => rfl
    refine leaves_bind (connect_leaves previous (.inl rfl) start) fun _ t₁ known => ?_
    refine leaves_bind (connect_leaves _ (.inr rfl) known) fun _ t₂ known => ?_
    refine leaves_bind (override_leaves stage.redirIn false (.inl rfl) known) fun _ t₃ known => ?_
    refine leaves_bind (override_leaves stage.redirOut true (.inr rfl) known) fun _ t₄ known => ?_
    refine leaves_bind (execStage_leaves path stage) fun child t₅ same => ?_
    subst same
    refine leaves_bind (restoreStdio_leaves console known) fun _ t₆ same => ?_
    subst same
    exact leaves_bind (ih _ _) fun children t' same => same

theorem close_leaves (fd : Int) : Leaves (ask (.close fd)) (fun _ t' => t' = closeTable t fd) t :=
  leaves_ask fun _ _ effect => effect

theorem closePipes_leaves (pipes : List (Int × Int)) (known : Opened t₀ pipes t) : Leaves (closePipes pipes) (fun _ t' => t' = t₀) t := by
  induction pipes generalizing t with
  | nil =>
    funext fd
    exact known.rest fd fun ⟨_, member, _⟩ => absurd member not_mem_nil
  | cons pair pipes ih =>
    obtain ⟨r, w⟩ := pair
    refine leaves_bind (close_leaves r) fun _ t₁ isClosed => ?_
    subst isClosed
    refine leaves_bind (close_leaves w) fun _ t₂ isClosed => ?_
    subst isClosed
    refine ih ⟨fun fd ⟨pair, member, isEnd⟩ => known.free fd ⟨pair, mem_cons_of_mem _ member, isEnd⟩, fun fd apart => ?_⟩
    rw [closeTable_apply, closeTable_apply]
    by_cases isEnd : (fd.val : Int) = r ∨ (fd.val : Int) = w
    · have free := known.free fd ⟨(r, w), mem_cons_self, isEnd⟩
      split
      · exact free.2.symm
      · next notWrite =>
        rw [if_pos ⟨isEnd.resolve_right fun isWrite => notWrite ⟨isWrite, free.1⟩, free.1⟩]
        exact free.2.symm
    · rw [not_or] at isEnd
      rw [if_neg fun here => isEnd.2 here.1, if_neg fun here => isEnd.1 here.1]
      refine known.rest fd ?_
      rintro ⟨pair, member, here⟩
      rcases mem_cons.mp member with rfl | later
      · exact here.elim isEnd.1 isEnd.2
      · exact apart ⟨pair, later, here⟩

theorem waitChildren_leaves (children : List Int) (lastExit : Int) : Leaves (waitChildren children lastExit) (fun _ t' => t' = t) t := by
  induction children generalizing lastExit with
  | nil => exact rfl
  | cons child rest ih =>
    rw [waitChildren]
    split
    · refine leaves_bind (leaves_harmless fun _ _ _ effect => effect) fun code t' same => ?_
      subst same
      exact ih code
    · exact ih lastExit

theorem executePipeline_leaves (path : Option (List UInt8)) (stages : List Stage) (console : Console t) :
    Leaves (executePipeline path stages) (fun _ t' => t' = t) t := by
  match stages with
  | [] => exact rfl
  | [stage] => exact leaves_bind (executeSingle_leaves path stage console) fun _ t' same => same
  | first :: second :: stages =>
    have start : Opened t [] t := ⟨fun fd ⟨_, member, _⟩ => absurd member not_mem_nil, fun _ _ => rfl⟩
    refine leaves_bind (createPipes_leaves _ [] start) fun pipes t₁ created => ?_
    rcases created with ⟨pairs, rfl, opened⟩ | ⟨rfl, rfl⟩
    · have console₁ : Console t₁ := by
        have standard (fd : Fd) (low : fd.val < fdStdioCount) : t₁ fd = t fd :=
          opened.rest fd fun member => absurd (opened.free fd member).1 (Nat.not_le_of_lt low)
        exact ⟨(standard 0 (by decide)).trans console.input, (standard 1 (by decide)).trans console.output,
          (standard 2 (by decide)).trans console.error⟩
      refine leaves_bind (spawnStages_leaves path none pairs _ console₁) fun children t₂ same => ?_
      subst same
      refine leaves_bind (closePipes_leaves pairs opened) fun _ t₃ same => ?_
      subst same
      exact leaves_bind (waitChildren_leaves children 0) fun _ t' same => same
    · exact leaves_bind (printf_leaves _) fun _ t' same => same

/-- A pipeline that the shell executes as the process `p`, in any interleaving with the other processes and with any outcome
of the calls, leaves the shell with the console and nothing else, if no call of `pipe` fails with a descriptor open. -/
theorem pipeline_restores_descriptors {p : Slot} {s s' : System} (alive : Alive p s) (start : (s.procs p).fds = consoleOnly)
    {path : Option (List UInt8)} {stages : List Stage} {trace : List (Program.Move Outside Op × Unit)} {code : Option Int} {begun : Bool}
    (run : Run (machine p) (Program.Permitted (PipeReady p) (Foreign p)) (s, ⟨executePipeline path stages, false⟩) trace
      (s', ⟨.done code, begun⟩)) :
    (s'.procs p).fds = consoleOnly := by
  have console : Console consoleOnly := ⟨rfl, rfl, rfl⟩
  have leaves : Leaves (executePipeline path stages) (fun _ t' => t' = consoleOnly) (s.procs p).fds := by
    rw [start]
    exact executePipeline_leaves path stages console
  exact (Program.Ensures.run (refines p) leaves alive run).2

instance PipeReady.decide (p : Slot) (s : System) (req : Request) : Decidable (PipeReady p s req) := by
  cases req <;> dsimp only [PipeReady] <;> infer_instance

instance Foreign.decide (p : Slot) (op : Op) : Decidable (Foreign p op) := by
  cases op <;> dsimp only [Foreign] <;> infer_instance

/-- The kernel when its own shell has just started the program in slot 0. -/
def startedShell : System := (boot.step (.shell .loaded)).2

/-- A command that is looked up nowhere. -/
def plainStage : Stage := ⟨[[47, 97]], none, none⟩

/-- Calls of the shell: files are there, programs are loaded. -/
def selfMoves (n : Nat) : List (Program.Move Outside Op) := List.replicate n (.self ⟨0, .loaded⟩)

/-- Both children exit before the shell waits for them. -/
def sampleMoves : List (Program.Move Outside Op) := selfMoves 11 ++ [.other (.call 1 (.exit 0)), .other (.call 2 (.exit 0))] ++ selfMoves 2

theorem pipeline_restores_descriptors_sample : ∃ trace s' code begun,
    Run (machine 0) (Program.Permitted (PipeReady 0) (Foreign 0))
      (startedShell, ⟨executePipeline none [plainStage, plainStage], false⟩) trace (s', ⟨.done code, begun⟩) ∧
    (s'.procs 0).fds = consoleOnly := by
  have allowed : AllAllowed (machine 0) (Program.Permitted (PipeReady 0) (Foreign 0))
      (startedShell, ⟨executePipeline none [plainStage, plainStage], false⟩) sampleMoves := by decide +kernel
  have isDone : (execute (machine 0) (startedShell, ⟨executePipeline none [plainStage, plainStage], false⟩) sampleMoves).2.2.prog.isDone = true := by
    decide +kernel
  have run := Run.of_execute sampleMoves allowed
  obtain ⟨code, isCode⟩ := Program.eq_done_of_isDone isDone
  generalize (execute (machine 0) (startedShell, ⟨executePipeline none [plainStage, plainStage], false⟩) sampleMoves).2 = x at run isCode
  obtain ⟨s', prog, begun⟩ := x
  cases isCode
  exact ⟨_, s', code, begun, run, pipeline_restores_descriptors (.inl (by decide +kernel)) (by decide +kernel) run⟩

/-- Eight stages need fourteen descriptors and there are thirteen: the seventh `pipe` fails, the shell returns, and the
twelve descriptors of the other six stay open. -/
theorem failed_pipe_leaks : Alive 0 startedShell ∧ (startedShell.procs 0).fds = consoleOnly ∧
    ∃ s' code, (execute (machine 0) (startedShell, ⟨executePipeline none (List.replicate 8 plainStage), false⟩) (selfMoves 8)).2 =
        (s', ⟨.done code, false⟩) ∧ ∀ fd : Fd, fd.val ≤ 14 → (s'.procs 0).fds fd ≠ .none := by
  refine ⟨.inl (by decide +kernel), by decide +kernel, ?_⟩
  have ends : ∃ x, (execute (machine 0) (startedShell, ⟨executePipeline none (replicate 8 plainStage), false⟩) (selfMoves 8)).2 = x ∧
      x.2.prog.isDone = true ∧ x.2.begun = false ∧ ∀ fd : Fd, fd.val ≤ 14 → (x.1.procs 0).fds fd ≠ .none :=
    ⟨_, rfl, by decide +kernel⟩
  obtain ⟨⟨s', prog, flag⟩, isLast, isDone, begun, leaked⟩ := ends
  obtain ⟨code, isCode⟩ := Program.eq_done_of_isDone isDone
  cases isCode
  cases begun
  exact ⟨s', code, isLast, leaked⟩

end GinnOS.Shell
